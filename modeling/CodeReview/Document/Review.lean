import CodeReview.Config.Settings
import CodeReview.Document.Fields
import CodeReview.Statistics
import CodeReview.Step

/-!
# Documents of reviews

The JSON forms of issues, steps, progress, review settings and statistics.  Confidences and densities
are written by their patterns.
-/

namespace CodeReview

namespace Issue

/-- The fields of an issue. -/
def fields : Fields :=
  [("description", .required), ("severity", .required), ("category", .required),
   ("line", .defaulted), ("suggested_fix", .defaulted), ("confidence", .required),
   ("source_step_id", .defaulted)]

def ofJson? (j : Json) : Option Issue := do
  let [some description, some severity, some category, line, fix, some confidence, step] ←
    fields.read j | none
  some
    { description := ← description.asString
      severity := ← severity.asName Severity.ofName?
      category := ← category.asName Category.ofName?
      line := ← Json.orElse none (Json.asOption Json.asNat) line
      suggestedFix := ← Json.orElse none (Json.asOption Json.asString) fix
      confidence := ← confidence.asSingle
      sourceStep := ← Json.orElse "" Json.asString step }

/-- Write an issue; the line and the suggested fix only where there are any. -/
def toJson (i : Issue) : Json :=
  Json.obj
    ([("description", Json.str i.description), ("severity", Json.str i.severity.name),
      ("category", Json.str i.category.name)] ++
      (i.line.map fun n => ("line", Json.nat n)).toList ++
      (i.suggestedFix.map fun s => ("suggested_fix", Json.str s)).toList ++
      [("confidence", Json.ofSingle i.confidence), ("source_step_id", Json.str i.sourceStep)])

end Issue

namespace StepManifest

/-- The fields of a manifest. -/
def fields : Fields :=
  [("id", .defaulted), ("name", .defaulted), ("description", .defaulted), ("category", .defaulted),
   ("severity", .defaulted), ("tags", .defaulted)]

def ofJson? (j : Json) : Option StepManifest := do
  let [id, name, description, category, severity, tags] ← fields.read j | none
  let text := Json.orElse "" Json.asString
  some
    ⟨← text id, ← text name, ← text description, ← text category, ← text severity,
     ← Json.orElse [] (Json.asList Json.asString) tags⟩

def toJson (m : StepManifest) : Json :=
  Json.obj
    [("id", Json.str m.id), ("name", Json.str m.name), ("description", Json.str m.description),
     ("category", Json.str m.category), ("severity", Json.str m.severity),
     ("tags", Json.list Json.str m.tags)]

end StepManifest

def Step.toJson {ε : Type} (s : Step ε) : Json :=
  Json.obj
    [("id", Json.str s.id), ("name", Json.str s.name), ("description", Json.str s.description),
     ("category", Json.str s.category.name), ("severity", Json.str s.severity.name),
     ("tags", Json.list Json.str s.tags.keys)]

namespace StepContext

def ofJson? (j : Json) : Option StepContext := do
  let fields : Fields :=
    [("file_path", .nullable), ("language", .nullable), ("metadata", .defaulted)]
  let [path, language, metadata] ← fields.read j | none
  some
    ⟨← Json.orElse none (Json.asOption Json.asPath) path,
     ← Json.orElse none (Json.asOption Json.asString) language,
     ← Json.orElse ∅ Json.asTexts metadata⟩

def toJson (c : StepContext) : Json :=
  Json.obj
    [("file_path", Json.opt Json.ofPath c.filePath), ("language", Json.opt Json.str c.language),
     ("metadata", Json.obj (c.metadata.entries.map fun e => (e.1, Json.str e.2)))]

end StepContext

namespace ReviewConfig

/-- Read settings; what is missing has its default. -/
def ofJson? (j : Json) : Option ReviewConfig := do
  let fields : Fields :=
    [("max_workers", .defaulted), ("step_timeout_secs", .defaulted),
     ("key_findings_limit", .defaulted)]
  let [workers, secs, limit] ← fields.read j | none
  let c : ReviewConfig := {}
  some
    ⟨← Json.orElse c.maxWorkers Json.asNat workers,
     ← Json.orElse c.stepTimeoutSecs Json.asNat secs,
     ← Json.orElse c.keyFindingsLimit Json.asNat limit⟩

/-- Write settings. -/
def toJson (c : ReviewConfig) : Json :=
  Json.obj
    [("max_workers", Json.nat c.maxWorkers), ("step_timeout_secs", Json.nat c.stepTimeoutSecs),
     ("key_findings_limit", Json.nat c.keyFindingsLimit)]

end ReviewConfig

namespace StepFailure

def ofJson? (j : Json) : Option StepFailure := do
  let fields : Fields := [("step_id", .required), ("error", .required), ("timed_out", .required)]
  let [some step, some error, some timedOut] ← fields.read j | none
  some ⟨← step.asString, ← error.asString, ← timedOut.asBool⟩

def toJson (f : StepFailure) : Json :=
  Json.obj
    [("step_id", Json.str f.step), ("error", Json.str f.error), ("timed_out", .bool f.timedOut)]

end StepFailure

namespace ProgressCounts

def ofJson? (j : Json) : Option ProgressCounts := do
  let fields : Fields :=
    [("pending", .required), ("in_progress", .required), ("completed", .required),
     ("failed", .required), ("skipped", .required)]
  let [some pending, some inProgress, some completed, some failed, some skipped] ←
    fields.read j | none
  some
    ⟨← pending.asNat, ← inProgress.asNat, ← completed.asNat, ← failed.asNat, ← skipped.asNat⟩

def toJson (c : ProgressCounts) : Json :=
  Json.obj
    [("pending", Json.nat c.pending), ("in_progress", Json.nat c.inProgress),
     ("completed", Json.nat c.completed), ("failed", Json.nat c.failed),
     ("skipped", Json.nat c.skipped)]

end ProgressCounts

namespace ProgressRecord

/-- Read the record of a step that began and ended at known moments. -/
def ofJson? (j : Json) : Option (ProgressRecord Timestamp) := do
  let fields : Fields :=
    [("step_id", .required), ("status", .required), ("started_at", .nullable),
     ("ended_at", .nullable), ("error", .defaulted)]
  let [some step, some status, started, ended, error] ← fields.read j | none
  let moment := Json.orElse none (Json.asOption Json.asTimestamp)
  some
    ⟨← step.asString, ← status.asName StepStatus.ofName?, ← moment started, ← moment ended,
     ← Json.orElse none (Json.asOption Json.asString) error⟩

/-- Write the record of a step; the error only where there is one. -/
def toJson (r : ProgressRecord Timestamp) : Json :=
  Json.obj
    ([("step_id", Json.str r.step), ("status", Json.str r.status.name),
      ("started_at", Json.opt Json.ofTimestamp r.startedAt),
      ("ended_at", Json.opt Json.ofTimestamp r.endedAt)] ++
      (r.error.map fun s => ("error", Json.str s)).toList)

/-- How many whole milliseconds a step took, if its beginning and its end are known. -/
def milliseconds? (r : ProgressRecord Timestamp) : Option Int := do
  some ((← r.startedAt).millisecondsTo (← r.endedAt))

end ProgressRecord

/-- The keys of a map with their values, in order. -/
def Json.entries {κ α : Type} [Keyed κ] (k : κ → Json) (v : α → Json) (m : OrderedMap κ α) : Json :=
  Json.list (fun e => .array [k e.1, v e.2]) m.entries

/-- A summary of a review, with the counts of all severities and categories beside those that
occur. -/
def Statistics.toJson (s : Statistics) : Json :=
  Json.obj
    [("total_issues", Json.nat s.totalIssues),
     ("by_severity", Json.entries (fun k => Json.str k.name) Json.nat s.bySeverity),
     ("by_category", Json.entries (fun k => Json.str k.name) Json.nat s.byCategory),
     ("by_step", Json.entries Json.str Json.nat s.byStep),
     ("key_findings", Json.list Issue.toJson s.keyFindings),
     ("average_confidence", Json.ofDouble s.averageConfidence),
     ("density_by_file", Json.entries Json.ofPath Json.ofDouble s.densityByFile),
     ("overall_density", Json.opt Json.ofDouble s.overallDensity),
     ("severity_counts", Json.list (fun v => Json.nat (s.countForSeverity v)) Severity.all),
     ("category_counts", Json.list (fun c => Json.nat (s.countForCategory c)) Category.all)]

end CodeReview
