import CodeReview.Run.Report

/-!
# Statistics

A summary of issues: how many there are of each severity, category and step, the most important ones,
how sure the steps were on average, and for files how many issues there are per line.  The same issues
in the same order always give the same summary.
-/

namespace CodeReview

instance : Keyed Severity := ⟨fun s => [[s.rank]]⟩

instance : Keyed Category := ⟨fun c => [[c.rank]]⟩

/-- A summary of issues. -/
structure Statistics where
  totalIssues : Nat
  bySeverity : OrderedMap Severity Nat
  byCategory : OrderedMap Category Nat
  byStep : OrderedMap String Nat
  keyFindings : List Issue
  averageConfidence : Double
  densityByFile : OrderedMap Path Double
  overallDensity : Option Double

namespace Statistics

/-- How often each key occurs; keys that do not occur are not listed. -/
def tally {κ : Type} [Keyed κ] (ks : List κ) : OrderedMap κ Nat :=
  ks.foldl (fun m k => m.update k fun n => n.getD 0 + 1) ∅

/-- Whether an issue is at least as important as another one: more severe, or as severe and at least
as sure, confidences compared as patterns. -/
def atLeast (a b : Issue) : Bool :=
  b.severity.rank < a.severity.rank ||
    (b.severity.rank = a.severity.rank && b.confidence.orderKey ≤ a.confidence.orderKey)

/-- The most important issues, at most `limit`, of equally important ones the earlier first. -/
def topIssues (issues : List Issue) (limit : Nat) : List Issue :=
  (issues.mergeSort atLeast).take limit

/-- The sum of the confidences, taken up in the order of the issues. -/
def confidenceSum (issues : List Issue) : Double :=
  issues.foldl (fun sum i => sum.add i.confidence.toDouble) Double.zero

/-- The mean of the confidences, zero without issues. -/
def meanConfidence (issues : List Issue) : Double :=
  if issues = [] then Double.zero
  else (confidenceSum issues).div (Double.ofNat issues.length)

/-- How many issues there are per line, zero without lines. -/
def density (issues lines : Nat) : Double :=
  if lines = 0 then Double.zero else (Double.ofNat issues).div (Double.ofNat lines)

/-- The summary of issues with at most `limit` key findings. -/
def ofIssues (issues : List Issue) (limit : Nat) : Statistics where
  totalIssues := issues.length
  bySeverity := tally (issues.map Issue.severity)
  byCategory := tally (issues.map Issue.category)
  byStep := tally (issues.map Issue.sourceStep)
  keyFindings := topIssues issues limit
  averageConfidence := meanConfidence issues
  densityByFile := ∅
  overallDensity := none

/-- The summary of the issues of several files, taken in path order. -/
def ofDirectory (r : DirectoryReport) (limit : Nat) : Statistics :=
  let issues := r.allIssues.map Prod.snd
  let lines := r.files.values.foldr (fun f n => f.lineCount + n) 0
  { ofIssues issues limit with
    densityByFile :=
      OrderedMap.ofList (r.files.entries.map fun e =>
        (e.1, density e.2.report.issues.length e.2.lineCount))
    overallDensity := some (density issues.length lines) }

/-- How many issues have a severity. -/
def countForSeverity (s : Statistics) (severity : Severity) : Nat :=
  (s.bySeverity.find? severity).getD 0

/-- How many issues have a category. -/
def countForCategory (s : Statistics) (category : Category) : Nat :=
  (s.byCategory.find? category).getD 0

end Statistics

end CodeReview
