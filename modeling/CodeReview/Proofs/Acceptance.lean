import CodeReview.Proofs.Lookup
import CodeReview.Registry
import Mathlib.Data.List.TakeWhile

/-!
# What a registry accepts

A registry is given steps, and manifests of steps, one after the other; some are in order, some are
not, and some come under a name that is taken.  `Accepted` says which of them ought to stand in the
registry without looking at one: those that describe a valid step under a name that is still free, in
the order of the calls.  `attempt_cases` is the one fact about a call, and what a registry answers
after any calls (`registry_holds_accepted`) follows from it and from the places of the names.
-/

namespace CodeReview

variable {ε : Type}

/-! ## Words -/

/-- A text with a character that can be seen. -/
def Shows (text : String) : Prop :=
  ∃ c ∈ text.toList, isBlank c = false

theorem isBlankText_eq_false_iff {text : String} : isBlankText text = false ↔ Shows text := by
  simp [isBlankText, Shows]

theorem trim_of_isBlankText {text : String} (h : isBlankText text = true) : trim text = "" := by
  have hleft : trimLeft text.toList = [] := by
    rw [isBlankText, List.all_eq_true] at h
    exact List.dropWhile_eq_nil_iff.2 h
  rw [trim, trimChars, hleft]
  rfl

theorem trimLeft_sublist (cs : List Char) : (trimLeft cs).Sublist cs :=
  List.dropWhile_sublist _

theorem trimLeft_eq_self_iff {cs : List Char} :
    trimLeft cs = cs ↔ ∀ c ∈ cs.head?, isBlank c = false := by
  cases cs with
  | nil => simp [trimLeft]
  | cons c cs => simp [trimLeft, List.dropWhile_eq_self_iff]

/-- Trimming changes a text unless there is nothing blank at either end. -/
theorem trim_eq_self_iff {text : String} :
    trim text = text ↔ (∀ c ∈ text.toList.head?, isBlank c = false) ∧
      ∀ c ∈ text.toList.getLast?, isBlank c = false := by
  have hends : trim text = text ↔
      trimLeft text.toList = text.toList ∧ trimLeft text.toList.reverse = text.toList.reverse := by
    rw [← String.toList_inj, trim, String.toList_ofList, trimChars, List.reverse_eq_iff]
    constructor
    · intro h
      -- Neither pass makes a text longer, so if both together keep its length each keeps all of it.
      have hlen := congrArg List.length h
      have h₁ := (trimLeft_sublist text.toList).length_le
      have h₂ := (trimLeft_sublist (trimLeft text.toList).reverse).length_le
      rw [List.length_reverse] at hlen h₂
      have hleft := (trimLeft_sublist text.toList).eq_of_length_le (by omega)
      rw [hleft] at h
      exact ⟨hleft, h⟩
    · rintro ⟨hleft, hright⟩
      rw [hleft, hright]
  rw [hends, trimLeft_eq_self_iff, trimLeft_eq_self_iff, List.head?_reverse]

theorem Category.ofName?_eq_some_iff {name : String} {c : Category} :
    ofName? name = some c ↔ name = c.name := by
  constructor
  · intro h
    simpa [eq_comm] using List.find?_some h
  · rintro rfl
    cases c <;> decide

theorem Severity.ofName?_eq_some_iff {name : String} {v : Severity} :
    ofName? name = some v ↔ name = v.name := by
  constructor
  · intro h
    simpa [eq_comm] using List.find?_some h
  · rintro rfl
    cases v <;> decide

theorem Category.parse_eq_ok_iff {text : String} {c : Category} :
    parse text = .ok c ↔ lowerAsciiText (trim text) = c.name := by
  rw [← ofName?_eq_some_iff, parse]
  cases ofName? (lowerAsciiText (trim text)) <;> simp

theorem Severity.parse_eq_ok_iff {text : String} {v : Severity} :
    parse text = .ok v ↔ lowerAsciiText (trim text) = v.name := by
  rw [← ofName?_eq_some_iff, parse]
  cases ofName? (lowerAsciiText (trim text)) <;> simp

/-- A blank word names no category and no severity. -/
theorem isBlankText_of_lowerAsciiText {text : String} (h : lowerAsciiText (trim text) ≠ "") :
    isBlankText text = false := by
  by_contra hblank
  exact h (by rw [trim_of_isBlankText (eq_true_of_ne_false hblank)]; rfl)

theorem Category.name_ne_empty (c : Category) : c.name ≠ "" := by
  cases c <;> decide

theorem Severity.name_ne_empty (v : Severity) : v.name ≠ "" := by
  cases v <;> decide

/-! ## Valid steps -/

/-- A step that may be registered. -/
structure Step.Valid (s : Step ε) : Prop where
  id_shows : Shows s.id
  id_first : ∀ c ∈ s.id.toList.head?, isBlank c = false
  id_last : ∀ c ∈ s.id.toList.getLast?, isBlank c = false
  name_shows : Shows s.name
  tags_show : ∀ tag ∈ s.tags.keys, Shows tag

theorem Step.fault?_eq_none_iff {s : Step ε} : s.fault? = none ↔ s.Valid := by
  have htags : s.tags.keys.any isBlankText = false ↔ ∀ tag ∈ s.tags.keys, Shows tag := by
    rw [List.any_eq_false]
    exact forall₂_congr fun _ _ => by rw [Bool.not_eq_true, isBlankText_eq_false_iff]
  unfold fault?
  constructor
  · intro h
    split at h
    · cases h
    next hid =>
    split at h
    · cases h
    next hends =>
    split at h
    · cases h
    next hname =>
    split at h
    · cases h
    next htag =>
    obtain ⟨hfirst, hlast⟩ := trim_eq_self_iff.1 (not_not.1 hends)
    exact ⟨isBlankText_eq_false_iff.1 (eq_false_of_ne_true hid), hfirst, hlast,
      isBlankText_eq_false_iff.1 (eq_false_of_ne_true hname), htags.1 (eq_false_of_ne_true htag)⟩
  · intro h
    have hends := trim_eq_self_iff.2 ⟨h.id_first, h.id_last⟩
    simp [isBlankText_eq_false_iff.2 h.id_shows, hends, isBlankText_eq_false_iff.2 h.name_shows,
      htags.2 h.tags_show]

/-! ## Calls -/

/-- What a registry is given. -/
inductive Registration (ε : Type) where
  | step (s : Step ε)
  | manifest (m : StepManifest) (executor : ε)

/-- The name under which a step is to stand. -/
def Registration.id : Registration ε → String
  | .step s => s.id
  | .manifest m _ => m.id

/-- The step that a registration asks for; a manifest asks for one when its words for category and
severity are known. -/
inductive Registration.Describes : Registration ε → Step ε → Prop where
  | step (s : Step ε) : Describes (.step s) s
  | manifest {m : StepManifest} {executor : ε} {c : Category} {v : Severity}
    (hcategory : lowerAsciiText (trim m.category) = c.name)
    (hseverity : lowerAsciiText (trim m.severity) = v.name) :
    Describes (.manifest m executor)
      ⟨m.id, m.name, m.description, c, v, OrderedSet.ofKeys m.tags, executor⟩

namespace Registration.Describes

variable {c : Registration ε} {s s' : Step ε}

theorem unique (h : c.Describes s) (h' : c.Describes s') : s = s' := by
  cases h with
  | step => cases h'; rfl
  | manifest hcategory hseverity =>
    cases h' with
    | manifest hcategory' hseverity' =>
      rw [← Category.ofName?_eq_some_iff] at hcategory hcategory'
      rw [← Severity.ofName?_eq_some_iff] at hseverity hseverity'
      cases hcategory.symm.trans hcategory'
      cases hseverity.symm.trans hseverity'
      rfl

theorem id_eq (h : c.Describes s) : s.id = c.id := by
  cases h <;> rfl

end Registration.Describes

namespace StepManifest

variable {m : StepManifest} {executor : ε}

/-- A manifest whose words are known stands or falls with the step it describes. -/
theorem toStep_of_words {c : Category} {v : Severity}
    (hcategory : lowerAsciiText (trim m.category) = c.name)
    (hseverity : lowerAsciiText (trim m.severity) = v.name) :
    let s : Step ε :=
      ⟨m.id, m.name, m.description, c, v, OrderedSet.ofKeys m.tags, executor⟩
    m.toStep executor = match s.fault? with
      | some fault => .error fault
      | none => .ok s := by
  intro s
  have hshownCategory : isBlankText m.category = false :=
    isBlankText_of_lowerAsciiText (hcategory ▸ c.name_ne_empty)
  have hshownSeverity : isBlankText m.severity = false :=
    isBlankText_of_lowerAsciiText (hseverity ▸ v.name_ne_empty)
  simp only [toStep, hshownCategory, hshownSeverity, Category.parse_eq_ok_iff.2 hcategory,
    Severity.parse_eq_ok_iff.2 hseverity, StepFault.reading]
  rfl

/-- A manifest with a word that is not known becomes no step. -/
theorem words_of_toStep {s : Step ε} (h : m.toStep executor = .ok s) :
    ∃ (c : Category) (v : Severity), lowerAsciiText (trim m.category) = c.name ∧
      lowerAsciiText (trim m.severity) = v.name := by
  cases hc : Category.parse m.category with
  | error text =>
    simp only [toStep, hc, StepFault.reading] at h
    split at h
    · cases h
    split at h <;> cases h
  | ok c =>
    cases hv : Severity.parse m.severity with
    | error text =>
      simp only [toStep, hc, hv, StepFault.reading] at h
      split at h
      · cases h
      split at h <;> cases h
    | ok v => exact ⟨c, v, Category.parse_eq_ok_iff.1 hc, Severity.parse_eq_ok_iff.1 hv⟩

/-- A manifest becomes the step that it describes, if that is valid. -/
theorem toStep_eq_ok_iff {s : Step ε} :
    m.toStep executor = .ok s ↔ (Registration.manifest m executor).Describes s ∧ s.Valid := by
  constructor
  · intro h
    obtain ⟨c, v, hcategory, hseverity⟩ := words_of_toStep h
    rw [toStep_of_words hcategory hseverity] at h
    split at h
    · cases h
    · next hfault =>
      cases h
      exact ⟨.manifest hcategory hseverity, Step.fault?_eq_none_iff.1 hfault⟩
  · rintro ⟨hdescribes, hvalid⟩
    cases hdescribes with
    | manifest hcategory hseverity =>
      rw [toStep_of_words hcategory hseverity, Step.fault?_eq_none_iff.2 hvalid]

end StepManifest

namespace Registry

variable {r : Registry ε} {c : Registration ε}

/-! ## Steps and their places -/

theorem contains_iff {id : String} : r.contains id = true ↔ id ∈ r.ids :=
  r.placed.contains_iff

theorem nodup_ids (r : Registry ε) : r.ids.Nodup :=
  r.placed.nodup

theorem find?_eq_some_iff {id : String} {s : Step ε} :
    r.find? id = some s ↔ s ∈ r.steps ∧ s.id = id :=
  r.placed.find?_eq_some_iff

/-- The step of a name is the first one that carries it. -/
theorem find?_eq (r : Registry ε) (id : String) : r.find? id = r.steps.find? fun s => s.id = id :=
  r.placed.find?_eq id

theorem contains_eq (r : Registry ε) (id : String) : r.contains id = (r.find? id).isSome := by
  rw [Bool.eq_iff_iff, contains_iff, find?_eq, List.find?_isSome, ids, List.mem_map]
  simp only [decide_eq_true_eq]

/-! ## One call after the other -/

def attempt (r : Registry ε) : Registration ε → Except RegistryError (Registry ε)
  | .step s => r.register s
  | .manifest m executor => r.registerManifest m executor

/-- The registry after a call: one that is refused leaves it alone. -/
def after (r : Registry ε) (c : Registration ε) : Registry ε :=
  (r.attempt c).toOption.getD r

def afterAll (r : Registry ε) (cs : List (Registration ε)) : Registry ε :=
  cs.foldl after r

theorem afterAll_concat (r : Registry ε) (cs : List (Registration ε)) (c : Registration ε) :
    r.afterAll (cs ++ [c]) = (r.afterAll cs).after c :=
  List.foldl_concat ..

theorem register_of_valid {s : Step ε} (hvalid : s.Valid) :
    (s.id ∉ r.ids ∧ ∃ r', r.register s = .ok r' ∧ r'.steps = r.steps ++ [s]) ∨
      (s.id ∈ r.ids ∧ r.register s = .error (.duplicate s.id)) := by
  rw [register, Step.fault?_eq_none_iff.2 hvalid]
  by_cases htaken : r.contains s.id = true
  · exact .inr ⟨contains_iff.1 htaken, dif_pos htaken⟩
  · exact .inl ⟨fun hid => htaken (contains_iff.2 hid), _, dif_neg htaken, rfl⟩

/-- A call that describes a valid step comes down to registering that step. -/
theorem attempt_of_describes {s : Step ε} (hs : c.Describes s) (hvalid : s.Valid) :
    r.attempt c = r.register s := by
  cases c with
  | step s' =>
    cases hs
    rfl
  | manifest m executor =>
    rw [attempt, registerManifest, StepManifest.toStep_eq_ok_iff.2 ⟨hs, hvalid⟩]

/-- A call that describes no valid step is refused. -/
theorem attempt_of_not_describes (h : ∀ s, c.Describes s → ¬ s.Valid) :
    ∃ fault, r.attempt c = .error (.invalid c.id fault) := by
  cases c with
  | step s =>
    cases hfault : s.fault? with
    | none => exact absurd (Step.fault?_eq_none_iff.1 hfault) (h s (.step s))
    | some fault => exact ⟨fault, by rw [attempt, register, hfault]; rfl⟩
  | manifest m executor =>
    cases hstep : m.toStep executor with
    | ok s =>
      obtain ⟨hs, hvalid⟩ := StepManifest.toStep_eq_ok_iff.1 hstep
      exact absurd hvalid (h s hs)
    | error fault => exact ⟨fault, by rw [attempt, registerManifest, hstep]; rfl⟩

/-- What a call can do: a valid step under a free name is put behind the others, and any other call is
refused and names the step it is about. -/
theorem attempt_cases (r : Registry ε) (c : Registration ε) :
    (∃ s r', c.Describes s ∧ s.Valid ∧ s.id ∉ r.ids ∧ r.attempt c = .ok r' ∧ r.after c = r' ∧
      r'.steps = r.steps ++ [s]) ∨
    ((∀ s, c.Describes s → s.Valid → s.id ∈ r.ids) ∧
      (∃ e, r.attempt c = .error e ∧ e.step = c.id) ∧ r.after c = r) := by
  have hkept : ∀ e, r.attempt c = .error e → r.after c = r := fun e h => by rw [after, h]; rfl
  by_cases hoffer : ∃ s, c.Describes s ∧ s.Valid
  · obtain ⟨s, hs, hvalid⟩ := hoffer
    have hcall : r.attempt c = r.register s := attempt_of_describes hs hvalid
    rcases register_of_valid (r := r) hvalid with ⟨hfree, r', hok, hsteps⟩ | ⟨htaken, herror⟩
    · rw [← hcall] at hok
      exact .inl ⟨s, r', hs, hvalid, hfree, hok, by rw [after, hok]; rfl, hsteps⟩
    · rw [← hcall] at herror
      refine .inr ⟨fun s' hs' _ => ?_, ⟨_, herror, hs.id_eq⟩, hkept _ herror⟩
      rwa [hs'.unique hs]
  · have hnone : ∀ s, c.Describes s → ¬ s.Valid := fun s hs hvalid => hoffer ⟨s, hs, hvalid⟩
    obtain ⟨fault, herror⟩ := attempt_of_not_describes (r := r) hnone
    exact .inr ⟨fun s hs hvalid => absurd hvalid (hnone s hs), ⟨_, herror, rfl⟩, hkept _ herror⟩

end Registry

/-! ## What ought to stand there -/

/-- The steps that a sequence of calls brings in: each call adds the step it describes if that is valid
and its name is free, and otherwise nothing. -/
inductive Accepted : List (Registration ε) → List (Step ε) → Prop where
  | nil : Accepted [] []
  | accept {cs : List (Registration ε)} {ss : List (Step ε)} {c : Registration ε} {s : Step ε}
    (earlier : Accepted cs ss) (describes : c.Describes s) (valid : s.Valid)
    (free : s.id ∉ ss.map Step.id) : Accepted (cs ++ [c]) (ss ++ [s])
  | refuse {cs : List (Registration ε)} {ss : List (Step ε)} {c : Registration ε}
    (earlier : Accepted cs ss) (unfit : ∀ s, c.Describes s → s.Valid → s.id ∈ ss.map Step.id) :
    Accepted (cs ++ [c]) ss

namespace Registry

/-- A registry holds the steps that its calls bring in. -/
theorem accepted_afterAll (cs : List (Registration ε)) :
    Accepted cs ((∅ : Registry ε).afterAll cs).steps := by
  induction cs using List.reverseRecOn with
  | nil => exact .nil
  | append_singleton cs c ih =>
    rw [afterAll_concat]
    rcases attempt_cases ((∅ : Registry ε).afterAll cs) c with
      ⟨s, r', hs, hvalid, hfree, -, hafter, hsteps⟩ | ⟨hunfit, -, hafter⟩
    · rw [hafter, hsteps]
      exact .accept ih hs hvalid hfree
    · rw [hafter]
      exact .refuse ih hunfit

/-- No other steps are brought in. -/
theorem steps_eq_of_accepted {cs : List (Registration ε)} {ss : List (Step ε)} (h : Accepted cs ss) :
    ((∅ : Registry ε).afterAll cs).steps = ss := by
  induction h with
  | nil => rfl
  | @accept cs ss c s _ hs hvalid hfree ih =>
    rw [afterAll_concat]
    rw [← ih] at hfree
    rcases attempt_cases ((∅ : Registry ε).afterAll cs) c with
      ⟨s', r', hs', -, -, -, hafter, hsteps⟩ | ⟨hunfit, -, -⟩
    · rw [hafter, hsteps, ih, hs.unique hs']
    · exact absurd (hunfit s hs hvalid) hfree
  | @refuse cs ss c _ hunfit ih =>
    rw [afterAll_concat]
    rw [← ih] at hunfit
    rcases attempt_cases ((∅ : Registry ε).afterAll cs) c with
      ⟨s', r', hs', hvalid', hfree', -, -, -⟩ | ⟨-, -, hafter⟩
    · exact absurd (hunfit s' hs' hvalid') hfree'
    · rw [hafter, ih]

/-- Steps are never moved or taken away. -/
theorem steps_afterAll (r : Registry ε) (cs : List (Registration ε)) :
    ∃ news, (r.afterAll cs).steps = r.steps ++ news := by
  induction cs using List.reverseRecOn with
  | nil => exact ⟨[], (List.append_nil _).symm⟩
  | append_singleton cs c ih =>
    obtain ⟨news, hnews⟩ := ih
    rw [afterAll_concat]
    rcases attempt_cases (r.afterAll cs) c with ⟨s, r', -, -, -, -, hafter, hsteps⟩ | ⟨-, -, hafter⟩
    · exact ⟨news ++ [s], by rw [hafter, hsteps, hnews, List.append_assoc]⟩
    · exact ⟨news, by rw [hafter, hnews]⟩

theorem select_of_no_ids (r : Registry ε) {f : StepFilter} (h : chosen? f.ids = none) :
    r.select f = .ok (r.steps.filter f.accepts) := by
  rw [select, h]

/-- After any calls the registry holds the steps that these bring in, in the order of the calls.  A
call is accepted exactly if it describes a valid step under a free name, and otherwise changes nothing.
No name occurs twice, and a name is looked up to the first step that carries it.  Further calls put
steps behind the ones that are there: they do not touch what was found, and what a filter without
names chose comes first in what it chooses then. -/
theorem registry_holds_accepted (cs more : List (Registration ε)) :
    let r := (∅ : Registry ε).afterAll cs
    let r' := r.afterAll more
    (∀ ss, Accepted cs ss ↔ r.steps = ss) ∧
    (∀ c,
      (∃ s r₁, c.Describes s ∧ s.Valid ∧ s.id ∉ r.ids ∧ r.attempt c = .ok r₁ ∧ r.after c = r₁ ∧
        r₁.steps = r.steps ++ [s]) ∨
      ((∀ s, c.Describes s → s.Valid → s.id ∈ r.ids) ∧
        (∃ e, r.attempt c = .error e ∧ e.step = c.id) ∧ r.after c = r)) ∧
    r.ids = r.steps.map Step.id ∧ r.ids.Nodup ∧
    (∀ id, r.find? id = r.steps.find? fun s => s.id = id) ∧
    (∀ id, r.contains id = (r.find? id).isSome) ∧
    ∃ news, r'.steps = r.steps ++ news ∧
      (∀ id, r'.find? id = (r.find? id).or (news.find? fun s => s.id = id)) ∧
      ∀ f, chosen? f.ids = none → ∃ earlier, r.select f = .ok earlier ∧
        r'.select f = .ok (earlier ++ news.filter f.accepts) := by
  intro r r'
  obtain ⟨news, hnews⟩ := r.steps_afterAll more
  refine ⟨fun ss => ⟨steps_eq_of_accepted, ?_⟩, r.attempt_cases, rfl, r.nodup_ids, r.find?_eq,
    r.contains_eq, news, hnews, fun id => ?_, fun f hf => ?_⟩
  · rintro rfl
    exact accepted_afterAll cs
  · rw [find?_eq, find?_eq, hnews, List.find?_append]
  · refine ⟨_, r.select_of_no_ids hf, ?_⟩
    rw [r'.select_of_no_ids hf, hnews, List.filter_append]

example : ((∅ : Registry Unit).afterAll
    [.step ⟨"lint", "Lint", "", .style, .low, ∅, ()⟩,
      .manifest { id := "scan", name := "Scan", category := " Security ", severity := "HIGH" } (),
      .manifest { id := "lint", name := "Lint", category := "style", severity := "low" } (),
      .step ⟨"scan ", "Scan", "", .security, .high, ∅, ()⟩]).ids = ["lint", "scan"] := by
  decide

end Registry

end CodeReview
