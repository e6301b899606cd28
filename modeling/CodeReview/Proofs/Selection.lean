import CodeReview.Proofs.Acceptance

/-!
# What a filter chooses

A filter that gives names chooses the steps of these names and heeds nothing else; the first name that
no step has is an error (`findAll_eq_ok`, `findAll_eq_error`).  Any other filter chooses the steps that
meet each of its choices (`StepFilter.accepts_iff`).  A choice that is absent or empty is met by every
step, so an empty choice chooses more than one with members.  Apart from that a filter that asks for
less chooses more (`select_narrows`).
-/

namespace CodeReview

variable {ε : Type}

/-! ## Choices -/

section Choices

variable {α : Type} {choice other : Option (List α)} {fits : α → Prop}

theorem chosen?_eq_none_iff : chosen? choice = none ↔ choice = none ∨ choice = some [] := by
  rcases choice with _ | _ | ⟨a, as⟩ <;> simp [chosen?]

theorem chosen?_eq_some_iff {as : List α} :
    chosen? choice = some as ↔ choice = some as ∧ as ≠ [] := by
  rcases choice with _ | _ | ⟨b, bs⟩
  · simp [chosen?]
  · simp +contextual [chosen?, eq_comm]
  · have hne : b :: bs = as → as ≠ [] := fun h => h ▸ List.cons_ne_nil b bs
    simpa [chosen?] using hne

/-- Whether a choice is met: there is none, or one of its members fits. -/
inductive Meets (choice : Option (List α)) (fits : α → Prop) : Prop
  | absent (h : choice = none)
  | empty (h : choice = some [])
  | member {as : List α} {a : α} (h : choice = some as) (hmem : a ∈ as) (hfits : fits a)

theorem allows_iff {test : List α → Bool} (htest : ∀ as, test as = true ↔ ∃ a ∈ as, fits a) :
    allows choice test = true ↔ Meets choice fits := by
  unfold allows
  cases h : chosen? choice with
  | none =>
    rcases chosen?_eq_none_iff.1 h with habsent | hempty
    · exact iff_of_true rfl (.absent habsent)
    · exact iff_of_true rfl (.empty hempty)
  | some as =>
    obtain ⟨hgiven, hne⟩ := chosen?_eq_some_iff.1 h
    rw [htest]
    constructor
    · rintro ⟨a, ha, hfits⟩
      exact .member hgiven ha hfits
    · rintro (habsent | hempty | ⟨hmember, ha, hfits⟩)
      · cases hgiven.symm.trans habsent
      · exact absurd (Option.some.inj (hgiven.symm.trans hempty)) hne
      · cases hgiven.symm.trans hmember
        exact ⟨_, ha, hfits⟩

/-- How a choice asks for no less than another: it is the same, it is new, or it is not empty and has
fewer members. -/
inductive Narrower (choice other : Option (List α)) : Prop
  | same (h : choice = other)
  | added (h : other = none ∨ other = some [])
  | fewer {as bs : List α} (h : choice = some as) (hne : as ≠ []) (hother : other = some bs)
    (hsub : ∀ a ∈ as, a ∈ bs)

theorem Narrower.meets (h : Narrower choice other) (hmeets : Meets choice fits) :
    Meets other fits := by
  cases h with
  | same h => exact h ▸ hmeets
  | added h =>
    rcases h with habsent | hempty
    · exact .absent habsent
    · exact .empty hempty
  | fewer h hne hother hsub =>
    rcases hmeets with habsent | hempty | ⟨hmember, ha, hfits⟩
    · cases h.symm.trans habsent
    · exact absurd (Option.some.inj (h.symm.trans hempty)) hne
    · cases h.symm.trans hmember
      exact .member hother (hsub _ ha) hfits

end Choices

/-! ## Filters without names -/

/-- Whether a step meets every choice of a filter. -/
structure StepFilter.Wants (f : StepFilter) (s : Step ε) : Prop where
  category : Meets f.categories (· = s.category)
  severity : Meets f.severities (· = s.severity)
  tags : Meets f.tags (· ∈ s.tags.keys)

/-- How a filter asks for no less than another one with the same names. -/
structure StepFilter.Narrows (f g : StepFilter) : Prop where
  ids : f.ids = g.ids
  categories : Narrower f.categories g.categories
  severities : Narrower f.severities g.severities
  tags : Narrower f.tags g.tags

theorem Step.hasAnyTag_iff {s : Step ε} {wanted : List String} :
    s.hasAnyTag wanted = true ↔ ∃ tag ∈ wanted, tag ∈ s.tags.keys := by
  have hcontains : ∀ tag, s.tags.contains tag = true ↔ tag ∈ s.tags.keys := by
    intro tag
    simp [OrderedMap.contains_iff, key_text_inj]
  simp [hasAnyTag, hcontains]

namespace StepFilter

variable {f g : StepFilter}

theorem accepts_iff {s : Step ε} : f.accepts s = true ↔ f.Wants s := by
  have hcategory : allows f.categories (fun cs => cs.contains s.category) = true ↔
      Meets f.categories (· = s.category) := allows_iff (by simp)
  have hseverity : allows f.severities (fun ss => ss.contains s.severity) = true ↔
      Meets f.severities (· = s.severity) := allows_iff (by simp)
  have htags : allows f.tags s.hasAnyTag = true ↔ Meets f.tags (· ∈ s.tags.keys) :=
    allows_iff fun _ => Step.hasAnyTag_iff
  rw [accepts, Bool.and_eq_true, Bool.and_eq_true, hcategory, hseverity, htags]
  exact ⟨fun h => ⟨h.1.1, h.1.2, h.2⟩, fun h => ⟨⟨h.category, h.severity⟩, h.tags⟩⟩

theorem Narrows.wants (h : f.Narrows g) {s : Step ε} (hwants : f.Wants s) : g.Wants s :=
  ⟨h.categories.meets hwants.category, h.severities.meets hwants.severity,
    h.tags.meets hwants.tags⟩

end StepFilter

namespace Registry

variable {r : Registry ε} {f g : StepFilter} {ids : List String}

/-! ## Names -/

/-- Names that are all taken find their steps, in the order of the names. -/
theorem findAll_eq_ok (h : ∀ id ∈ ids, id ∈ r.ids) :
    ∃ found, r.findAll ids = .ok found ∧
      List.Forall₂ (fun id s => s ∈ r.steps ∧ s.id = id) ids found := by
  induction ids with
  | nil => exact ⟨[], rfl, .nil⟩
  | cons id ids ih =>
    obtain ⟨hid, hids⟩ := List.forall_mem_cons.1 h
    obtain ⟨found, hfound, hall⟩ := ih hids
    obtain ⟨s, hs, rfl⟩ := List.mem_map.1 hid
    have hfind : r.find? s.id = some s := find?_eq_some_iff.2 ⟨hs, rfl⟩
    exact ⟨s :: found, by rw [findAll, hfind, hfound], .cons ⟨hs, rfl⟩ hall⟩

/-- The first name that is not taken is the error. -/
theorem findAll_eq_error {known rest : List String} {id : String} (hknown : ∀ k ∈ known, k ∈ r.ids)
    (hid : id ∉ r.ids) : r.findAll (known ++ id :: rest) = .error (.unknown id) := by
  induction known with
  | nil =>
    have hfind : r.find? id = none := by
      rw [← Option.not_isSome_iff_eq_none, ← contains_eq, contains_iff]
      exact hid
    rw [List.nil_append, findAll, hfind]
  | cons k known ih =>
    obtain ⟨hk, hrest⟩ := List.forall_mem_cons.1 hknown
    obtain ⟨s, hs, rfl⟩ := List.mem_map.1 hk
    have hfind : r.find? s.id = some s := find?_eq_some_iff.2 ⟨hs, rfl⟩
    rw [List.cons_append, findAll, hfind, ih hrest]

theorem select_of_ids (h : f.ids = some ids) (hne : ids ≠ []) : r.select f = r.findAll ids := by
  rw [select, chosen?_eq_some_iff.2 ⟨h, hne⟩]

/-! ## Filters that ask for less -/

/-- A filter that asks for no less chooses no more, in the same order. -/
theorem select_narrows (h : f.Narrows g) {more : List (Step ε)} (hmore : r.select g = .ok more) :
    ∃ fewer, r.select f = .ok fewer ∧ fewer.Sublist more := by
  cases hids : chosen? g.ids with
  | some ids =>
    refine ⟨more, ?_, List.Sublist.refl more⟩
    rw [← hmore, select, select, h.ids, hids]
  | none =>
    rw [r.select_of_no_ids hids] at hmore
    obtain rfl := Except.ok.inj hmore
    refine ⟨_, r.select_of_no_ids (h.ids ▸ hids), List.monotone_filter_right _ fun s hs => ?_⟩
    exact StepFilter.accepts_iff.2 (h.wants (StepFilter.accepts_iff.1 hs))

/-- What a filter chooses from the steps that any calls bring in.  If it gives names, it chooses the
steps of these names in their order, as often as they are given, and the error is the first name that
no step has; the rest of the filter does not count.  If it gives none, it chooses the steps that meet
all its choices, each once and in the order of the calls.  A filter that asks for no less, by a new
choice or by fewer members of one, chooses a part of that. -/
theorem select_chooses (cs : List (Registration ε)) :
    let r := (∅ : Registry ε).afterAll cs
    ∃ ss, (∀ ss', Accepted cs ss' ↔ ss' = ss) ∧ ∀ f : StepFilter,
      (∀ ids, f.ids = some ids → ids ≠ [] →
        ((∀ id ∈ ids, id ∈ ss.map Step.id) → ∃ chosen, r.select f = .ok chosen ∧
          List.Forall₂ (fun id s => s ∈ ss ∧ s.id = id) ids chosen) ∧
        ∀ known id rest, ids = known ++ id :: rest → (∀ k ∈ known, k ∈ ss.map Step.id) →
          id ∉ ss.map Step.id → r.select f = .error (.unknown id)) ∧
      (f.ids = none ∨ f.ids = some [] → ∃ chosen, r.select f = .ok chosen ∧ chosen.Sublist ss ∧
        (chosen.map Step.id).Nodup ∧ ∀ s, s ∈ chosen ↔ s ∈ ss ∧ f.Wants s) ∧
      ∀ g more, f.Narrows g → r.select g = .ok more →
        ∃ fewer, r.select f = .ok fewer ∧ fewer.Sublist more := by
  intro r
  refine ⟨r.steps, fun ss' => ⟨fun h => (steps_eq_of_accepted h).symm, ?_⟩, fun f =>
    ⟨fun ids hids hne => ?_, fun hnone => ?_, fun _ _ hnarrows hmore =>
      select_narrows hnarrows hmore⟩⟩
  · rintro rfl
    exact accepted_afterAll cs
  · rw [select_of_ids hids hne]
    refine ⟨findAll_eq_ok, ?_⟩
    rintro known id rest rfl
    exact findAll_eq_error
  · have hsublist : (r.steps.filter f.accepts).Sublist r.steps := List.filter_sublist
    refine ⟨_, r.select_of_no_ids (chosen?_eq_none_iff.2 hnone), hsublist, ?_, fun s => ?_⟩
    · exact r.nodup_ids.sublist (hsublist.map Step.id)
    · rw [List.mem_filter, StepFilter.accepts_iff]

/-- Calls that bring in three steps, and one under a name that is taken. -/
def threeSteps : List (Registration Unit) :=
  [.step ⟨"lint", "Lint", "", .style, .low, OrderedSet.ofKeys ["fast", "text"], ()⟩,
    .manifest { id := "scan", name := "Scan", category := "security", severity := "high" } (),
    .step ⟨"lint", "Lint", "", .style, .high, ∅, ()⟩,
    .step ⟨"docs", "Docs", "", .documentation, .low, OrderedSet.ofKeys ["text"], ()⟩]

/-- Names with a repetition beside a choice that does not count, a name that no step has, and a tag
beside an empty choice. -/
theorem select_chooses_of_threeSteps :
    let r := (∅ : Registry Unit).afterAll threeSteps
    (∃ chosen, r.select { ids := some ["scan", "lint", "scan"], tags := some ["text"] } = .ok chosen ∧
      List.Forall₂ (fun id s => s ∈ r.steps ∧ s.id = id) ["scan", "lint", "scan"] chosen) ∧
    r.select { ids := some ["docs", "gone", "away"] } = .error (.unknown "gone") ∧
    ∃ fewer more, r.select { severities := some [], tags := some ["slow", "fast"] } = .ok fewer ∧
      r.select {} = .ok more ∧ fewer.Sublist more := by
  intro r
  obtain ⟨ss, hss, hfilters⟩ := select_chooses threeSteps
  obtain rfl : r.steps = ss := (hss _).1 (accepted_afterAll threeSteps)
  have hnames : r.steps.map Step.id = ["lint", "scan", "docs"] := by decide
  refine ⟨((hfilters _).1 _ rfl (by decide)).1 ?_, ?_, ?_⟩
  · rw [hnames]
    decide
  · refine ((hfilters _).1 _ rfl (by decide)).2 ["docs"] "gone" ["away"] rfl ?_ ?_
    · rw [hnames]
      decide
    · rw [hnames]
      decide
  · obtain ⟨more, hmore, -⟩ := (hfilters {}).2.1 (.inl rfl)
    obtain ⟨fewer, hfewer, hsublist⟩ :=
      (hfilters { severities := some [], tags := some ["slow", "fast"] }).2.2 {} more
        ⟨rfl, .same rfl, .added (.inl rfl), .added (.inl rfl)⟩ hmore
    exact ⟨fewer, more, hfewer, hmore, hsublist⟩

end Registry

end CodeReview
