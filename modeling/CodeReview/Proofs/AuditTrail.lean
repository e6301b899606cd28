import CodeReview.Proofs.Conduct
import CodeReview.Proofs.History

/-!
# The history as an audit trail

Over any files, and whether or not calls on them crash, the operations of a change manager either add
records behind the history or, in the case of an undo, turn the latest applied record into an undone
one.  The first kind is the preorder `Appends`, within which all operations but the undo and the reset
stay; the undo has its own law (`undo_ends`).  Along both, the undo stack lists the places of the
applied records and every record has what its status calls for (`Audited`).  The main theorem is
`history_is_audit_trail`.
-/

namespace CodeReview

/-- Whether a record has what its status calls for: the backup and its digest of a change that was
carried out, the error of one that failed, and nothing of one that was declined. -/
def ChangeRecord.Sound (r : ChangeRecord) : Prop :=
  match r.status with
  | .applied | .undone => r.backup.isSome ∧ r.digest.isSome ∧ r.error = none
  | .failed => r.error.isSome
  | .rejected => r.backup = none ∧ r.digest = none ∧ r.error = none

namespace Manager

variable {σ : Type}

theorem sound_appliedRecord (id : String) (q : ChangeRequest) (b : BackupEntry) :
    (appliedRecord id q b).Sound :=
  ⟨rfl, rfl, rfl⟩

theorem sound_failedRecord (id : String) (q : ChangeRequest) (e : ChangeError)
    (b : Option BackupEntry) : (failedRecord id q e b).Sound :=
  rfl

theorem sound_undoneRecord {r : ChangeRecord} (h : r.Sound) (hr : r.status = .applied) :
    (undoneRecord r).Sound := by
  unfold ChangeRecord.Sound at h
  rw [hr] at h
  exact h

theorem mem_appliedPlaces {h : List ChangeRecord} {i : Nat} :
    i ∈ appliedPlaces h ↔ ∃ r, h[i]? = some r ∧ r.status = .applied := by
  simp [appliedPlaces, List.mem_zipIdx_iff_getElem?]

theorem appliedPlaces_increasing (h : List ChangeRecord) : (appliedPlaces h).Pairwise (· < ·) := by
  have hall : (h.zipIdx.map Prod.snd).Pairwise (· < ·) := by
    rw [List.zipIdx_map_snd]
    exact List.pairwise_lt_range'
  exact hall.sublist (List.filter_sublist.map Prod.snd)

/-! ## Adding records -/

/-- Two managers with the same history and undo stack. -/
structure SameBooks (m m' : Manager σ) : Prop where
  history : m'.history = m.history
  stack : m'.undoStack = m.undoStack

instance : IsPreorder (Manager σ) SameBooks where
  refl _ := ⟨rfl, rfl⟩
  trans _ _ _ h h' := ⟨h'.history.trans h.history, h'.stack.trans h.stack⟩

theorem sameBooks_blind : VaultBlind (@SameBooks σ) :=
  fun _ _ => ⟨rfl, rfl⟩

/-- The records of one manager are followed by sound ones in the other, and the undo stack keeps up. -/
structure Appends (m m' : Manager σ) : Prop where
  records : ∃ rs, m'.history = m.history ++ rs ∧ ∀ r ∈ rs, r.Sound
  stack : m.undoStack = appliedPlaces m.history → m'.undoStack = appliedPlaces m'.history

theorem SameBooks.appends {m m' : Manager σ} (hsame : SameBooks m m') : Appends m m' := by
  refine ⟨⟨[], by simp [hsame.history], fun r hr => by cases hr⟩, ?_⟩
  intro h
  rw [hsame.stack, hsame.history, h]

/-- A record that is not applied leaves the undo stack as it is. -/
theorem Appends.of_push {m m' : Manager σ} {r : ChangeRecord} (hr : r.Sound)
    (hstatus : r.status ≠ .applied) (hhistory : m'.history = m.history ++ [r])
    (hstack : m'.undoStack = m.undoStack) : Appends m m' := by
  refine ⟨⟨[r], hhistory, ?_⟩, ?_⟩
  · intro s hs
    rwa [List.mem_singleton.1 hs]
  · intro h
    rw [hstack, hhistory, h]
    refine (appliedPlaces_of_none ?_).symm
    intro s hs
    rwa [List.mem_singleton.1 hs]

theorem Appends.trans {m m' m'' : Manager σ} (h : Appends m m') (h' : Appends m' m'') :
    Appends m m'' := by
  obtain ⟨rs, hrs, hsound⟩ := h.records
  obtain ⟨rs', hrs', hsound'⟩ := h'.records
  refine ⟨⟨rs ++ rs', by rw [hrs', hrs, List.append_assoc], ?_⟩, fun hm => h'.stack (h.stack hm)⟩
  intro r hr
  rcases List.mem_append.1 hr with hr | hr
  · exact hsound r hr
  · exact hsound' r hr

instance : IsPreorder (Manager σ) Appends where
  refl m := (refl_of SameBooks m).appends
  trans _ _ _ := Appends.trans

/-- Operations add records: failed ones, and applied ones with their places on the undo stack. -/
theorem conduct_appends : Conduct (@Appends σ) where
  vault _ _ := SameBooks.appends ⟨rfl, rfl⟩
  failed m q e b := by
    unfold noteFailed
    split
    · exact SameBooks.appends ⟨rfl, rfl⟩
    · exact .of_push (sound_failedRecord (m.recordId m.issued) q e b) (fun h => by cases h) rfl rfl
  applied m q b := by
    refine ⟨⟨[appliedRecord (m.recordId m.issued) q b], rfl, ?_⟩, ?_⟩
    · intro r hr
      rw [List.mem_singleton.1 hr]
      exact sound_appliedRecord _ q b
    · intro h
      have hnone : ∀ s ∈ ([] : List ChangeRecord), s.status ≠ .applied := fun s hs => by cases hs
      change m.undoStack ++ [m.history.length] =
        appliedPlaces (m.history ++ [appliedRecord (m.recordId m.issued) q b])
      rw [h, appliedPlaces_of_latest rfl hnone]

theorem reject_appends (q : ChangeRequest) : (reject q : Attempt (Manager σ) _).Within Appends := by
  intro m
  refine Attempt.ends_of_ok rfl ?_
  exact .of_push (r := ChangeRecord.ofRequest (m.recordId m.issued) q .rejected) ⟨rfl, rfl, rfl⟩
    (fun h => by cases h) rfl rfl

/-! ## Undoing -/

/-- The latest applied record of one history is an undone one in the other, and nothing else differs. -/
def TakesBack (h h' : List ChangeRecord) : Prop :=
  ∃ front r back, h = front ++ r :: back ∧ r.status = .applied ∧
    (∀ s ∈ back, s.status ≠ .applied) ∧ h' = front ++ undoneRecord r :: back

/-- The undo stack lists the applied records, and every record has what its status calls for. -/
structure Audited (m : Manager σ) : Prop where
  stack : m.undoStack = appliedPlaces m.history
  sound : ∀ r ∈ m.history, r.Sound

theorem Appends.audited {m m' : Manager σ} (h : Appends m m') (hm : Audited m) : Audited m' := by
  obtain ⟨rs, hrs, hsound⟩ := h.records
  refine ⟨h.stack hm.stack, ?_⟩
  intro r hr
  rw [hrs] at hr
  rcases List.mem_append.1 hr with hold | hnew
  · exact hm.sound r hold
  · exact hsound r hnew

theorem Appends.isPrefix {m m' : Manager σ} (h : Appends m m') : m.history <+: m'.history := by
  obtain ⟨rs, hrs, -⟩ := h.records
  exact ⟨rs, hrs.symm⟩

/-- Marking the change that an undo selects takes the latest applied record back. -/
theorem marking_of_selected {m : Manager σ} (hm : Audited m) {i : Nat} {r : ChangeRecord}
    (hselect : m.selectUndo? = some (i, r)) :
    Audited (m.marking i r) ∧ TakesBack m.history (m.marking i r).history := by
  rcases selectUndo?_cases hm.stack with ⟨-, hnone⟩ | ⟨front, s, back, hsplit, hs, hback, hsome⟩
  · rw [hnone] at hselect
    cases hselect
  · rw [hsome] at hselect
    obtain ⟨rfl, rfl⟩ := Prod.mk.inj (Option.some.inj hselect)
    have hmarked : (m.marking front.length s).history = front ++ undoneRecord s :: back := by
      simp [marking, hsplit]
    have hunapplied : ∀ x ∈ undoneRecord s :: back, x.status ≠ .applied :=
      List.forall_mem_cons.2 ⟨(fun h => by cases h), hback⟩
    refine ⟨⟨?_, ?_⟩, front, s, back, hsplit, hs, hback, hmarked⟩
    · rw [hmarked, appliedPlaces_of_none hunapplied]
      simp only [marking, hm.stack, hsplit, appliedPlaces_of_latest hs hback, eraseLast_concat]
    · intro x hx
      rw [hmarked] at hx
      have hold : ∀ y ∈ front ++ s :: back, y.Sound := hsplit ▸ hm.sound
      rcases List.mem_append.1 hx with hx | hx
      · exact hold x (List.mem_append_left _ hx)
      · rcases List.mem_cons.1 hx with rfl | hx
        · exact sound_undoneRecord (hold s (by simp)) hs
        · exact hold x (List.mem_append_right _ (List.mem_cons_of_mem _ hx))

section

variable [FileAccess σ]

/-- What an undo does to an audited manager: no more than reading and writing files, or after that it
notes the change that it selected as undone. -/
theorem ends_undo {R : Manager σ → Manager σ → Prop} [IsPreorder (Manager σ) R] (h : Lenient R)
    (hbooks : ∀ {m k : Manager σ}, R m k → SameBooks m k) {m : Manager σ} (hm : Audited m) :
    (undo : Attempt (Manager σ) _).Ends m
      (fun _ m' => R m m' ∨ ∃ k i r b, R m k ∧ Audited k ∧ k.selectUndo? = some (i, r) ∧
        m' = ((k.marking i r).counting .changesUndone).reporting (.changeUndone r.file b))
      (R m) := by
  apply Attempt.Ends.bind
  apply Attempt.ends_of_ok (Attempt.get_run m)
  cases hselect : m.selectUndo? with
  | none => exact Attempt.ends_pure (Or.inl (refl_of R m))
  | some choice =>
    obtain ⟨i, r⟩ := choice
    apply Attempt.Ends.bind
    refine (restoreFrom_within h r m).mono ?_ fun k hk => hk
    intro answer k hk
    cases answer with
    | error e => exact Attempt.ends_pure (Or.inl hk)
    | ok backup =>
      have hselect' : k.selectUndo? = some (i, r) := by
        rw [selectUndo?_eq_some, (hbooks hk).history, (hbooks hk).stack]
        exact selectUndo?_eq_some.1 hselect
      apply Attempt.Ends.bind
      apply Attempt.ends_of_ok (commitUndo_run backup (selectUndo?_eq_some.1 hselect').2)
      exact Attempt.ends_pure
        (Or.inr ⟨k, i, r, backup, hk, (hbooks hk).appends.audited hm, hselect', rfl⟩)

/-- What an undo makes of an audited manager: the same history, or one whose latest change was taken
back. -/
def Undid (m m' : Manager σ) : Prop :=
  Audited m' ∧ (m.history <+: m'.history ∨ TakesBack m.history m'.history)

theorem undo_ends {m : Manager σ} (hm : Audited m) :
    (undo : Attempt (Manager σ) _).Ends m (fun _ m' => Undid m m') (Undid m) := by
  have hsame : ∀ {k : Manager σ}, SameBooks m k → Undid m k := by
    intro k hk
    exact ⟨hk.appends.audited hm, Or.inl hk.appends.isPrefix⟩
  refine (ends_undo sameBooks_blind.files.lenient id hm).mono ?_ fun _ hk => hsame hk
  rintro - m' (hk | ⟨k, i, r, b, hk, haudited, hselect, rfl⟩)
  · exact hsame hk
  · obtain ⟨hmarked, htaken⟩ := marking_of_selected haudited hselect
    rw [hk.history] at htaken
    exact ⟨⟨hmarked.stack, hmarked.sound⟩, Or.inr htaken⟩

end

/-! ## Operations one after another -/

/-- The operations of a change manager, and what others do to its files meanwhile. -/
inductive Operation (σ : Type) where
  | apply (q : ChangeRequest)
  | applyPending
  | undo
  | reject (q : ChangeRequest)
  | backUp (file : Path)
  | restoreLatest (file : Path)
  | addPending (q : ChangeRequest)
  | clearPending
  | reset
  | meanwhile (f : σ → σ)

variable [FileAccess σ]

namespace Operation

/-- The manager after an operation, whether it answered or crashed. -/
def after : Operation σ → Manager σ → Manager σ
  | apply q => (Manager.apply q).endState
  | applyPending => Manager.applyPending.endState
  | undo => Manager.undo.endState
  | reject q => (Manager.reject q).endState
  | backUp file => (Manager.backUp file).endState
  | restoreLatest file => (Manager.restoreLatest file).endState
  | addPending q => (Manager.addPending q).endState
  | clearPending => Manager.clearPending.endState
  | reset => Manager.reset
  | meanwhile f => fun m => { m with vault := { m.vault with files := f m.vault.files } }

def afterAll (os : List (Operation σ)) (m : Manager σ) : Manager σ :=
  os.foldl (fun m o => o.after m) m

/-- A relation that allows the conduct of operations, another batch and a record of a declined change
relates a manager to what an operation makes of it, but for the undo and the reset. -/
theorem after_within {R : Manager σ → Manager σ → Prop} [IsPreorder (Manager σ) R] (h : Conduct R)
    (hpending : ∀ (m : Manager σ) pending, R m { m with pending := pending })
    (hreject : ∀ q, (Manager.reject q : Attempt (Manager σ) _).Within R) (o : Operation σ)
    (hundo : o ≠ .undo) (hreset : o ≠ .reset) (m : Manager σ) : R m (o.after m) := by
  cases o with
  | apply q => exact (h.apply q m).endState
  | applyPending =>
    have htake : (takePending : Attempt (Manager σ) _).Within R :=
      fun k => Attempt.ends_of_ok rfl (hpending k [])
    exact (htake.bind h.inBatch m).endState
  | undo => exact absurd rfl hundo
  | reject q => exact (hreject q m).endState
  | backUp file => exact (backUp_within h.vault file m).endState
  | restoreLatest file => exact (restoreLatest_within h.vault.files.lenient file m).endState
  | addPending q =>
    simp only [after, Manager.addPending]
    cases q.validate with
    | error e => exact refl_of R m
    | ok _ => exact hpending m _
  | clearPending => exact hpending m []
  | reset => exact absurd rfl hreset
  | meanwhile f => exact h.vault m _

theorem after_appends (o : Operation σ) (hundo : o ≠ .undo) (hreset : o ≠ .reset)
    (m : Manager σ) : Appends m (o.after m) :=
  after_within conduct_appends (fun _ _ => SameBooks.appends ⟨rfl, rfl⟩) reject_appends o hundo hreset
    m

/-- An operation adds records, or it is the undo and takes the latest applied one back. -/
theorem after_cases (o : Operation σ) (hreset : o ≠ .reset) {m : Manager σ} (hm : Audited m) :
    Audited (o.after m) ∧ (m.history <+: (o.after m).history ∨
      o = .undo ∧ TakesBack m.history (o.after m).history) := by
  by_cases hundo : o = .undo
  · subst hundo
    obtain ⟨haudited, hcase⟩ := (undo_ends hm).endState
    exact ⟨haudited, hcase.imp_right fun htaken => ⟨rfl, htaken⟩⟩
  · have happends := o.after_appends hundo hreset m
    exact ⟨happends.audited hm, Or.inl happends.isPrefix⟩

theorem audited_after (o : Operation σ) {m : Manager σ} (hm : Audited m) :
    Audited (o.after m) := by
  by_cases hreset : o = .reset
  · subst hreset
    exact ⟨rfl, fun r hr => by cases hr⟩
  · exact (o.after_cases hreset hm).1

theorem audited_afterAll (os : List (Operation σ)) {m : Manager σ} (hm : Audited m) :
    Audited (afterAll os m) := by
  induction os generalizing m with
  | nil => exact hm
  | cons o os ih => exact ih (o.audited_after hm)

end Operation

/-! ## The life of a record -/

/-- Every record of one history stands in the other as it was, unless it was applied and is undone. -/
def Preserves (h h' : List ChangeRecord) : Prop :=
  ∀ (i : Nat) (r : ChangeRecord), h[i]? = some r →
    h'[i]? = some r ∨ r.status = .applied ∧ h'[i]? = some (undoneRecord r)

omit [FileAccess σ] in
theorem preserves_of_isPrefix {h h' : List ChangeRecord} (hfront : h <+: h') :
    Preserves h h' := by
  obtain ⟨rs, rfl⟩ := hfront
  intro i r hr
  obtain ⟨hi, -⟩ := List.getElem?_eq_some_iff.1 hr
  have hsame : (h ++ rs)[i]? = h[i]? := List.getElem?_append_left hi
  rw [← hsame] at hr
  exact Or.inl hr

theorem TakesBack.preserves {h h' : List ChangeRecord} (htaken : TakesBack h h') :
    Preserves h h' := by
  obtain ⟨front, s, back, rfl, hs, -, rfl⟩ := htaken
  intro i r hr
  rcases Nat.lt_trichotomy i front.length with hlt | rfl | hgt
  · rw [List.getElem?_append_left hlt] at hr ⊢
    exact Or.inl hr
  · simp only [List.getElem?_append_right (Nat.le_refl _), Nat.sub_self,
      List.getElem?_cons_zero, Option.some.injEq] at hr ⊢
    subst hr
    exact Or.inr ⟨hs, rfl⟩
  · obtain ⟨k, hk⟩ : ∃ k, i - front.length = k + 1 := ⟨i - front.length - 1, by omega⟩
    rw [List.getElem?_append_right (Nat.le_of_lt hgt), hk, List.getElem?_cons_succ] at hr ⊢
    exact Or.inl hr

/-- An undone record is not applied, so it is not undone again. -/
theorem Preserves.trans {h h' h'' : List ChangeRecord} (hfirst : Preserves h h')
    (hsecond : Preserves h' h'') : Preserves h h'' := by
  intro i r hr
  rcases hfirst i r hr with hsame | ⟨hr', hundone⟩
  · exact hsecond i r hsame
  · rcases hsecond i _ hundone with hsame | ⟨happlied, -⟩
    · exact Or.inr ⟨hr', hsame⟩
    · cases happlied

theorem preserves_afterAll {os : List (Operation σ)} (hos : .reset ∉ os) {m : Manager σ}
    (hm : Audited m) : Preserves m.history (Operation.afterAll os m).history := by
  induction os generalizing m with
  | nil => exact preserves_of_isPrefix List.prefix_rfl
  | cons o os ih =>
    obtain ⟨hhead, htail⟩ := not_or.1 (mt List.mem_cons.2 hos)
    obtain ⟨haudited, hcase⟩ := o.after_cases (Ne.symm hhead) hm
    refine Preserves.trans ?_ (ih htail haudited)
    rcases hcase with hfront | ⟨-, htaken⟩
    · exact preserves_of_isPrefix hfront
    · exact htaken.preserves

/-! ## The main theorem -/

/-- After any operations on a new manager, whatever calls on its files answer or where they crash:
the undo stack lists the places of the applied records in ascending order; every record has what its
status calls for; the next operation that is no reset leaves the history in place and adds behind
it, unless it is an undo that takes the latest applied record back; and however many such operations
follow, a record changes at most from applied to undone. -/
theorem history_is_audit_trail (config : ChangeConfig) (stamp recordId : Nat → String)
    (telemetry : Telemetry) (files : σ) (os : List (Operation σ)) :
    let m := Operation.afterAll os (new config stamp telemetry files recordId)
    (m.undoStack.Pairwise (· < ·) ∧
      ∀ i, i ∈ m.undoStack ↔ ∃ r, m.history[i]? = some r ∧ r.status = .applied) ∧
    (∀ r ∈ m.history, r.Sound) ∧
    (∀ o : Operation σ, o ≠ .reset → m.history <+: (o.after m).history ∨
      o = .undo ∧ TakesBack m.history (o.after m).history) ∧
    ∀ os' : List (Operation σ), .reset ∉ os' →
      Preserves m.history (Operation.afterAll os' m).history := by
  intro m
  have hnew : Audited (new config stamp telemetry files recordId) := ⟨rfl, fun r hr => by cases hr⟩
  have hm : Audited m := Operation.audited_afterAll os hnew
  refine ⟨⟨?_, ?_⟩, hm.sound, ?_, ?_⟩
  · rw [hm.stack]
    exact appliedPlaces_increasing m.history
  · intro i
    rw [hm.stack]
    exact mem_appliedPlaces
  · intro o ho
    exact (o.after_cases ho hm).2
  · intro os' hos
    exact preserves_afterAll hos hm

end Manager

end CodeReview
