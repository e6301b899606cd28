import CodeReview.Files.Fault
import CodeReview.Proofs.AuditTrail
import CodeReview.Proofs.Lookup

/-!
# The counters and the history

A change manager keeps two books.  Its history and its list of backups say what was done; the counters
and events say it again, and are written elsewhere.  From one state to another both grow by the same
amounts (`Balances`), whatever calls on files answer.  A crash between the two books is possible at one
place only: while the files of dropped backups are removed.  The drops and the change that they came
with then stay uncounted, so what is said of those two counters asks for removals that do not crash
(`RemovalsAnswer`).  The main theorem is `counters_agree_with_history`.
-/

namespace CodeReview

open Attempt (Ends)
open ChangeSummary (countOf touched)

/-! ## Counters with their events -/

namespace Telemetry

variable {cs ds : List Counter} {t t' t'' : Telemetry} {e : Event} {c : Counter}

/-- The counters `cs` went up by one, one after another, each with an event that goes with it.  Events
that go with no counter may stand between. -/
structure Counted (cs : List Counter) (t t' : Telemetry) : Prop where
  counters : ∀ c, t'.counters.get c = t.counters.get c + cs.count c
  log : ∃ es, t'.log = t.log ++ es ∧ es.filterMap (fun x => x.event.counter?) = cs

theorem Counted.of_same (hcounters : t'.counters = t.counters) (hlog : t'.log = t.log) :
    Counted [] t t' := by
  refine ⟨fun c => ?_, [], ?_, rfl⟩
  · rw [hcounters]
    rfl
  · rw [hlog, List.append_nil]

theorem Counted.trans (h : Counted cs t t') (h' : Counted ds t' t'') : Counted (cs ++ ds) t t'' := by
  obtain ⟨es, hes, hcs⟩ := h.log
  obtain ⟨es', hes', hds⟩ := h'.log
  refine ⟨fun c => ?_, es ++ es', ?_, ?_⟩
  · rw [h'.counters, h.counters, List.count_append, Nat.add_assoc]
  · rw [hes', hes, List.append_assoc]
  · rw [List.filterMap_append, hcs, hds]

/-- Counters that start at zero give the numbers of their steps. -/
theorem Counted.get_eq (h : Counted cs t t') (hzero : t.counters = {}) (c : Counter) :
    t'.counters.get c = cs.count c := by
  have hfirst : t.counters.get c = 0 := by
    rw [hzero]
    cases c <;> rfl
  rw [h.counters, hfirst, Nat.zero_add]

theorem counted_report (he : e.counter? = none) : Counted [] t (t.report e) :=
  ⟨fun _ => rfl, [⟨e, t.depth⟩], rfl, by simp [he]⟩

theorem counted_count_report (he : e.counter? = some c) : Counted [c] t ((t.count c).report e) := by
  refine ⟨fun d => ?_, [⟨e, t.depth⟩], rfl, by simp [he]⟩
  change (t.counters.increment c).get d = _
  rw [Counters.get_increment, List.count_singleton]
  simp only [beq_iff_eq]

end Telemetry

/-! ## Removals -/

/-- Removing a file never crashes. -/
def RemovalsAnswer (σ : Type) [FileAccess σ] : Prop :=
  ∀ p, (FileAccess.remove p : Attempt σ _).Answers

theorem removalsAnswer_memoryFiles : RemovalsAnswer MemoryFiles :=
  fun p s => ⟨_, _, MemoryFiles.remove_run p s⟩

theorem Vault.removeFiles_answers {σ : Type} [FileAccess σ] (h : RemovalsAnswer σ)
    (ps : List Path) : (Vault.removeFiles ps : Attempt (Vault σ) Unit).Answers := by
  have hremove : ∀ p, (Vault.removeFile p : Attempt (Vault σ) Unit).Answers := by
    intro p
    refine Attempt.Answers.bind ?_ fun removed => ?_
    · intro v
      obtain ⟨removed, files, hrun⟩ := h p v.files
      exact ⟨_, _, Vault.onFiles_of_ok hrun⟩
    · cases removed with
      | ok _ => exact fun v => ⟨_, _, rfl⟩
      | error cause =>
        simp only
        split <;> exact fun v => ⟨_, _, rfl⟩
  induction ps with
  | nil => exact fun v => ⟨_, _, rfl⟩
  | cons p ps ih => exact (hremove p).bind fun _ => ih

namespace Manager

variable {σ : Type} {m m' m'' k : Manager σ} {cs ds : List Counter} {i j : Nat}

/-! ## Telling without doing -/

/-- Nothing but the telemetry differs that the books are about, and there some counters went up. -/
structure Tells (cs : List Counter) (m m' : Manager σ) : Prop where
  config : m'.config = m.config
  books : SameBooks m m'
  entries : m'.vault.store.entries = m.vault.store.entries
  telemetry : Telemetry.Counted cs m.vault.telemetry m'.vault.telemetry

theorem Tells.trans (h : Tells cs m m') (h' : Tells ds m' m'') : Tells (cs ++ ds) m m'' :=
  ⟨h'.config.trans h.config, trans_of SameBooks h.books h'.books, h'.entries.trans h.entries,
    h.telemetry.trans h'.telemetry⟩

/-- Not even a counter differs. -/
def Quiet (m m' : Manager σ) : Prop :=
  Tells [] m m'

theorem quiet_of_same (hconfig : m'.config = m.config) (hbooks : SameBooks m m')
    (hentries : m'.vault.store.entries = m.vault.store.entries)
    (hcounters : m'.vault.telemetry.counters = m.vault.telemetry.counters)
    (hlog : m'.vault.telemetry.log = m.vault.telemetry.log) : Quiet m m' :=
  ⟨hconfig, hbooks, hentries, .of_same hcounters hlog⟩

instance : IsPreorder (Manager σ) Quiet where
  refl _ := quiet_of_same rfl ⟨rfl, rfl⟩ rfl rfl rfl
  trans _ _ _ h h' := Tells.trans h h'

theorem lenient_quiet : Lenient (@Quiet σ) where
  files _ _ := quiet_of_same rfl ⟨rfl, rfl⟩ rfl rfl rfl
  told _ _ he := ⟨rfl, ⟨rfl, rfl⟩, rfl, Telemetry.counted_report he⟩

theorem quiet_skipTo (m : Manager σ) (n : Nat) : Quiet m (m.skipTo n) :=
  quiet_of_same rfl ⟨rfl, rfl⟩ rfl rfl rfl

theorem tells_counting {e : Event} {c : Counter} (he : e.counter? = some c) (m : Manager σ) :
    Tells [c] m ((m.counting c).reporting e) :=
  ⟨rfl, ⟨rfl, rfl⟩, rfl, Telemetry.counted_count_report he⟩

/-- Deleting the files of dropped backups tells of each of them, unless a removal crashes; then it
tells of none. -/
theorem ends_discard_told [FileAccess σ] (dropped : List Path) (m : Manager σ) :
    (discard dropped).Ends m
      (fun _ m' => Tells (List.replicate dropped.length .backupsEvicted) m m')
      (fun m' => Quiet m m' ∧ ¬ RemovalsAnswer σ) := by
  have htell : ∀ (ps : List Path) (k : Manager σ),
      (ps.forM fun p => do
        count .backupsEvicted
        report (.backupEvicted p) : Attempt (Manager σ) PUnit).Ends k
        (fun _ m' => Tells (List.replicate ps.length .backupsEvicted) k m')
        (fun m' => Quiet m m' ∧ ¬ RemovalsAnswer σ) := by
    intro ps
    induction ps with
    | nil => exact fun k => Attempt.ends_pure (refl_of Quiet k)
    | cons p ps ih =>
      intro k
      apply Ends.bind
      refine Attempt.ends_of_ok (a := PUnit.unit)
        (t := (k.counting .backupsEvicted).reporting (.backupEvicted p)) rfl ?_
      exact (ih _).mono (fun _ _ h => (tells_counting rfl k).trans h) fun _ h => h
  apply Ends.bind
  refine (removeFiles_within lenient_quiet dropped m).crashed.mono ?_ ?_
  · intro _ k hk
    exact (htell dropped k).mono (fun _ _ h => Tells.trans hk h) fun _ h => h
  · rintro k ⟨hk, hcrash⟩
    refine ⟨hk, fun hanswer => hcrash fun m => ?_⟩
    obtain ⟨_, vault, hrun⟩ := Vault.removeFiles_answers hanswer dropped m.vault
    exact ⟨_, _, inVault_of_ok hrun⟩

/-! ## The balance -/

/-- How many records of a history carry a backup. -/
def withBackup (history : List ChangeRecord) : Nat :=
  history.countP fun r => r.backup.isSome

/-- What was added to the history and to the list of backups is what the counters `cs` say, and
`extra` backups were added without a record. -/
structure Tallies [FileAccess σ] (extra : Nat) (cs : List Counter) (m m' : Manager σ) : Prop where
  failed : countOf m'.history .failed = countOf m.history .failed + cs.count .changesFailed
  undone : countOf m'.history .undone = countOf m.history .undone + cs.count .changesUndone
  applied_le : m.history.countP touched + cs.count .changesApplied ≤ m'.history.countP touched
  applied : RemovalsAnswer σ →
    m'.history.countP touched = m.history.countP touched + cs.count .changesApplied
  backups : RemovalsAnswer σ →
    cs.count .backupsEvicted + m'.vault.store.entries.length + withBackup m.history =
      m.vault.store.entries.length + withBackup m'.history + extra

/-- Both books grew by the same amounts, if changes are not only tried. -/
structure Balances [FileAccess σ] (extra : Nat) (m m' : Manager σ) : Prop where
  config : m'.config = m.config
  books : m.config.dryRun = false →
    ∃ cs, Telemetry.Counted cs m.vault.telemetry m'.vault.telemetry ∧ Tallies extra cs m m'

section

variable [FileAccess σ]

theorem Tallies.trans (h : Tallies i cs m m') (h' : Tallies j ds m' m'') :
    Tallies (i + j) (cs ++ ds) m m'' := by
  refine ⟨?_, ?_, ?_, fun hanswer => ?_, fun hanswer => ?_⟩
  · rw [h'.failed, h.failed, List.count_append, Nat.add_assoc]
  · rw [h'.undone, h.undone, List.count_append, Nat.add_assoc]
  · have := h.applied_le
    have := h'.applied_le
    rw [List.count_append]
    omega
  · rw [h'.applied hanswer, h.applied hanswer, List.count_append, Nat.add_assoc]
  · have := h.backups hanswer
    have := h'.backups hanswer
    rw [List.count_append]
    omega

theorem Balances.trans (h : Balances i m m') (h' : Balances j m' m'') :
    Balances (i + j) m m'' := by
  refine ⟨h'.config.trans h.config, fun hlive => ?_⟩
  obtain ⟨cs, hcounted, htallies⟩ := h.books hlive
  obtain ⟨ds, hcounted', htallies'⟩ := h'.books (h.config ▸ hlive)
  exact ⟨cs ++ ds, hcounted.trans hcounted', htallies.trans htallies'⟩

/-- What is done first is told afterwards. -/
theorem Balances.of_tells (hdone : Tallies i cs m k) (htold : Tells cs k m')
    (hconfig : k.config = m.config) (htelemetry : k.vault.telemetry = m.vault.telemetry) :
    Balances i m m' := by
  refine ⟨htold.config.trans hconfig, fun _ => ⟨cs, htelemetry ▸ htold.telemetry, ?_⟩⟩
  refine ⟨?_, ?_, ?_, fun hanswer => ?_, fun hanswer => ?_⟩ <;> rw [htold.books.history]
  · exact hdone.failed
  · exact hdone.undone
  · exact hdone.applied_le
  · exact hdone.applied hanswer
  · rw [htold.entries]
    exact hdone.backups hanswer

theorem Balances.of_quiet (h : Quiet m m') : Balances 0 m m' := by
  have hnothing : Tallies 0 [] m m := ⟨rfl, rfl, Nat.le_refl _, fun _ => rfl, fun _ => by simp⟩
  exact .of_tells hnothing h rfl rfl

instance : IsPreorder (Manager σ) (Balances 0) where
  refl m := .of_quiet (refl_of Quiet m)
  trans _ _ _ h h' := h.trans h'

theorem lenient_balances : Lenient (@Balances σ _ 0) where
  files m files := .of_quiet (lenient_quiet.files m files)
  told m _ he := .of_quiet (lenient_quiet.told m he)

/-! ## Adding records -/

/-- One more record, and counters as it calls for them. -/
theorem Tallies.of_record {r : ChangeRecord} (hhistory : k.history = m.history ++ [r])
    (hfailed : cs.count .changesFailed = if r.status = .failed then 1 else 0)
    (hundone : cs.count .changesUndone = if r.status = .undone then 1 else 0)
    (hle : cs.count .changesApplied ≤ if touched r then 1 else 0)
    (happlied : RemovalsAnswer σ → cs.count .changesApplied = if touched r then 1 else 0)
    (hbackups : RemovalsAnswer σ → cs.count .backupsEvicted + k.vault.store.entries.length =
      m.vault.store.entries.length + if r.backup.isSome then 1 else 0) : Tallies 0 cs m k := by
  refine ⟨?_, ?_, ?_, fun hanswer => ?_, fun hanswer => ?_⟩ <;> rw [hhistory]
  · simp [countOf, hfailed]
  · simp [countOf, hundone]
  · simpa using hle
  · simp [happlied hanswer]
  · have := hbackups hanswer
    simp only [withBackup, List.countP_append, List.countP_singleton]
    omega

theorem balances_noteFailed (m : Manager σ) (q : ChangeRequest) (e : ChangeError)
    (b : Option BackupEntry) : Balances 0 m (m.noteFailed q e b) := by
  refine ⟨config_noteFailed m q e b, fun hlive => ⟨[.changesFailed], ?_, ?_⟩⟩
  · unfold noteFailed
    rw [hlive]
    exact Telemetry.counted_count_report rfl
  · refine .of_record (history_noteFailed q e b hlive) rfl rfl (Nat.le_refl _) (fun _ => rfl) ?_
    intro _
    rw [entries_noteFailed q e b hlive]
    cases b <;> simp [failedRecord]

theorem reject_balances (q : ChangeRequest) :
    (reject q : Attempt (Manager σ) _).Within (Balances 0) := by
  intro m
  let r := ChangeRecord.ofRequest (m.recordId m.issued) q .rejected
  let k : Manager σ := { m with history := m.history ++ [r], issued := m.issued + 1 }
  have hpushed : Tallies 0 [] m k :=
    .of_record (r := r) rfl rfl rfl (Nat.le_refl _) (fun _ => rfl) fun _ => Nat.zero_add _
  refine Attempt.ends_of_ok rfl (Balances.of_tells hpushed ?_ rfl rfl)
  exact lenient_quiet.told k (e := .changeRejected q.file q.line) rfl

/-! ## Adding backups -/

/-- A backup was recorded and backups were dropped: those that were dropped and those that are left
are one more than there were. -/
theorem length_sortOut_record (s : BackupStore) (b : BackupEntry) (guarded : List Path) :
    ((s.record b).sortOut guarded).1.length + ((s.record b).sortOut guarded).2.length =
      s.entries.length + 1 := by
  simpa [BackupStore.record] using ((s.record b).sortOut_perm guarded).length_eq

/-- An applied change is recorded and the backups that are too many are dropped, before either is
told. -/
theorem commit_balances (q : ChangeRequest) (b : BackupEntry) :
    (do
      let (r, dropped) ← commit q b
      discard dropped
      count .changesApplied
      report (.changeApplied q.file q.line b.backup)
      return .ok (ChangeOutcome.applied r) :
        Attempt (Manager σ) (Except ChangeError _)).Within (Balances 0) := by
  intro m
  let guarded := protectedBackups (m.noting q b).history
  let sorted := (m.vault.store.record b).sortOut guarded
  have hsorted : sorted.1.length + sorted.2.length = m.vault.store.entries.length + 1 :=
    length_sortOut_record _ b guarded
  let k := (m.noting q b).limiting guarded
  have hentries : k.vault.store.entries = sorted.2 := rfl
  let r := appliedRecord (m.recordId m.issued) q b
  apply Ends.bind
  apply Attempt.ends_of_ok (commit_run q b m)
  apply Ends.bind
  refine (ends_discard_told (sorted.1.map BackupEntry.backup) k).mono ?_ ?_
  · intro _ l hl
    rw [List.length_map] at hl
    have hdone : Tallies 0 (List.replicate sorted.1.length .backupsEvicted ++ [.changesApplied]) m
        k := by
      refine .of_record (r := r) rfl ?_ ?_ ?_ (fun _ => ?_) (fun _ => ?_)
      · simp [List.count_replicate, r, appliedRecord, ChangeRecord.ofRequest]
      · simp [List.count_replicate, r, appliedRecord, ChangeRecord.ofRequest]
      · simp [List.count_replicate, r, appliedRecord, ChangeRecord.ofRequest, touched]
      · simp [List.count_replicate, r, appliedRecord, ChangeRecord.ofRequest, touched]
      · simpa [hentries, r, appliedRecord] using hsorted
    exact Attempt.ends_of_ok rfl (.of_tells hdone (hl.trans (tells_counting rfl l)) rfl rfl)
  · rintro l ⟨hl, hcrash⟩
    have hdone : Tallies 0 [] m k :=
      .of_record (r := r) rfl rfl rfl (Nat.zero_le _) (fun h => absurd h hcrash)
        fun h => absurd h hcrash
    exact .of_tells hdone hl rfl rfl

/-- A backup that is taken on its own leaves no record. -/
theorem ends_backUp_balances (file : Path) (m : Manager σ) :
    (backUp file).Ends m
      (fun a m' => Balances (match a with
        | .ok _ => 1
        | .error _ => 0) m m')
      (Balances 0 m) := by
  apply Ends.bind
  refine (onFiles_within lenient_quiet _ m).mono ?_ fun k hk => .of_quiet hk
  intro read k hk
  cases read with
  | error cause => exact Attempt.ends_pure (.of_quiet hk)
  | ok contents =>
    apply Ends.bind
    refine (takeBackup_within lenient_quiet quiet_skipTo file contents k).mono ?_ fun l hl =>
      .of_quiet (trans_of Quiet hk hl)
    intro taken l hl
    have hquiet := trans_of Quiet hk hl
    cases taken with
    | error e => exact Attempt.ends_pure (.of_quiet hquiet)
    | ok b =>
      let guarded := protectedBackups l.history ++ [b.backup]
      let sorted := (l.vault.store.record b).sortOut guarded
      have hsorted : sorted.1.length + sorted.2.length = l.vault.store.entries.length + 1 :=
        length_sortOut_record _ b guarded
      apply Ends.bind
      apply Attempt.ends_of_ok (record_run b l)
      apply Ends.bind
      apply Attempt.ends_of_ok (Attempt.get_run _)
      apply Ends.bind
      apply Attempt.ends_of_ok (enforceLimit_run guarded _)
      let k' := (l.recording b).limiting guarded
      have hhistory : k'.history = l.history := rfl
      have hentries : k'.vault.store.entries = sorted.2 := rfl
      apply Ends.bind
      refine (ends_discard_told (sorted.1.map BackupEntry.backup) k').mono ?_ ?_
      · intro _ l' hl'
        rw [List.length_map] at hl'
        have hdone : Tallies 1 (List.replicate sorted.1.length .backupsEvicted) l k' := by
          refine ⟨?_, ?_, ?_, fun _ => ?_, fun _ => ?_⟩ <;> rw [hhistory]
          · simp [List.count_replicate]
          · simp [List.count_replicate]
          · simp [List.count_replicate]
          · simp [List.count_replicate]
          · rw [hentries, List.count_replicate_self]
            omega
        refine Attempt.ends_pure ?_
        have hbalances : Balances 1 l l' := .of_tells hdone hl' rfl rfl
        simpa using (Balances.of_quiet hquiet).trans hbalances
      · rintro l' ⟨hl', hcrash⟩
        have hdone : Tallies 0 [] l k' :=
          ⟨rfl, rfl, Nat.le_refl _, fun h => absurd h hcrash, fun h => absurd h hcrash⟩
        exact trans_of (Balances 0) (.of_quiet hquiet) (.of_tells hdone hl' rfl rfl)

/-! ## Applying requests -/

theorem refuse_balances {α : Type} (q : ChangeRequest) (e : ChangeError) (b : Option BackupEntry) :
    (refuse q e b : Attempt (Manager σ) (Except ChangeError α)).Within (Balances 0) :=
  fun m => Attempt.ends_of_ok (refuse_run q e b m) (balances_noteFailed m q e b)

theorem carryOut_balances (q : ChangeRequest) (old new : String) :
    (carryOut q old new : Attempt (Manager σ) _).Within (Balances 0) := by
  have hskip : ∀ (m : Manager σ) n, Balances 0 m (m.skipTo n) := fun m n =>
    .of_quiet (quiet_skipTo m n)
  refine (takeBackup_within lenient_balances hskip q.file old).bind fun taken => ?_
  cases taken with
  | error e => exact refuse_balances q e none
  | ok b =>
    refine (replaceText_within lenient_balances q.file old new).bind fun written => ?_
    cases written with
    | error failure => exact refuse_balances q _ _
    | ok _ => exact commit_balances q b

theorem applyValid_balances (q : ChangeRequest) :
    (applyValid q : Attempt (Manager σ) _).Within (Balances 0) := by
  refine (onFiles_within lenient_balances _).bind fun read => ?_
  cases read with
  | error cause => exact refuse_balances q _ none
  | ok old =>
    simp only
    cases Edit.replaceBlock old q.line q.expected q.suggested with
    | error cause => exact refuse_balances q _ none
    | ok new =>
      refine Attempt.within_get_bind fun m => ?_
      cases m.config.dryRun with
      | true => exact (report_within lenient_balances rfl).bind fun _ => Attempt.within_pure _
      | false => exact carryOut_balances q old new

theorem apply_balances (q : ChangeRequest) :
    (apply q : Attempt (Manager σ) _).Within (Balances 0) := by
  unfold apply
  cases q.validate with
  | error e => exact Attempt.within_pure _
  | ok _ => exact applyValid_balances q

theorem applyPending_balances :
    (applyPending : Attempt (Manager σ) BatchReport).Within (Balances 0) := by
  have hquiet : ∀ (m : Manager σ) pending telemetry,
      telemetry.counters = m.vault.telemetry.counters → telemetry.log = m.vault.telemetry.log →
        Balances 0 m { m with
          pending := pending
          vault := { m.vault with telemetry := telemetry } } :=
    fun _ _ _ hcounters hlog => .of_quiet (quiet_of_same rfl ⟨rfl, rfl⟩ rfl hcounters hlog)
  exact applyPending_within applyValid_balances (fun m => hquiet m m.pending _ rfl rfl)
    (fun m => hquiet m m.pending _ rfl rfl) (fun m _ _ _ => lenient_balances.told m rfl)
    fun m => hquiet m [] m.vault.telemetry rfl rfl

/-! ## Undoing -/

omit [FileAccess σ] in
/-- Taking a change back turns one record that was applied into an undone one. -/
theorem TakesBack.counts {h h' : List ChangeRecord} (htaken : TakesBack h h') :
    countOf h' .undone = countOf h .undone + 1 ∧ countOf h' .failed = countOf h .failed ∧
      h'.countP touched = h.countP touched ∧ withBackup h' = withBackup h := by
  obtain ⟨front, r, back, rfl, hr, -, rfl⟩ := htaken
  refine ⟨?_, ?_, ?_, ?_⟩
  · simp [countOf, undoneRecord, hr]
    omega
  · simp [countOf, undoneRecord, hr]
  · simp [touched, undoneRecord, hr]
  · simp [withBackup, undoneRecord, List.countP_cons]

theorem ends_undo_balances (hm : Audited m) :
    (undo : Attempt (Manager σ) _).Ends m (fun _ m' => Balances 0 m m') (Balances 0 m) := by
  refine (ends_undo lenient_quiet Tells.books hm).mono ?_ fun _ hk => .of_quiet hk
  rintro - m' (hk | ⟨k, i, r, b, hk, haudited, hselect, rfl⟩)
  · exact .of_quiet hk
  · obtain ⟨hundone, hfailed, htouched, hbackups⟩ :=
      (marking_of_selected haudited hselect).2.counts
    have hdone : Tallies 0 [.changesUndone] k (k.marking i r) :=
      ⟨hfailed, hundone, Nat.le_of_eq htouched.symm, fun _ => htouched, fun _ => by
        simp [marking, ← hbackups]⟩
    exact trans_of (Balances 0) (.of_quiet hk)
      (.of_tells hdone (tells_counting rfl (k.marking i r)) rfl rfl)

/-! ## Operations -/

namespace Operation

/-- The backup that an operation adds without a record. -/
def ownBackup? : Operation σ → Manager σ → Option BackupEntry
  | backUp file, m => ((Manager.backUp file).answer? m).bind Except.toOption
  | _, _ => none

/-- The backups that operations add without records, oldest first. -/
def ownBackups : List (Operation σ) → Manager σ → List BackupEntry
  | [], _ => []
  | o :: os, m => (o.ownBackup? m).toList ++ ownBackups os (o.after m)

theorem balances_after (o : Operation σ) (hreset : o ≠ .reset) (hm : Audited m) :
    Balances (o.ownBackup? m).toList.length m (o.after m) := by
  cases o with
  | apply q => exact (apply_balances q m).endState
  | applyPending => exact (applyPending_balances m).endState
  | undo => exact (ends_undo_balances hm).endState
  | reject q => exact (reject_balances q m).endState
  | backUp file =>
    have hends := ends_backUp_balances file m
    simp only [after, ownBackup?]
    cases hrun : Manager.backUp file m with
    | ok a m' =>
      rw [Attempt.endState_of_ok hrun, Attempt.answer?_of_ok hrun]
      cases a <;> exact hends.of_ok hrun
    | error e m' =>
      rw [Attempt.endState_of_error hrun]
      simpa [Attempt.answer?, hrun] using hends.of_error hrun
  | restoreLatest file => exact (restoreLatest_within lenient_balances file m).endState
  | addPending q =>
    simp only [after, Manager.addPending, ownBackup?]
    cases q.validate with
    | error e => exact refl_of (Balances 0) m
    | ok _ => exact .of_quiet (quiet_of_same rfl ⟨rfl, rfl⟩ rfl rfl rfl)
  | clearPending => exact .of_quiet (quiet_of_same rfl ⟨rfl, rfl⟩ rfl rfl rfl)
  | reset => exact absurd rfl hreset
  | meanwhile f => exact .of_quiet (quiet_of_same rfl ⟨rfl, rfl⟩ rfl rfl rfl)

theorem balances_afterAll {os : List (Operation σ)} (hos : .reset ∉ os) (hm : Audited m) :
    Balances (ownBackups os m).length m (afterAll os m) := by
  induction os generalizing m with
  | nil => exact refl_of (Balances 0) m
  | cons o os ih =>
    obtain ⟨hhead, htail⟩ := not_or.1 (mt List.mem_cons.2 hos)
    simp only [ownBackups, List.length_append]
    exact (o.balances_after (Ne.symm hhead) hm).trans (ih htail (o.audited_after hm))

end Operation

/-! ## The main theorem -/

omit [FileAccess σ] in
/-- The changes that took effect are those that still are in effect and those that are undone. -/
theorem countP_touched (h : List ChangeRecord) :
    h.countP touched = countOf h .applied + countOf h .undone := by
  induction h with
  | nil => rfl
  | cons r h ih =>
    obtain ⟨_, _, _, _, _, _, _, status, _⟩ := r
    simp only [countOf, touched, List.countP_cons] at ih ⊢
    rw [ih]
    cases status <;> simp <;> omega

omit [FileAccess σ] in
theorem affected_contains (m : Manager σ) (p : Path) :
    m.summary.affected.contains p = true ↔
      ∃ r ∈ m.history, (r.status = .applied ∨ r.status = .undone) ∧ r.file.same p = true := by
  change (OrderedSet.ofKeys ((m.history.filter touched).map ChangeRecord.file)).contains p = true ↔ _
  rw [OrderedMap.contains_ofKeys]
  simp [touched, Path.same_iff, Keyed.key, and_assoc]

/-- After any operations but resets on a manager that started with its counters at zero and does not
only try changes, over any files and wherever calls on them crash: as many failures and undos are
counted as the history has failed and undone records, and no more applied changes than it has applied
and undone ones.  If no removal of a file crashes, just as many applied changes are counted, and of
the backups that were recorded, with a change or on their own, those that are not tracked any more are
counted as evicted.  The summary gives the numbers of the history and of the batch, and the files that
were changed; and with every step of a counter an event that goes with it was reported. -/
theorem counters_agree_with_history (config : ChangeConfig) (stamp recordId : Nat → String)
    (telemetry : Telemetry) (files : σ) (os : List (Operation σ)) (hlive : config.dryRun = false)
    (hzero : telemetry.counters = {}) (hos : .reset ∉ os) :
    let start := new config stamp telemetry files recordId
    let m := Operation.afterAll os start
    let counted := m.vault.telemetry.counters
    (counted.changesFailed = countOf m.history .failed ∧
      counted.changesUndone = countOf m.history .undone ∧
      counted.changesApplied ≤ countOf m.history .applied + countOf m.history .undone) ∧
    (RemovalsAnswer σ →
      counted.changesApplied = countOf m.history .applied + countOf m.history .undone ∧
      counted.backupsEvicted + m.vault.store.entries.length =
        withBackup m.history + (Operation.ownBackups os start).length) ∧
    (m.summary.applied = countOf m.history .applied ∧
      m.summary.rejected = countOf m.history .rejected ∧
      m.summary.undone = countOf m.history .undone ∧
      m.summary.failed = countOf m.history .failed ∧
      m.summary.pending = m.pending.length ∧
      ∀ p, m.summary.affected.contains p = true ↔
        ∃ r ∈ m.history, (r.status = .applied ∨ r.status = .undone) ∧ r.file.same p = true) ∧
    ∃ es, m.vault.telemetry.log = telemetry.log ++ es ∧
      ∀ c, (es.filterMap fun x => x.event.counter?).count c = counted.get c := by
  intro start m counted
  have hstart : Audited start := ⟨rfl, fun r hr => by cases hr⟩
  have hbalances : Balances (Operation.ownBackups os start).length start m :=
    Operation.balances_afterAll hos hstart
  obtain ⟨cs, hcounted, htallies⟩ := hbalances.books hlive
  have hget : ∀ c, counted.get c = cs.count c := hcounted.get_eq hzero
  obtain ⟨es, hlog, hes⟩ := hcounted.log
  refine ⟨⟨?_, ?_, ?_⟩, fun hanswer => ⟨?_, ?_⟩, ⟨rfl, rfl, rfl, rfl, rfl, affected_contains m⟩,
    es, hlog, fun c => by rw [hes, hget]⟩
  · rw [show counted.changesFailed = _ from hget .changesFailed, htallies.failed]
    exact (Nat.zero_add _).symm
  · rw [show counted.changesUndone = _ from hget .changesUndone, htallies.undone]
    exact (Nat.zero_add _).symm
  · rw [show counted.changesApplied = _ from hget .changesApplied, ← countP_touched]
    exact Nat.le_trans (Nat.le_add_left _ _) htallies.applied_le
  · rw [show counted.changesApplied = _ from hget .changesApplied, ← countP_touched,
      htallies.applied hanswer]
    exact (Nat.zero_add _).symm
  · have hbackups := htallies.backups hanswer
    have hbefore : start.vault.store.entries.length = 0 ∧ withBackup start.history = 0 := ⟨rfl, rfl⟩
    rw [show counted.backupsEvicted = _ from hget .backupsEvicted]
    omega

end

/-- Two changes of a file; the second one makes the backup of the first go. -/
def changedTwice : Manager MemoryFiles :=
  Operation.afterAll [.apply (retouch "a" 0), .apply (retouch "a" 1)] (overTwoFiles 1)

theorem counters_agree_with_history_of_changedTwice :
    changedTwice.vault.telemetry.counters.changesApplied = 2 ∧
      changedTwice.vault.telemetry.counters.backupsEvicted +
        changedTwice.vault.store.entries.length = 2 := by
  have hbooks : countOf changedTwice.history .applied + countOf changedTwice.history .undone = 2 ∧
      withBackup changedTwice.history = 2 := by
    decide +kernel
  obtain ⟨-, hanswer, -, -⟩ :=
    counters_agree_with_history { backupDir := ⟨"backups"⟩, maxBackups := 1 } (fun _ => "s") decimal
      {} twoFiles [.apply (retouch "a" 0), .apply (retouch "a" 1)] rfl rfl (by simp)
  obtain ⟨happlied, hbackups⟩ := hanswer removalsAnswer_memoryFiles
  exact ⟨happlied.trans hbooks.1, hbackups.trans hbooks.2⟩

/-- A crash while the file of a dropped backup is removed: the change that it was dropped for took
effect, but neither is counted. -/
theorem counters_behind_history_after_crash :
    let files : FaultyFiles MemoryFiles := ⟨twoFiles, [⟨.remove, "", 0, none, .crash "stop"⟩]⟩
    let start := new { backupDir := ⟨"backups"⟩, maxBackups := 1 } (fun _ => "s") {} files
    let m := Operation.afterAll [.apply (retouch "a" 0), .apply (retouch "a" 1)] start
    start.config.dryRun = false ∧ start.vault.telemetry.counters = {} ∧
      m.vault.telemetry.counters.changesApplied = 1 ∧
      countOf m.history .applied + countOf m.history .undone = 2 ∧
      m.vault.telemetry.counters.backupsEvicted + m.vault.store.entries.length ≠
        withBackup m.history := by
  decide +kernel

end Manager

end CodeReview
