import CodeReview.Proofs.History
import CodeReview.Proofs.Outcomes
import CodeReview.Proofs.TextView

/-!
# No text is lost by applying a request

Over any files whose calls keep to the path that they name, whether or not writes fail and whatever a
failed write leaves behind, the text of the file that a request is for survives: in the file, or in
the backup that was taken of it (`apply_loses_nothing`).  The backup is written before the file is,
and it is none of the backups that are dropped when the change is noted.
-/

namespace CodeReview

open Attempt (Ends)

variable {σ : Type} [FileAccess σ] (view : TextView σ)

/-! ## Applying a request -/

namespace Manager

/-- The text at a path. -/
def textIn (m : Manager σ) (p : Path) : Option String :=
  view.text? m.vault.files p

/-- The backup that the answer to a request names. -/
def namedBackup? : Except ChangeError ChangeOutcome → Option Path
  | .ok outcome => outcome.record?.bind ChangeRecord.backup
  | .error (.applyFailed _ backup _ _) => some backup
  | .error _ => none

/-- What an answered request left of the text of its file, given the calls that were made to change
the file. -/
structure Kept (q : ChangeRequest) (m : Manager σ) (calls : List Call)
    (answer : Except ChangeError ChangeOutcome) (m' : Manager σ) : Prop where
  /-- The text is in the file, or in the backup that the answer names. -/
  held {old : String} : m.textIn view q.file = some old →
    m'.textIn view q.file = some old ∨
      ∃ b, namedBackup? answer = some b ∧ m'.textIn view b = some old
  /-- After an error without side effects nothing was called for the file. -/
  uncalled {e : ChangeError} : answer = .error e → e.hadSideEffects = false → calls = []
  /-- A change was rolled back if writing the new text failed and writing the old one succeeded. -/
  rolledBack {e : ChangeError} : answer = .error e → (e.isRolledBack = true ↔
    ∃ old new cause, m.textIn view q.file = some old ∧
      Edit.replaceBlock old q.line q.expected q.suggested = .ok new ∧
      calls = [.write q.file new (some (.error cause)), .write q.file old (some (.ok ()))])
  restored {e : ChangeError} : answer = .error e → e.isRolledBack = true →
    m'.textIn view q.file = m.textIn view q.file
  /-- A failed write left a tracked backup of the text, and the one record that was added tells it. -/
  backedUp {file b : Path} {back : Bool} {cause : FileError} :
    answer = .error (.applyFailed file b back cause) →
      ∃ old r, m.textIn view q.file = some old ∧ m'.textIn view b = some old ∧
        m'.tracks b = true ∧ m'.history = m.history ++ [r] ∧ r.status = .failed ∧
        r.file = q.file ∧ r.backup = some b ∧ r.digest = some (digestOf old)

/-- Only paths of `P` were called for, and the books are the same. -/
structure Spares (P : Path → Prop) (m k : Manager (Recorded σ)) : Prop where
  vault : Vault.Spares view P m.vault k.vault
  config : k.config = m.config
  history : k.history = m.history

instance (P : Path → Prop) : IsPreorder (Manager (Recorded σ)) (Spares view P) where
  refl m := ⟨refl_of (Vault.Spares view P) m.vault, rfl, rfl⟩
  trans _ _ _ h h' := ⟨trans_of (Vault.Spares view P) h.vault h'.vault,
    h'.config.trans h.config, h'.history.trans h.history⟩

variable {view} {P : Path → Prop} {m k : Manager (Recorded σ)}

variable (view) in
theorem ends_write (p : Path) (text : String) :
    (inVault (Vault.write p text)).Ends m
      (fun a k => Spares view (p.key = ·.key) m k ∧
        k.vault.files.callsOn p = m.vault.files.callsOn p ++ [.write p text (some a)] ∧
        (a = .ok () → k.plain.textIn view p = some text))
      (fun k => Spares view (p.key = ·.key) m k ∧ ¬ Answering σ) := by
  apply ends_inVault
  refine (Vault.ends_write view p text).mono ?_ ?_
  · intro a w h
    exact ⟨⟨h.1, rfl, rfl⟩, h.2⟩
  · intro w h
    exact ⟨⟨h.1, rfl, rfl⟩, h.2⟩

variable (view) in
theorem ends_rollBack (p : Path) (old : String) :
    (rollBack p old).Ends m
      (fun back k => Spares view (p.key = ·.key) m k ∧
        ∃ a, k.vault.files.callsOn p = m.vault.files.callsOn p ++ [.write p old (some a)] ∧
          (back = true ↔ a = .ok ()) ∧ (back = true → k.plain.textIn view p = some old))
      (fun k => Spares view (p.key = ·.key) m k ∧ ¬ Answering σ) := by
  apply Ends.bind
  refine (ends_write view p old).mono ?_ fun _ h => h
  intro a k h
  obtain ⟨hspares, hcalls, htext⟩ := h
  cases a with
  | ok _ => exact Attempt.ends_pure ⟨hspares, .ok (), hcalls, by simp, fun _ => htext rfl⟩
  | error cause =>
    have hfailed : false = true → k.plain.textIn view p = some old := fun h => by cases h
    refine Attempt.ends_of_ok rfl ⟨⟨⟨hspares.vault.files, hspares.vault.entries⟩,
      hspares.config, hspares.history⟩, .error cause, hcalls, by simp, hfailed⟩

variable (view) in
/-- What replacing a text did to the file and what it answered. -/
theorem ends_replaceText (p : Path) (old new : String) :
    (replaceText p old new).Ends m
      (fun answer k => Spares view (p.key = ·.key) m k ∧ ∀ cause back,
        answer = .error (cause, back) →
          ∃ a, k.vault.files.callsOn p = m.vault.files.callsOn p ++
              [.write p new (some (.error cause)), .write p old (some a)] ∧
            (back = true ↔ a = .ok ()) ∧ (back = true → k.plain.textIn view p = some old))
      (fun k => Spares view (p.key = ·.key) m k ∧ ¬ Answering σ) := by
  apply Ends.bind
  apply Ends.tryCatch
  refine (ends_write view p new).mono ?_ ?_
  · intro answer k h
    obtain ⟨hspares, hcalls, -⟩ := h
    cases answer with
    | ok _ => exact Attempt.ends_pure ⟨hspares, fun _ _ h => by cases h⟩
    | error cause =>
      apply Ends.bind
      refine (ends_rollBack view p old).mono ?_ ?_
      · intro back l h
        obtain ⟨hback, a, hcalls', hiff, htext⟩ := h
        refine Attempt.ends_pure ⟨trans_of (Spares view _) hspares hback, ?_⟩
        intro cause' back' heq
        cases heq
        refine ⟨a, ?_, hiff, htext⟩
        rw [hcalls', hcalls, List.append_assoc]
        rfl
      · intro l h
        exact ⟨trans_of (Spares view _) hspares h.1, h.2⟩
  · -- a crash is passed on after the old text was written back
    intro k h crash
    apply Ends.bind
    refine (ends_rollBack view p old).mono ?_ ?_
    · intro back l hback
      exact Attempt.ends_throw crash ⟨trans_of (Spares view _) h.1 hback.1, h.2⟩
    · intro l hback
      exact ⟨trans_of (Spares view _) h.1 hback.1, h.2⟩

variable (view) in
theorem ends_discard (dropped : List Path) :
    (discard dropped).Ends m
      (fun _ k => Spares view (fun x => ∃ d ∈ dropped, d.key = x.key) m k)
      (fun k => Spares view (fun x => ∃ d ∈ dropped, d.key = x.key) m k ∧ ¬ Answering σ) := by
  have hreports : ∀ (ds : List Path) (k : Manager (Recorded σ)),
      Spares view (fun x => ∃ d ∈ dropped, d.key = x.key) m k →
      (ds.forM fun d => do
        count .backupsEvicted
        report (.backupEvicted d)).Ends k
        (fun _ l => Spares view (fun x => ∃ d ∈ dropped, d.key = x.key) m l)
        (fun l => Spares view (fun x => ∃ d ∈ dropped, d.key = x.key) m l ∧ ¬ Answering σ) := by
    intro ds
    induction ds with
    | nil => exact fun k hk => Attempt.ends_pure hk
    | cons d ds ih =>
      intro k hk
      exact ih ((k.counting .backupsEvicted).reporting (.backupEvicted d))
        ⟨⟨hk.vault.files, hk.vault.entries⟩, hk.config, hk.history⟩
  apply Ends.bind
  apply ends_inVault
  refine (Vault.ends_removeFiles view dropped).mono ?_ ?_
  · intro _ w hw
    exact hreports dropped _ ⟨hw, rfl, rfl⟩
  · intro w h
    exact ⟨⟨h.1, rfl, rfl⟩, h.2⟩

variable (view) in
/-- What a crash left of the text of a file: it is in the file, or at a path that was free. -/
def Survives (p : Path) (old : String) (m m' : Manager σ) : Prop :=
  m'.textIn view p = some old ∨ ∃ b, m.textIn view b = none ∧ m'.textIn view b = some old

theorem Kept.of_untouched {q : ChangeRequest} {m m' : Manager σ} {e : ChangeError}
    (htext : m'.textIn view q.file = m.textIn view q.file) (he : e.hadSideEffects = false) :
    Kept view q m [] (.error e) m' := by
  have hback : e.isRolledBack = false := by
    cases e with
    | applyFailed => cases he
    | _ => rfl
  refine ⟨fun hold => Or.inl (htext.trans hold), fun _ _ => rfl, ?_, fun _ _ => htext, ?_⟩
  · intro e' heq
    cases heq
    rw [hback]
    refine ⟨(fun h => by cases h), ?_⟩
    rintro ⟨old, new, cause, -, -, hcalls⟩
    cases hcalls
  · intro file b back cause heq
    cases heq
    cases he

theorem Kept.of_ok {q : ChangeRequest} {m m' : Manager σ} {calls : List Call}
    {outcome : ChangeOutcome}
    (hheld : ∀ old, m.textIn view q.file = some old → m'.textIn view q.file = some old ∨
      ∃ b, namedBackup? (.ok outcome) = some b ∧ m'.textIn view b = some old) :
    Kept view q m calls (.ok outcome) m' := by
  refine ⟨hheld _, ?_, ?_, ?_, ?_⟩
  · intro e heq
    cases heq
  · intro e heq
    cases heq
  · intro e heq
    cases heq
  · intro file b back cause heq
    cases heq

theorem Kept.of_same {q : ChangeRequest} {m k m' : Manager σ} {calls : List Call}
    {answer : Except ChangeError ChangeOutcome}
    (htexts : ∀ x, k.textIn view x = m.textIn view x) (hhistory : k.history = m.history)
    (h : Kept view q k calls answer m') : Kept view q m calls answer m' := by
  refine ⟨?_, h.uncalled, ?_, ?_, ?_⟩
  · rw [← htexts]
    exact h.held
  · rw [← htexts]
    exact h.rolledBack
  · rw [← htexts]
    exact h.restored
  · rw [← htexts, ← hhistory]
    exact h.backedUp

/-- A write failed, and the old text was written back with some result. -/
theorem Kept.of_written {q : ChangeRequest} {m m' : Manager σ} {old new : String} {b : Path}
    {back : Bool} {cause : FileError} {a : Except FileError Unit} {r : ChangeRecord}
    (hold : m.textIn view q.file = some old)
    (hnew : Edit.replaceBlock old q.line q.expected q.suggested = .ok new)
    (hback : back = true ↔ a = .ok ()) (htext : back = true → m'.textIn view q.file = some old)
    (hheld : m'.textIn view b = some old) (htracked : m'.tracks b = true)
    (hhistory : m'.history = m.history ++ [r]) (hstatus : r.status = .failed)
    (hfile : r.file = q.file) (hbackup : r.backup = some b)
    (hdigest : r.digest = some (digestOf old)) :
    Kept view q m [.write q.file new (some (.error cause)), .write q.file old (some a)]
      (.error (.applyFailed q.file b back cause)) m' := by
  refine ⟨?_, ?_, ?_, ?_, ?_⟩
  · intro old' hold'
    rw [hold] at hold'
    cases hold'
    exact Or.inr ⟨b, rfl, hheld⟩
  · intro e heq hnone
    cases heq
    cases hnone
  · intro e heq
    cases heq
    constructor
    · intro htrue
      rw [hback.1 htrue]
      exact ⟨old, new, cause, hold, hnew, rfl⟩
    · rintro ⟨old', new', cause', -, -, hsame⟩
      apply hback.2
      injection hsame with _ hrest
      injection hrest with hlast _
      injection hlast with _ _ ha
      exact Option.some.inj ha
  · intro e heq htrue
    cases heq
    exact (htext htrue).trans hold.symm
  · intro file b' back' cause' heq
    injection heq with he
    injection he with _ hb
    subst hb
    exact ⟨old, r, hold, hheld, htracked, hhistory, hstatus, hfile, hbackup, hdigest⟩

/-- A refusal before anything was written. -/
theorem ends_refuse_untouched {q : ChangeRequest} {e : ChangeError}
    {crash : Manager (Recorded σ) → Prop} (he : e.hadSideEffects = false)
    (hspares : Spares view P m k) (hfile : ¬ P q.file)
    (hquiet : m.vault.files.callsOn q.file = []) :
    (refuse q e none : Attempt _ (Except ChangeError ChangeOutcome)).Ends k
      (fun answer l => Kept view q m.plain (l.vault.files.callsOn q.file) answer l.plain)
      crash := by
  apply Attempt.ends_of_ok (refuse_run q e none k)
  have hcalls : (k.noteFailed q e none).vault.files.callsOn q.file = [] := by
    rw [files_noteFailed, hspares.vault.files.calls hfile, hquiet]
  rw [hcalls]
  refine Kept.of_untouched ?_ he
  have htext : view.text? (k.noteFailed q e none).vault.files.files q.file =
      view.text? m.vault.files.files q.file := by
    rw [files_noteFailed]
    exact hspares.vault.files.text hfile
  exact htext

section

variable {q : ChangeRequest} {old new : String} {b : BackupEntry}

/-- After a backup was taken of a file, a failed write leaves a record that names it. -/
theorem ends_refuse_written {cause : FileError} {back : Bool} {a : Except FileError Unit}
    {l : Manager (Recorded σ)} {crash : Manager (Recorded σ) → Prop}
    (hlive : m.config.dryRun = false) (hold : m.plain.textIn view q.file = some old)
    (hnew : Edit.replaceBlock old q.line q.expected q.suggested = .ok new)
    (htaken : Spares view (m.plain.textIn view · = none) m k)
    (htook : Vault.Took view old m.vault b k.vault)
    (hwritten : Spares view (q.file.key = ·.key) k l)
    (hcalls : l.vault.files.callsOn q.file =
      [.write q.file new (some (.error cause)), .write q.file old (some a)])
    (hback : back = true ↔ a = .ok ())
    (htext : back = true → l.plain.textIn view q.file = some old) :
    (refuse q (.applyFailed q.file b.backup back cause) (some b) :
        Attempt _ (Except ChangeError ChangeOutcome)).Ends l
      (fun answer l' => Kept view q m.plain (l'.vault.files.callsOn q.file) answer l'.plain)
      crash := by
  let e : ChangeError := .applyFailed q.file b.backup back cause
  let l' := l.noteFailed q e (some b)
  have hlive' : l.config.dryRun = false := by
    rw [hwritten.config, htaken.config, hlive]
  have hne : ¬ q.file.key = b.backup.key := by
    intro hkey
    have hnone : m.plain.textIn view q.file = none :=
      (view.congr m.vault.files.files hkey).trans htook.free
    rw [hold] at hnone
    cases hnone
  have hfiles : l'.vault.files = l.vault.files := files_noteFailed q e _
  have htexts : ∀ x, l'.plain.textIn view x = l.plain.textIn view x := by
    intro x
    change view.text? l'.vault.files.files x = _
    rw [hfiles]
    rfl
  have hheld : l'.plain.textIn view b.backup = some old := by
    rw [htexts]
    exact (hwritten.vault.files.text hne).trans htook.held
  have htracked : l'.tracks b.backup = true := by
    refine tracks_iff.2 ⟨b, ?_, rfl⟩
    rw [entries_noteFailed q e (some b) hlive']
    simp
  have hhistory : l'.history = m.history ++ [failedRecord (l.recordId l.issued) q e (some b)] := by
    rw [history_noteFailed q e (some b) hlive', hwritten.history, htaken.history]
  apply Attempt.ends_of_ok (refuse_run q e (some b) l)
  rw [hfiles, hcalls]
  exact .of_written hold hnew hback (fun htrue => (htexts q.file).trans (htext htrue)) hheld htracked
    hhistory rfl rfl rfl (congrArg some htook.digest)

/-- The backup of an applied change is not among those that are dropped for it. -/
theorem ends_commit_discard (hbackup : m.plain.textIn view b.backup = some old) :
    (do
      let (r, dropped) ← commit q b
      discard dropped
      count .changesApplied
      report (.changeApplied q.file q.line b.backup)
      return .ok (.applied r) : Attempt (Manager (Recorded σ)) (Except ChangeError _)).Ends m
      (fun answer k => (∃ outcome, answer = .ok outcome) ∧ namedBackup? answer = some b.backup ∧
        k.plain.textIn view b.backup = some old)
      (fun k => ¬ Answering σ ∧ k.plain.textIn view b.backup = some old) := by
  apply Ends.bind
  apply Attempt.ends_of_ok (commit_run q b m)
  apply Ends.bind
  let guarded := protectedBackups (m.noting q b).history
  let dropped := ((m.noting q b).vault.store.sortOut guarded).1.map BackupEntry.backup
  have hspared : ¬ ∃ d ∈ dropped, d.key = b.backup.key := by
    rintro ⟨d, hd, hkey⟩
    obtain ⟨e, he, rfl⟩ := List.mem_map.1 hd
    have hguard := (BackupStore.mem_dropped he).2 b.backup (backup_mem_protectedBackups _ _)
    exact Path.not_same_iff.1 hguard hkey.symm
  have hkept : ∀ k, Spares view (fun x => ∃ d ∈ dropped, d.key = x.key)
      ((m.noting q b).limiting guarded) k → k.plain.textIn view b.backup = some old :=
    fun k hk => (hk.vault.files.text hspared).trans hbackup
  refine (ends_discard view dropped).mono ?_ ?_
  · intro _ k hk
    exact Attempt.ends_of_ok rfl ⟨⟨_, rfl⟩, rfl, hkept k hk⟩
  · intro k h
    exact ⟨h.2, hkept k h.1⟩

/-- Carrying a request out keeps the text that the file had. -/
theorem ends_carryOut (hlive : m.config.dryRun = false)
    (hold : m.plain.textIn view q.file = some old)
    (hnew : Edit.replaceBlock old q.line q.expected q.suggested = .ok new)
    (hquiet : m.vault.files.callsOn q.file = []) :
    (carryOut q old new).Ends m
      (fun answer k => Kept view q m.plain (k.vault.files.callsOn q.file) answer k.plain)
      (fun k => ¬ Answering σ ∧ Survives view q.file old m.plain k.plain) := by
  have hoccupied : ¬ m.plain.textIn view q.file = none := by
    rw [hold]
    exact Option.some_ne_none old
  apply Ends.bind
  apply ends_inVault
  refine (Vault.ends_takeBackup view q.file old).mono ?_ ?_
  · intro taken w h
    let k : Manager (Recorded σ) := { m with vault := w }
    have htaken : Spares view (m.plain.textIn view · = none) m k := ⟨h.1, rfl, rfl⟩
    cases taken with
    | error e => exact ends_refuse_untouched h.2 htaken hoccupied hquiet
    | ok b =>
      have htook : Vault.Took view old m.vault b k.vault := h.2
      have hne : ¬ q.file.key = b.backup.key := by
        intro hkey
        exact hoccupied ((view.congr m.vault.files.files hkey).trans htook.free)
      have hbackup : ∀ l, Spares view (q.file.key = ·.key) k l →
          l.plain.textIn view b.backup = some old :=
        fun l hl => (hl.vault.files.text hne).trans htook.held
      apply Ends.bind
      refine (ends_replaceText view q.file old new).mono ?_ ?_
      · intro replaced l h
        obtain ⟨hwritten, hfailed⟩ := h
        cases replaced with
        | error failure =>
          obtain ⟨cause, back⟩ := failure
          obtain ⟨a, hcalls, hback, htext⟩ := hfailed cause back rfl
          rw [htaken.vault.files.calls hoccupied, hquiet, List.nil_append] at hcalls
          exact ends_refuse_written hlive hold hnew htaken htook hwritten hcalls hback htext
        | ok _ =>
          refine (ends_commit_discard (hbackup l hwritten)).mono ?_ ?_
          · intro answer l' h
            obtain ⟨⟨outcome, rfl⟩, hnamed, htext⟩ := h
            refine .of_ok ?_
            intro old' hold'
            rw [hold] at hold'
            cases hold'
            exact Or.inr ⟨b.backup, hnamed, htext⟩
          · intro l' h
            exact ⟨h.1, Or.inr ⟨b.backup, htook.free, h.2⟩⟩
      · intro l h
        exact ⟨h.2, Or.inr ⟨b.backup, htook.free, hbackup l h.1⟩⟩
  · intro w h
    exact ⟨h.2, Or.inl ((h.1.files.text hoccupied).trans hold)⟩

theorem ends_applyValid (q : ChangeRequest) (hquiet : m.vault.files.callsOn q.file = []) :
    (applyValid q).Ends m
      (fun answer k => Kept view q m.plain (k.vault.files.callsOn q.file) answer k.plain)
      (fun k => ¬ Answering σ ∧ ∀ old, m.plain.textIn view q.file = some old →
        Survives view q.file old m.plain k.plain) := by
  apply Ends.bind
  apply ends_inVault
  refine (Vault.ends_read view (fun _ => False) q.file).mono ?_ ?_
  · intro read w h
    let k : Manager (Recorded σ) := { m with vault := w }
    have hspares : Spares view (fun _ => False) m k := ⟨h.1, rfl, rfl⟩
    have htexts : ∀ x, k.plain.textIn view x = m.plain.textIn view x :=
      fun x => h.1.files.text not_false
    have hquiet' : k.vault.files.callsOn q.file = [] :=
      (h.1.files.calls not_false).trans hquiet
    cases read with
    | error cause => exact ends_refuse_untouched rfl hspares not_false hquiet
    | ok old =>
      have hold : m.plain.textIn view q.file = some old := h.2 old rfl
      simp only
      cases hnew : Edit.replaceBlock old q.line q.expected q.suggested with
      | error cause => exact ends_refuse_untouched rfl hspares not_false hquiet
      | ok new =>
        apply Ends.bind
        apply Attempt.ends_of_ok (Attempt.get_run k)
        change Ends (if m.config.dryRun = true then _ else _) k _ _
        cases hdry : m.config.dryRun with
        | true =>
          rw [if_pos rfl]
          refine Attempt.ends_of_ok rfl (.of_ok ?_)
          intro old' hold'
          exact Or.inl ((htexts q.file).trans hold')
        | false =>
          rw [if_neg Bool.false_ne_true]
          have hlive : k.config.dryRun = false := hdry
          have hold' : k.plain.textIn view q.file = some old := (htexts q.file).trans hold
          refine (ends_carryOut hlive hold' hnew hquiet').mono ?_ ?_
          · intro answer l h
            exact h.of_same htexts rfl
          · intro l h
            refine ⟨h.1, ?_⟩
            intro old' hold'
            rw [hold] at hold'
            cases hold'
            refine h.2.imp_right ?_
            rintro ⟨b, hfree, htext⟩
            exact ⟨b, (htexts b).symm.trans hfree, htext⟩
  · intro w h
    refine ⟨h.2, ?_⟩
    intro old hold
    exact Or.inl ((h.1.files.text not_false).trans hold)

end

/-! ## The main theorem -/

/-- Whatever calls on files answer, as long as they keep to their paths: if no call crashes, applying
a request gives an answer; an answer comes with the text of the file as `Kept` says, given the calls
that were made to change the file; and if a call crashes, the text is still in the file or at a path
that was free before. -/
theorem apply_loses_nothing (view : TextView σ) (q : ChangeRequest) (m : Manager σ) :
    (Answering σ → ∃ answer m', apply q m = .ok answer m') ∧
    (∀ answer m', apply q m = .ok answer m' →
      Kept view q m ((applyCalls q m).filter fun c => c.path.same q.file) answer m') ∧
    ∀ crash m', apply q m = .error crash m' →
      ∀ old, m.textIn view q.file = some old → Survives view q.file old m m' := by
  have hends : (apply q).Ends m.listening
      (fun answer k => Kept view q m (k.vault.files.callsOn q.file) answer k.plain)
      (fun k => ¬ Answering σ ∧ ∀ old, m.textIn view q.file = some old →
        Survives view q.file old m k.plain) := by
    unfold apply ChangeRequest.validate
    cases q.fault? with
    | some fault => exact Attempt.ends_pure (.of_untouched rfl rfl)
    | none => exact ends_applyValid q rfl
  have hmirrors : Attempt.Mirrors (@plain σ) (apply q) (apply q) := apply_mirrors q
  unfold applyCalls Attempt.endState
  cases hrun : apply q m.listening with
  | ok answer k =>
    have hplain : apply q m = .ok answer k.plain := hmirrors.ok hrun
    refine ⟨fun _ => ⟨answer, k.plain, hplain⟩, ?_, ?_⟩
    · intro answer' m' hrun'
      rw [hplain] at hrun'
      cases hrun'
      exact hends.of_ok hrun
    · intro crash m' hrun'
      rw [hplain] at hrun'
      cases hrun'
  | error crash k =>
    have hplain : apply q m = .error crash k.plain := hmirrors.error hrun
    obtain ⟨hcrashed, hsurvives⟩ := hends.of_error hrun
    refine ⟨fun hanswering => absurd hanswering hcrashed, ?_, ?_⟩
    · intro answer' m' hrun'
      rw [hplain] at hrun'
      cases hrun'
    · intro crash' m' hrun'
      rw [hplain] at hrun'
      cases hrun'
      exact hsurvives

/-- The write of the new text fails and leaves an empty file; then the old text is written back. -/
theorem apply_loses_nothing_when_torn :
    let m : Manager TornFiles :=
      new { backupDir := ⟨"backups"⟩ } (fun _ => "s") {} ⟨twoFiles, [false, true, false]⟩
    let b := m.vault.store.pathOf ⟨"a"⟩ 0
    ∃ m', apply (retouch "a" 0) m =
        .ok (.error (.applyFailed ⟨"a"⟩ b true (.writeRefused ⟨"a"⟩))) m' ∧
      m'.textIn TornFiles.view ⟨"a"⟩ = some "a0\n" ∧ m'.textIn TornFiles.view b = some "a0\n" := by
  intro m b
  obtain ⟨hanswers, hkept, -⟩ := apply_loses_nothing TornFiles.view (retouch "a" 0) m
  obtain ⟨answer, m', hrun⟩ := hanswers TornFiles.answering
  have hanswer : (apply (retouch "a" 0)).answer? m =
      some (.error (.applyFailed ⟨"a"⟩ b true (.writeRefused ⟨"a"⟩))) := by decide +kernel
  rw [Attempt.answer?_of_ok hrun] at hanswer
  cases hanswer
  have hbefore : m.textIn TornFiles.view (retouch "a" 0).file = some "a0\n" := by decide +kernel
  have h := hkept _ m' hrun
  obtain ⟨old, r, hold, hbackup, -⟩ := h.backedUp rfl
  rw [hbefore] at hold
  cases hold
  exact ⟨m', hrun, (h.restored rfl rfl).trans hbefore, hbackup⟩

end Manager

end CodeReview
