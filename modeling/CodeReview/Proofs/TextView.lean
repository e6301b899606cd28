import CodeReview.Proofs.MemoryVault
import CodeReview.Proofs.Recorded
import CodeReview.Proofs.Retention

/-!
# Texts and the calls that change them

A `TextView` says what text files hold at a path, for any files that a manager can rely on, and which
path a call may change.  The parts of an operation are read as relations between recorded files before
and after: `Spares` says of all but some paths that no call named them and that they hold what they
held.
-/

namespace CodeReview

open Attempt (Ends)

/-! ## Texts at paths -/

/-- The texts that files hold, for files that a manager can rely on: reading and testing report the
texts, a call changes at most the path that it names, and a write that succeeds leaves what it was
given.  A write that fails or crashes may leave anything. -/
structure TextView (σ : Type) [FileAccess σ] where
  text? : σ → Path → Option String
  congr (s : σ) {p q : Path} : p.key = q.key → text? s p = text? s q
  read_text {s t : σ} {p : Path} {text : String} :
    FileAccess.read p s = .ok (.ok text) t → text? s p = some text
  read_keeps (p : Path) (s : σ) (x : Path) : text? ((FileAccess.read p).endState s) x = text? s x
  present_iff {s t : σ} {p : Path} {there : Bool} :
    FileAccess.present p s = .ok there t → there = (text? s p).isSome
  present_keeps (p : Path) (s : σ) (x : Path) :
    text? ((FileAccess.present p).endState s) x = text? s x
  makeDirs_keeps (p : Path) (s : σ) (x : Path) :
    text? ((FileAccess.makeDirs p).endState s) x = text? s x
  remove_others (p : Path) (s : σ) {x : Path} :
    p.key ≠ x.key → text? ((FileAccess.remove p).endState s) x = text? s x
  write_others (p : Path) (text : String) (s : σ) {x : Path} :
    p.key ≠ x.key → text? ((FileAccess.write p text).endState s) x = text? s x
  write_text {s t : σ} {p : Path} {text : String} :
    FileAccess.write p text s = .ok (.ok ()) t → text? t p = some text
  /-- There is text at no more paths than are reckoned to be occupied. -/
  occupied (s : σ) {ps : List Path} : (ps.map Path.key).Nodup →
    (∀ p ∈ ps, (text? s p).isSome) → ps.length ≤ FileAccess.occupied s

/-- Files whose calls never crash. -/
structure Answering (σ : Type) [FileAccess σ] : Prop where
  read (p : Path) : (FileAccess.read p : Attempt σ _).Answers
  write (p : Path) (text : String) : (FileAccess.write p text : Attempt σ _).Answers
  present (p : Path) : (FileAccess.present p : Attempt σ _).Answers
  remove (p : Path) : (FileAccess.remove p : Attempt σ _).Answers
  makeDirs (p : Path) : (FileAccess.makeDirs p : Attempt σ _).Answers

/-! ## A case with writes that fail -/

/-- Files in memory.  A write may fail after it has emptied the file: the list says of each of the
next writes whether it does. -/
structure TornFiles where
  files : MemoryFiles
  torn : List Bool

namespace TornFiles

def put (s : TornFiles) (p : Path) (text : String) : Except FileError Unit × TornFiles :=
  match s.torn with
  | true :: torn => (.error (.writeRefused p), ⟨s.files.withFile p "", torn⟩)
  | torn => (.ok (), ⟨s.files.withFile p text, torn.tail⟩)

instance : FileAccess TornFiles where
  read p := return (← get).files.textAt p
  write p text := modifyGet fun s => s.put p text
  present p := return (← get).files.files.contains p
  remove p := modifyGet fun s => ((s.files.drop p).1, { s with files := s.files.without p })
  makeDirs _ := return .ok ()
  occupied s := s.files.files.size

theorem put_text {s t : TornFiles} {p : Path} {text : String}
    (h : s.put p text = (.ok (), t)) : t.files.contents? p = some text := by
  unfold put at h
  split at h
  · cases h
  · cases h
    rw [MemoryFiles.contents?_withFile, if_pos rfl]

theorem put_others (s : TornFiles) {p x : Path} (text : String) (hx : p.key ≠ x.key) :
    (s.put p text).2.files.contents? x = s.files.contents? x := by
  unfold put
  split <;> rw [MemoryFiles.contents?_withFile, if_neg hx]

def view : TextView TornFiles where
  text? s p := s.files.contents? p
  congr s _ _ h := s.files.contents?_congr h
  read_text {s t p text} h := by
    injection h with hread
    exact MemoryFiles.contents?_of_textAt hread
  read_keeps _ _ _ := rfl
  present_iff {s t p there} h := by
    injection h with hthere
    rw [← hthere, MemoryFiles.contains_eq]
  present_keeps _ _ _ := rfl
  makeDirs_keeps _ _ _ := rfl
  remove_others p s x hx := (MemoryFiles.contents?_without s.files p x).trans (if_neg hx)
  write_others p text s _ hx := s.put_others text hx
  write_text {s t p text} h := by
    injection h with hanswer hstate
    exact put_text (Prod.ext hanswer hstate)
  occupied s _ hdistinct hall := OrderedMap.length_le_size hdistinct hall

theorem answering : Answering TornFiles :=
  ⟨fun _ _ => ⟨_, _, rfl⟩, fun _ _ _ => ⟨_, _, rfl⟩, fun _ _ => ⟨_, _, rfl⟩, fun _ _ => ⟨_, _, rfl⟩,
    fun _ _ => ⟨_, _, rfl⟩⟩

end TornFiles

/-! ## Recorded files -/

variable {σ α : Type} [FileAccess σ] (view : TextView σ)

namespace Recorded

/-- The text at a path. -/
def text? (s : Recorded σ) (p : Path) : Option String :=
  view.text? s.files p

omit [FileAccess σ] in
/-- The calls to change a path. -/
def callsOn (s : Recorded σ) (p : Path) : List Call :=
  s.calls.filter fun c => c.path.same p

/-- No path that `P` excludes was called for, and each of them holds what it held. -/
structure Spares (P : Path → Prop) (s t : Recorded σ) : Prop where
  text {x : Path} : ¬ P x → t.text? view x = s.text? view x
  calls {x : Path} : ¬ P x → t.callsOn x = s.callsOn x

instance (P : Path → Prop) : IsPreorder (Recorded σ) (Spares view P) where
  refl _ := ⟨fun _ => rfl, fun _ => rfl⟩
  trans _ _ _ h h' := ⟨fun hx => (h'.text hx).trans (h.text hx),
    fun hx => (h'.calls hx).trans (h.calls hx)⟩

variable {view}

theorem Spares.mono {P Q : Path → Prop} {s t : Recorded σ} (h : Spares view P s t)
    (hPQ : ∀ x, P x → Q x) : Spares view Q s t :=
  ⟨fun hx => h.text (mt (hPQ _) hx), fun hx => h.calls (mt (hPQ _) hx)⟩

/-- A call that changes no text and is not recorded. -/
theorem ends_quiet {act : Attempt σ α}
    (hkeeps : ∀ (s : σ) (x : Path), view.text? (act.endState s) x = view.text? s x)
    (s : Recorded σ) (P : Path → Prop) :
    (calling (fun _ => []) act).Ends s
      (fun a t => Spares view P s t ∧ act s.files = .ok a t.files)
      (fun t => Spares view P s t ∧ ¬ act.Answers) := by
  have hcalls : ∀ x, (s.calls ++ []).filter (fun c => c.path.same x) = s.callsOn x := by
    intro x
    rw [List.append_nil]
    rfl
  have htext := hkeeps s.files
  unfold Attempt.endState at htext
  unfold Ends calling
  cases hrun : act s.files with
  | ok a files =>
    rw [hrun] at htext
    exact ⟨⟨fun _ => htext _, fun _ => hcalls _⟩, rfl⟩
  | error e files =>
    rw [hrun] at htext
    exact ⟨⟨fun _ => htext _, fun _ => hcalls _⟩, Attempt.not_answers hrun⟩

/-- A call that changes at most the path that is recorded with it. -/
theorem ends_change {act : Attempt σ α} (call : Option α → Call) {p : Path}
    (hpath : ∀ answer, (call answer).path = p)
    (hothers : ∀ (s : σ) {x : Path}, p.key ≠ x.key →
      view.text? (act.endState s) x = view.text? s x) (s : Recorded σ) :
    (calling (fun answer => [call answer]) act).Ends s
      (fun a t => Spares view (p.key = ·.key) s t ∧ act s.files = .ok a t.files ∧
        t.callsOn p = s.callsOn p ++ [call (some a)])
      (fun t => Spares view (p.key = ·.key) s t ∧ ¬ act.Answers) := by
  have hcalls : ∀ answer x, ¬ p.key = x.key →
      (s.calls ++ [call answer]).filter (fun c => c.path.same x) = s.callsOn x := by
    intro answer x hx
    simp [callsOn, List.filter_append, hpath, Path.not_same_iff.2 hx]
  have htext := @hothers s.files
  unfold Attempt.endState at htext
  unfold Ends calling
  cases hrun : act s.files with
  | ok a files =>
    rw [hrun] at htext
    refine ⟨⟨fun hx => htext hx, fun hx => hcalls _ _ hx⟩, rfl, ?_⟩
    simp [callsOn, List.filter_append, hpath, Path.same_refl]
  | error e files =>
    rw [hrun] at htext
    exact ⟨⟨fun hx => htext hx, fun hx => hcalls _ _ hx⟩, Attempt.not_answers hrun⟩

end Recorded

/-! ## Parts of an operation -/

namespace Vault

/-- Only paths of `P` were called for, and the tracked backups are the same. -/
structure Spares (P : Path → Prop) (v w : Vault (Recorded σ)) : Prop where
  files : Recorded.Spares view P v.files w.files
  entries : w.store.entries = v.store.entries

instance (P : Path → Prop) : IsPreorder (Vault (Recorded σ)) (Spares view P) where
  refl v := ⟨refl_of (Recorded.Spares view P) v.files, rfl⟩
  trans _ _ _ h h' := ⟨trans_of (Recorded.Spares view P) h.files h'.files,
    h'.entries.trans h.entries⟩

variable {view} {P : Path → Prop} {v w : Vault (Recorded σ)}

theorem Spares.mono {Q : Path → Prop} (h : Spares view P v w) (hPQ : ∀ x, P x → Q x) :
    Spares view Q v w :=
  ⟨h.files.mono hPQ, h.entries⟩

variable (P) in
theorem ends_quiet {act : Attempt σ α}
    (hkeeps : ∀ (s : σ) (x : Path), view.text? (act.endState s) x = view.text? s x) :
    (onFiles (Recorded.calling (fun _ => []) act)).Ends v
      (fun a w => Spares view P v w ∧ act v.files.files = .ok a w.files.files ∧ w.store = v.store)
      (fun w => Spares view P v w ∧ ¬ act.Answers) := by
  apply ends_onFiles
  refine (Recorded.ends_quiet hkeeps v.files P).mono ?_ ?_
  · intro a files h
    exact ⟨⟨h.1, rfl⟩, h.2, rfl⟩
  · intro files h
    exact ⟨⟨h.1, rfl⟩, h.2⟩

variable (view P) in
theorem ends_read (p : Path) :
    (read p).Ends v
      (fun a w => Spares view P v w ∧ ∀ text, a = .ok text → v.files.text? view p = some text)
      (fun w => Spares view P v w ∧ ¬ Answering σ) := by
  refine (ends_quiet P (view.read_keeps p)).mono ?_ ?_
  · intro a w h
    refine ⟨h.1, ?_⟩
    intro text ha
    rw [ha] at h
    exact view.read_text h.2.1
  · intro w h
    exact ⟨h.1, fun hanswering => h.2 (hanswering.read p)⟩

variable (view) in
theorem ends_write (p : Path) (text : String) :
    (write p text).Ends v
      (fun a w => Spares view (p.key = ·.key) v w ∧
        w.files.callsOn p = v.files.callsOn p ++ [.write p text (some a)] ∧
        (a = .ok () → w.files.text? view p = some text))
      (fun w => Spares view (p.key = ·.key) v w ∧ ¬ Answering σ) := by
  apply ends_onFiles
  have hcall := Recorded.ends_change (Call.write p text) (fun _ => rfl) (view.write_others p text)
    v.files
  refine hcall.mono ?_ ?_
  · intro a files h
    refine ⟨⟨h.1, rfl⟩, h.2.2, ?_⟩
    intro ha
    rw [ha] at h
    exact view.write_text h.2.1
  · intro files h
    exact ⟨⟨h.1, rfl⟩, fun hanswering => h.2 (hanswering.write p text)⟩

/-- The search for a free path ends at one, unless a call crashes or all the paths it tries are
occupied. -/
theorem ends_freshPathWithin (file : Path) (tries : Nat) :
    (freshPathWithin file tries).Ends v
      (fun b w => Spares view (fun _ => False) v w ∧ v.files.text? view b = none)
      (fun w => Spares view (fun _ => False) v w ∧ (¬ Answering σ ∨ ∀ i < tries,
        (v.files.text? view (v.store.pathOf file (v.store.next + i))).isSome)) := by
  induction tries generalizing v with
  | zero =>
    refine Attempt.ends_throw _ ⟨refl_of (Spares view _) v, Or.inr ?_⟩
    intro i hi
    exact absurd hi (Nat.not_lt_zero i)
  | succ tries ih =>
    let b := v.store.pathOf file v.store.next
    let u : Vault (Recorded σ) := v.skipTo (v.store.next + 1)
    have hu : Spares view (fun _ => False) v u := ⟨refl_of (Recorded.Spares view _) v.files, rfl⟩
    apply Ends.bind
    apply Attempt.ends_of_ok (show reserve file v = .ok b u from rfl)
    apply Ends.bind
    refine (ends_quiet (fun _ => False) (view.present_keeps b)).mono ?_ ?_
    · intro there w h
      obtain ⟨hspares, hrun, hstore⟩ := h
      have hw : Spares view (fun _ => False) v w := trans_of (Spares view _) hu hspares
      have htext : ∀ x, w.files.text? view x = v.files.text? view x :=
        fun x => hw.files.text not_false
      have hthere := view.present_iff hrun
      cases there with
      | false =>
        refine Attempt.ends_pure ⟨hw, ?_⟩
        exact Option.not_isSome_iff_eq_none.1 (ne_true_of_eq_false hthere.symm)
      | true =>
        refine ih.mono ?_ ?_
        · intro b' w' h
          exact ⟨trans_of (Spares view _) hw h.1, (htext b').symm.trans h.2⟩
        · intro w' h
          refine ⟨trans_of (Spares view _) hw h.1, h.2.imp_right ?_⟩
          intro hall i hi
          cases i with
          | zero => exact hthere.symm
          | succ i =>
            have hi := hall i (Nat.lt_of_succ_lt_succ hi)
            have hnext : v.store.next + 1 + i = v.store.next + (i + 1) := by omega
            rw [htext, hstore] at hi
            change (v.files.text? view (v.store.pathOf file (v.store.next + 1 + i))).isSome at hi
            rwa [hnext] at hi
    · intro w h
      exact ⟨trans_of (Spares view _) hu h.1, Or.inl fun hanswering => h.2 (hanswering.present b)⟩

variable (view) in
/-- The search for a free path ends at one, unless a call crashes: its tries differ, so they cannot
all be occupied. -/
theorem ends_freshPath (file : Path) :
    (freshPath file).Ends v
      (fun b w => Spares view (fun _ => False) v w ∧ v.files.text? view b = none)
      (fun w => Spares view (fun _ => False) v w ∧ ¬ Answering σ) := by
  apply Ends.bind
  apply Attempt.ends_of_ok (Attempt.get_run v)
  refine (ends_freshPathWithin file _).mono (fun _ _ h => h) ?_
  intro w h
  refine ⟨h.1, h.2.resolve_right ?_⟩
  intro hall
  let tries := FileAccess.occupied v.files.files + 1
  have hsome : ∀ p ∈ (List.range tries).map fun i => v.store.pathOf file (v.store.next + i),
      (view.text? v.files.files p).isSome := by
    intro p hp
    obtain ⟨i, hi, rfl⟩ := List.mem_map.1 hp
    exact hall i (List.mem_range.1 hi)
  have hlen := view.occupied v.files.files (v.store.nodup_tries file v.store.next tries) hsome
  simp only [List.length_map, List.length_range, tries] at hlen
  omega

variable (view) in
/-- A backup was written to a path that was free. -/
structure Took (contents : String) (v : Vault (Recorded σ)) (b : BackupEntry)
    (w : Vault (Recorded σ)) : Prop where
  digest : b.digest = digestOf contents
  free : v.files.text? view b.backup = none
  held : w.files.text? view b.backup = some contents

theorem ends_writeBackup (file : Path) {backup : Path} (contents : String)
    (hfree : v.files.text? view backup = none) :
    (writeBackup file backup contents).Ends v
      (fun a w => Spares view (backup.key = ·.key) v w ∧ match a with
        | .ok b => Took view contents v b w
        | .error e => e.hadSideEffects = false)
      (fun w => Spares view (backup.key = ·.key) v w ∧ ¬ Answering σ) := by
  unfold writeBackup
  rcases backup.parent? with _ | dir
  case' none => have hu : Spares view (backup.key = ·.key) v v := refl_of (Spares view _) v
  case' some =>
    apply Ends.bind
    refine (ends_quiet (backup.key = ·.key) (view.makeDirs_keeps dir)).mono ?_ ?_
    case' refine_2 =>
      intro u h
      exact ⟨h.1, fun hanswering => h.2 (hanswering.makeDirs dir)⟩
    rintro (cause | _) u ⟨hu, -, -⟩
    · exact Attempt.ends_pure ⟨hu, rfl⟩
  all_goals
    apply Ends.bind
    refine (ends_write view backup contents).mono ?_ ?_
    · intro answer w h
      have hw := trans_of (Spares view _) hu h.1
      cases answer with
      | error cause => exact Attempt.ends_pure ⟨hw, rfl⟩
      | ok _ => exact Attempt.ends_of_ok rfl ⟨⟨hw.files, hw.entries⟩, rfl, hfree, h.2.2 rfl⟩
    · intro w h
      exact ⟨trans_of (Spares view _) hu h.1, h.2⟩

variable (view) in
/-- Taking a backup touches one path, which was free. -/
theorem ends_takeBackup (file : Path) (contents : String) :
    (takeBackup file contents).Ends v
      (fun a w => Spares view (v.files.text? view · = none) v w ∧ match a with
        | .ok b => Took view contents v b w
        | .error e => e.hadSideEffects = false)
      (fun w => Spares view (v.files.text? view · = none) v w ∧ ¬ Answering σ) := by
  apply Ends.bind
  refine (ends_freshPath view file).mono ?_ ?_
  · intro backup u h
    obtain ⟨hquiet, hfree⟩ := h
    have htext : ∀ x, u.files.text? view x = v.files.text? view x :=
      fun x => hquiet.files.text not_false
    have hkey : ∀ x, backup.key = x.key → v.files.text? view x = none := by
      intro x hx
      exact (view.congr v.files.files hx).symm.trans hfree
    have hspares : ∀ w, Spares view (backup.key = ·.key) u w →
        Spares view (v.files.text? view · = none) v w := by
      intro w hw
      exact trans_of (Spares view _) (hquiet.mono fun _ h => h.elim) (hw.mono hkey)
    refine (ends_writeBackup file contents ((htext backup).trans hfree)).mono ?_ ?_
    · intro a w h
      refine ⟨hspares w h.1, ?_⟩
      cases a with
      | error e => exact h.2
      | ok b => exact ⟨h.2.digest, (htext b.backup).symm.trans h.2.free, h.2.held⟩
    · intro w h
      exact ⟨hspares w h.1, h.2⟩
  · intro w h
    exact ⟨h.1.mono fun _ h => h.elim, h.2⟩

variable (view) in
/-- Deleting dropped backups touches no other path. -/
theorem ends_removeFiles (dropped : List Path) :
    (removeFiles dropped).Ends v
      (fun _ w => Spares view (fun x => ∃ d ∈ dropped, d.key = x.key) v w)
      (fun w => Spares view (fun x => ∃ d ∈ dropped, d.key = x.key) v w ∧ ¬ Answering σ) := by
  induction dropped generalizing v with
  | nil => exact Attempt.ends_pure (refl_of (Spares view _) v)
  | cons d ds ih =>
    have hfirst : ∀ {u}, Spares view (d.key = ·.key) v u →
        Spares view (fun x => ∃ d' ∈ d :: ds, d'.key = x.key) v u := by
      intro u hu
      exact hu.mono fun x hx => ⟨d, List.mem_cons_self, hx⟩
    have hrest : ∀ {u w}, Spares view (fun x => ∃ d' ∈ ds, d'.key = x.key) u w →
        Spares view (fun x => ∃ d' ∈ d :: ds, d'.key = x.key) u w := by
      intro u w hw
      exact hw.mono fun x ⟨d', hd', hx⟩ => ⟨d', List.mem_cons_of_mem d hd', hx⟩
    change (removeFile d >>= fun _ => ds.forM removeFile).Ends v _ _
    apply Ends.bind
    have hremove : (removeFile d).Ends v (fun _ u => Spares view (d.key = ·.key) v u)
        (fun u => Spares view (d.key = ·.key) v u ∧ ¬ Answering σ) := by
      apply Ends.bind
      apply ends_onFiles
      have hcall := Recorded.ends_change (Call.remove d) (fun _ => rfl) (view.remove_others d)
        v.files
      refine hcall.mono ?_ ?_
      · intro answer files h
        have hspares : Spares view (d.key = ·.key) v { v with files := files } := ⟨h.1, rfl⟩
        cases answer with
        | ok _ => exact Attempt.ends_pure hspares
        | error cause =>
          simp only
          split
          · exact Attempt.ends_pure hspares
          · exact Attempt.ends_of_ok rfl ⟨h.1, rfl⟩
      · intro files h
        exact ⟨⟨h.1, rfl⟩, fun hanswering => h.2 (hanswering.remove d)⟩
    refine hremove.mono ?_ ?_
    · intro _ u hu
      refine ih.mono ?_ ?_
      · intro _ w hw
        exact trans_of (Spares view _) (hfirst hu) (hrest hw)
      · intro w h
        exact ⟨trans_of (Spares view _) (hfirst hu) (hrest h.1), h.2⟩
    · intro u h
      exact ⟨hfirst h.1, h.2⟩

end Vault

end CodeReview
