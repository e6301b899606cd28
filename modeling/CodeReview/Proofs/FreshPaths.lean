import CodeReview.Files.Fault
import CodeReview.Proofs.DiskBackups
import CodeReview.Proofs.Reservations

/-!
# Backups take fresh paths

What is promised of the paths of backups: in any run the paths that are reserved differ from each
other, and a search for one ends at a path that leads to nothing after at most one more turn than there
are things (`TakesFreshPaths`).  In memory a backup therefore overwrites nothing.  On a disk its
directory is made before it is written, and that uncovers a file if the way to the directory leads back
over something that is not there.  So only a directory that is not spelled like that is safe from it.

Files are taken to tell whether a path leads to something.  If they say so of paths that lead to nothing,
the search takes a turn more for each of them.
-/

namespace CodeReview

open Vault (Searches OverwritesUncovered OverwritesNothing)

/-- What is promised of the paths of backups over files. -/
structure TakesFreshPaths (σ : Type) [FileAccess σ] : Prop where
  manager (m : Manager σ) (os : List (Manager.Operation σ)) :
    ((Manager.Operation.reservedAll os m).map Path.key).Nodup ∧
      (Manager.Operation.afterAll os m).vault.store.next =
        m.vault.store.next + (Manager.Operation.reservedAll os m).length
  store (v : Vault σ) (os : List (StoreOperation σ)) :
    ((StoreOperation.reservedAll os v).map Path.key).Nodup ∧
      (StoreOperation.afterAll os v).store.next =
        v.store.next + (StoreOperation.reservedAll os v).length
  search (inv : Inventory σ) (v : Vault σ) (file : Path) : ∃ k, Searches inv file v k

theorem takesFreshPaths (σ : Type) [FileAccess σ] : TakesFreshPaths σ where
  manager m os := by
    have hnumbered := Manager.Operation.numbered_reservedAll os m
    exact ⟨hnumbered.nodup_keys, hnumbered.next_eq⟩
  store v os := by
    have hnumbered := StoreOperation.numbered_reservedAll os v
    exact ⟨hnumbered.nodup_keys, hnumbered.next_eq⟩
  search inv v file := Vault.exists_searches inv file v

/-- In memory nothing is uncovered, as there are no directories. -/
theorem MemoryFiles.overwritesNothing {v : Vault MemoryFiles} {file : Path} {k : Nat}
    {act : Attempt (Vault MemoryFiles) (Except ChangeError BackupEntry)}
    (hsearch : Searches inventory file v k)
    (h : OverwritesUncovered inventory (v.store.pathOf file (v.store.next + k)) act v) :
    OverwritesNothing inventory act v :=
  h.nothing hsearch.free ((uncovered?_eq v.files _).trans hsearch.free)

/-- On a disk nothing is uncovered on the way to a directory that leads back only over directories. -/
theorem Disk.overwritesNothing {v : Vault Disk} {file : Path} {k : Nat}
    {act : Attempt (Vault Disk) (Except ChangeError BackupEntry)} (hmade : v.files.Made)
    (hdir : v.files.EndsStraight (Disk.start v.files.home v.store.dir)
      (segments v.store.dir.text.toList))
    (hstamp : ∀ n, '/' ∉ (v.store.stamp n).toList) (hsearch : Searches inventory file v k)
    (h : OverwritesUncovered inventory (v.store.pathOf file (v.store.next + k)) act v) :
    OverwritesNothing inventory act v := by
  obtain ⟨_, hends⟩ := v.store.pathOf_endsIn file (v.store.next + k)
  have hway := endsStraight_pathOf hdir hstamp file (v.store.next + k)
  exact h.nothing hsearch.free (uncovered?_eq_none hends hmade.rooted hway hsearch.free)

/-- A disk with one file in its working directory, and a directory that backups are kept in. -/
def oneFileDisk (file dir : Path) : Vault Disk where
  files := ((Disk.empty ⟨["w".toList]⟩).land file (.text "a0\n")).2
  telemetry := {}
  store := BackupStore.new dir 0 fun _ => "s"

theorem made_oneFileDisk (file dir : Path) : (oneFileDisk file dir).files.Made :=
  .land (.empty _) _ _

/-- Files in memory, of which three paths of backups are said to be there without being so. -/
def feignedFiles : Vault (FaultyFiles MemoryFiles) where
  files := ⟨.empty, [⟨.present, "/backups/", 0, some 3, .fail "injected"⟩]⟩
  telemetry := {}
  store := BackupStore.new ⟨"/backups"⟩ 0 fun _ => "s"

end CodeReview
