import CodeReview.Files.Access
import CodeReview.OrderedMap

/-!
# Files in memory

Files as a map from paths to texts, without directories.  Some paths may be set to refuse writes and
some to refuse reads; such a setting also holds for paths without a file.
-/

namespace CodeReview

/-- Files kept in a map. -/
structure MemoryFiles where
  files : OrderedMap Path String
  writeProtected : OrderedSet Path
  readProtected : OrderedSet Path

namespace MemoryFiles

def empty : MemoryFiles :=
  ⟨∅, ∅, ∅⟩

instance : Inhabited MemoryFiles := ⟨empty⟩

/-- Put a file, whatever is refused. -/
def withFile (m : MemoryFiles) (p : Path) (text : String) : MemoryFiles :=
  { m with files := m.files.insert p text }

def refuseWrites (m : MemoryFiles) (p : Path) : MemoryFiles :=
  { m with writeProtected := m.writeProtected.insert p () }

def acceptWrites (m : MemoryFiles) (p : Path) : MemoryFiles :=
  { m with writeProtected := m.writeProtected.erase p }

def refuseReads (m : MemoryFiles) (p : Path) : MemoryFiles :=
  { m with readProtected := m.readProtected.insert p () }

/-- The text of a file, whatever is refused. -/
def contents? (m : MemoryFiles) (p : Path) : Option String :=
  m.files.find? p

def paths (m : MemoryFiles) : List Path :=
  m.files.keys

/-- What reading a path gives. -/
def textAt (m : MemoryFiles) (p : Path) : Except FileError String :=
  if m.readProtected.contains p then .error (.unreadable p)
  else match m.files.find? p with
    | some text => .ok text
    | none => .error (.missing p)

/-- Write a file. -/
def put (m : MemoryFiles) (p : Path) (text : String) : Except FileError Unit × MemoryFiles :=
  if m.writeProtected.contains p then (.error (.writeRefused p), m)
  else (.ok (), m.withFile p text)

/-- Remove a file. -/
def drop (m : MemoryFiles) (p : Path) : Except FileError Unit × MemoryFiles :=
  if m.files.contains p then (.ok (), { m with files := m.files.erase p })
  else (.error (.missing p), m)

instance : FileAccess MemoryFiles where
  read p := return (← get).textAt p
  write p text := modifyGet fun m => m.put p text
  present p := return (← get).files.contains p
  remove p := modifyGet fun m => m.drop p
  makeDirs _ := return .ok ()
  occupied m := m.files.size

end MemoryFiles

end CodeReview
