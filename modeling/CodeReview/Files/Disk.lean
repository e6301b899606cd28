import CodeReview.Files.Access
import CodeReview.OrderedMap

/-!
# Files on disk

A tree of directories and files with a working directory, where paths are followed as an operating
system follows them: segment by segment, each one but the last through a directory that exists, with
`.` and `..` taken where they stand.  A file is written by putting a finished new one in its place,
so a write that fails changes nothing.

A place is the list of names on the way from the root.
-/

namespace CodeReview

/-- A place in the tree: the names on the way from the root. -/
structure Place where
  names : List (List Char)
deriving DecidableEq, Repr

/-- Places are ordered as the paths that name them. -/
instance : Keyed Place := ⟨fun p => p.names.map fun n => n.map Char.toNat⟩

namespace Place

/-- The root of the tree. -/
def root : Place := ⟨[]⟩

/-- A name in a directory. -/
def child (p : Place) (name : List Char) : Place :=
  ⟨p.names ++ [name]⟩

/-- The directory that a place lies in; the root lies in itself. -/
def parent (p : Place) : Place :=
  ⟨p.names.dropLast⟩

end Place

/-- What a file holds: a text, or bytes that are no text. -/
inductive Stored where
  | text (s : String)
  | binary
deriving DecidableEq, Repr

/-- What a file of those bytes holds. -/
def Stored.ofBytes (bytes : List UInt8) : Stored :=
  match String.fromUTF8? ⟨bytes.toArray⟩ with
  | some s => .text s
  | none => .binary

/-- What is at a place. -/
inductive DiskNode where
  | file (contents : Stored)
  | directory
deriving DecidableEq, Repr

/-- A tree of files and directories, and the place that relative paths start from.  The root and the
working directory are directories without an entry of their own. -/
structure Disk where
  home : Place
  nodes : OrderedMap Place DiskNode

/-- The end of a path inside the directory that the path leads to. -/
inductive PathEnd where
  /-- The directory itself: the path ends in `.`, `..` or the root. -/
  | itself
  /-- A name, and whether a slash follows it. -/
  | name (chars : List Char) (slash : Bool)
deriving DecidableEq, Repr

namespace Disk

/-- An empty tree that works in a directory. -/
def empty (home : Place) : Disk :=
  ⟨home, ∅⟩

def node? (d : Disk) (p : Place) : Option DiskNode :=
  if p.names.isPrefixOf d.home.names then some .directory else d.nodes.find? p

def maxNameBytes : Nat := 255

/-- The number of bytes that a path has to stay below. -/
def pathBytes : Nat := 4096

/-- Whether a name has too many bytes. -/
def isTooLong (name : List Char) : Bool :=
  maxNameBytes < (String.ofList name).utf8ByteSize

/-- Follow one segment out of a directory. -/
def enter (d : Disk) (p : Place) (segment : List Char) : Except SystemError Place :=
  if isTrivialSegment segment then .ok p
  else if segment = ['.', '.'] then .ok p.parent
  else if isTooLong segment then .error .nameTooLong
  else match d.node? (p.child segment) with
    | none => .error .noEntry
    | some (.file _) => .error .notDirectory
    | some .directory => .ok (p.child segment)

/-- Follow segments, each through a directory. -/
def walk (d : Disk) (p : Place) : List (List Char) → Except SystemError Place
  | [] => .ok p
  | s :: ss => do walk d (← d.enter p s) ss

/-- The segments in front of the last one that is not empty, that last one, and whether a slash
follows it. -/
def splitEnd (ss : List (List Char)) : List (List Char) × PathEnd :=
  match ss.reverse.dropWhile (· = []) with
  | [] => ([], .itself)
  | last :: before =>
    if last = ['.'] ∨ last = ['.', '.'] then (ss, .itself)
    else (before.reverse, .name last (ss.getLast? = some []))

/-- Follow a path up to the directory that its end lies in. -/
def approach (d : Disk) (p : Path) : Except FileError (Place × PathEnd) :=
  let cs := p.text.toList
  if cs.contains '\x00' then .error .nullInName
  else if cs = [] then .error (.system .noEntry)
  else if pathBytes ≤ p.text.utf8ByteSize then .error (.system .nameTooLong)
  else
    let start := if cs.head? = some '/' then Place.root else d.home
    let (way, last) := splitEnd (segments cs)
    match d.walk start way with
    | .error cause => .error (.system cause)
    | .ok place => .ok (place, last)

def find (d : Disk) (p : Path) : Except FileError (Place × DiskNode) :=
  match d.approach p with
  | .error e => .error e
  | .ok (dir, .itself) => .ok (dir, .directory)
  | .ok (dir, .name n slash) =>
    if isTooLong n then .error (.system .nameTooLong)
    else match d.node? (dir.child n) with
      | none => .error (.system .noEntry)
      | some (.file contents) =>
        if slash then .error (.system .notDirectory) else .ok (dir.child n, .file contents)
      | some .directory => .ok (dir.child n, .directory)

def textAt (d : Disk) (p : Path) : Except FileError String :=
  match d.find p with
  | .error e => .error e
  | .ok (_, .directory) => .error (.system .isDirectory)
  | .ok (_, .file .binary) => .error .notText
  | .ok (_, .file (.text s)) => .ok s

def has (d : Disk) (p : Path) : Bool :=
  match d.find p with
  | .error _ => false
  | .ok _ => true

/-- The directory in which the new file for a path is made before it takes its place. -/
def stagingDirectory (p : Path) : Path :=
  match p.parent? with
  | some dir => if dir.text.toList = [] then ⟨"."⟩ else dir
  | none => ⟨"."⟩

def workingPath (d : Disk) : Path :=
  (⟨"/"⟩ : Path).join (Path.ofSegments d.home.names)

/-- A name of the length that a new file has before it takes its place. -/
def stagingName : Path := ⟨".tmp000000"⟩

/-- The path of the new file that is made in a directory: it starts at the root, so that it leads to
the same place whatever the working directory becomes. -/
def stagingPath (d : Disk) (dir : Path) : Path :=
  (if dir.text.toList.head? = some '/' then dir else d.workingPath.join dir).join stagingName

/-- Whether a new file can be made in a directory. -/
def stage (d : Disk) (dir : Path) : Except FileError Unit :=
  if dir.text.toList.contains '\x00' then .error (.staging .nullInName)
  else if pathBytes ≤ (d.stagingPath dir).text.utf8ByteSize then
    .error (.staging (.system .nameTooLong))
  else match d.find dir with
  | .error e => .error (.staging e)
  | .ok (_, .file _) => .error (.staging (.system .notDirectory))
  | .ok (_, .directory) => .ok ()

/-- The place that a finished file takes when it is moved to a path. -/
def landing (d : Disk) (p : Path) : Except FileError Place :=
  match d.approach p with
  | .error .nullInName => .error (.system .invalidArgument)
  | .error e => .error e
  | .ok (_, .itself) => .error (.system .busy)
  | .ok (dir, .name n slash) =>
    if isTooLong n then .error (.system .nameTooLong)
    else if slash then .error (.system .notDirectory)
    else match d.node? (dir.child n) with
      | some .directory => .error (.system .isDirectory)
      | _ => .ok (dir.child n)

/-- Move a finished file to a path. -/
def land (d : Disk) (p : Path) (contents : Stored) : Except FileError Unit × Disk :=
  match d.landing p with
  | .error e => (.error e, d)
  | .ok place => (.ok (), { d with nodes := d.nodes.insert place (.file contents) })

/-- Put a file at a path: it is made in the directory of the path first and moved from there. -/
def put (d : Disk) (p : Path) (contents : Stored) : Except FileError Unit × Disk :=
  match d.stage (stagingDirectory p) with
  | .error e => (.error e, d)
  | .ok () => d.land p contents

/-- Remove a file; directories are not removed. -/
def drop (d : Disk) (p : Path) : Except FileError Unit × Disk :=
  match d.approach p with
  | .error e => (.error e, d)
  | .ok (_, .itself) => (.error (.system .isDirectory), d)
  | .ok (_, .name _ _) =>
    match d.find p with
    | .error e => (.error e, d)
    | .ok (_, .directory) => (.error (.system .isDirectory), d)
    | .ok (place, .file _) => (.ok (), { d with nodes := d.nodes.erase place })

def makeDirectory (d : Disk) (p : Path) : Except FileError Unit × Disk :=
  match d.approach p with
  | .error e => (.error e, d)
  | .ok (_, .itself) => (.error (.system .alreadyThere), d)
  | .ok (dir, .name n _) =>
    if isTooLong n then (.error (.system .nameTooLong), d)
    else match d.node? (dir.child n) with
      | some _ => (.error (.system .alreadyThere), d)
      | none => (.ok (), { d with nodes := d.nodes.insert (dir.child n) .directory })

def isDirectory (d : Disk) (p : Path) : Bool :=
  match d.find p with
  | .ok (_, .directory) => true
  | _ => false

/-- Make a directory, where one that is there already is as good as a new one. -/
def ensureDirectory (d : Disk) (p : Path) : Except FileError Unit × Disk :=
  match d.makeDirectory p with
  | (.ok (), d) => (.ok (), d)
  | (.error e, d) => if d.isDirectory p then (.ok (), d) else (.error e, d)

/-- Make a directory and those it lies in, at most `depth` of them. -/
def makeDirectoriesWithin : Nat → Disk → Path → Except FileError Unit × Disk
  | 0, d, p => d.ensureDirectory p
  | depth + 1, d, p =>
    if p.text.toList = [] then (.ok (), d)
    else match d.makeDirectory p with
      | (.error (.system .noEntry), d) =>
        match p.parent? with
        | none => (.error (.system .noEntry), d)
        | some dir =>
          match makeDirectoriesWithin depth d dir with
          | (.ok (), d) => d.ensureDirectory p
          | failed => failed
      | _ => d.ensureDirectory p

/-- Make a directory and those it lies in. -/
def makeDirectories (d : Disk) (p : Path) : Except FileError Unit × Disk :=
  makeDirectoriesWithin (p.text.length + 1) d p

/-- Put a file at a path and make the directories that it lies in. -/
def plant (d : Disk) (p : Path) (contents : Stored) : Except FileError Unit × Disk :=
  match p.parent? with
  | none => d.land p contents
  | some dir =>
    match d.makeDirectories dir with
    | (.ok (), d) => d.land p contents
    | failed => failed

/-- The files below the working directory by their relative paths, in order. -/
def listing (d : Disk) : List (Path × Stored) :=
  d.nodes.entries.filterMap fun e =>
    match e.2 with
    | .directory => none
    | .file contents =>
      if d.home.names.isPrefixOf e.1.names then
        some (Path.ofSegments (e.1.names.drop d.home.names.length), contents)
      else none

instance : FileAccess Disk where
  read p := return (← get).textAt p
  write p text := modifyGet fun d => d.put p (.text text)
  present p := return (← get).has p
  remove p := modifyGet fun d => d.drop p
  makeDirs p := modifyGet fun d => d.makeDirectories p
  occupied d := d.nodes.size + d.home.names.length + 1

end Disk

end CodeReview
