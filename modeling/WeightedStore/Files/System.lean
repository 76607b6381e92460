import WeightedStore.Files.Path
import WeightedStore.Files.Tree

/-!
File systems: reading, listing and writing at a path, with the faults that are reported. Each step
of a path is made from a directory that is there, also a step back.
-/

namespace WeightedStore

structure FileSystem where
  root : FileTree
  /-- The names from the root to where the paths start that do not start from the root. -/
  place : List String := []

namespace FileSystem

def start (files : FileSystem) (p : Path) : List String := if p.fromRoot then [] else files.place

def entriesAt (files : FileSystem) (names : List String) :
    Except FileFault (List (String × FileTree)) := do
  (← files.root.lookup names).entries

def entry? (name : String) (entries : List (String × FileTree)) :
    Except FileFault (Option FileTree) :=
  if Path.nameLimit < name.utf8ByteSize then .error .nameTooLong
  else .ok (FileTree.child? name entries)

def follow (files : FileSystem) (names : List String) : List Step → Except FileFault (List String)
  | [] => .ok names
  | step :: rest => do
    let entries ← files.entriesAt names
    match step with
    | .here => files.follow names rest
    | .up => files.follow names.dropLast rest
    | .name name => match ← entry? name entries with
      | none => .error .notFound
      | some _ => files.follow (names ++ [name]) rest

def get (files : FileSystem) (p : Path) : Except FileFault FileTree := do
  files.root.lookup (← files.follow (files.start p) p.walk)

def isDirectory (files : FileSystem) (p : Path) : Bool :=
  match files.get p with
  | .ok (.directory _) => true
  | _ => false

def read (files : FileSystem) (path : String) : Except FileFault (List UInt8) := do
  match ← files.get (← Path.read path) with
  | .file bytes => .ok bytes
  | .directory _ => .error .isDirectory

def readText (files : FileSystem) (path : String) : Except FileFault String := do
  let bytes ← files.read path
  match String.fromUTF8? ⟨bytes.toArray⟩ with
  | some text => .ok text
  | none => .error .invalidText

def list (files : FileSystem) (path : String) : Except FileFault (List (String × FileTree)) := do
  return FileTree.sortByName (← (← files.get (← Path.read path)).entries)

def front (files : FileSystem) (p : Path) : Except FileFault (List String × Option Step) := do
  return (← files.follow (files.start p) p.steps.dropLast, p.steps.getLast?)

def write (files : FileSystem) (p : Path) (bytes : List UInt8) : Except FileFault FileSystem := do
  let (names, last?) ← files.front p
  let entries ← files.entriesAt names
  match last? with
  | some (.name name) =>
    if p.slashed then .error .isDirectory
    else match ← entry? name entries with
      | some (.directory _) => .error .isDirectory
      | _ => return { files with root := ← FileTree.put name (.file bytes) names files.root }
  | _ => .error .isDirectory

def makeOne (files : FileSystem) (p : Path) : Except FileFault FileSystem := do
  let (names, last?) ← files.front p
  let entries ← files.entriesAt names
  match last? with
  | some (.name name) => match ← entry? name entries with
    | some _ => .error .alreadyThere
    | none => return { files with root := ← FileTree.put name (.directory []) names files.root }
  | _ => .error .alreadyThere

end FileSystem

end WeightedStore
