import WeightedStore.Files.System

/-!
Changes to files as values, and computations that make changes. What was changed before a failure
stays changed.
-/

namespace WeightedStore

inductive FileChange
  /-- Makes one directory. -/
  | makeDirectory (path : Path)
  /-- Writes a file in a directory that is there. -/
  | write (path : Path) (bytes : List UInt8)
  deriving DecidableEq, Repr

namespace FileChange

def apply (files : FileSystem) : FileChange → Except FileFault FileSystem
  | makeDirectory path => files.makeOne path
  | write path bytes => files.write path bytes

end FileChange

structure Changed where
  files : FileSystem
  changes : List FileChange := []

abbrev Changing (ε : Type) := EStateM ε Changed

namespace Changing

def make (change : FileChange) : Changing FileFault Unit := fun c =>
  match change.apply c.files with
  | .ok files => .ok () ⟨files, c.changes ++ [change]⟩
  | .error fault => .error fault c

def makeOrFind (p : Path) : Changing FileFault Unit := fun c =>
  match make (.makeDirectory p) c with
  | .ok _ c => .ok () c
  | .error fault c => if c.files.isDirectory p then .ok () c else .error fault c

def makeAll (p : Path) : Changing FileFault Unit := fun c =>
  if p.steps = [] then .ok () c
  else match makeOrFind p c with
    | .ok _ c => .ok () c
    | .error .notFound c => match makeAll p.parent c with
      | .ok _ c => makeOrFind p c
      | failed => failed
    | failed => failed
termination_by p.steps.length
decreasing_by exact Path.length_parent_lt ‹_›

def atPath (path : String) (run : Path → Changing FileFault Unit) : Changing FileFault Unit :=
  fun c => match Path.read path with
    | .ok p => run p c
    | .error fault => .error fault c

def makeDirectory (path : String) : Changing FileFault Unit := atPath path makeAll

def write (path : String) (bytes : List UInt8) : Changing FileFault Unit :=
  atPath path fun p => make (.write p bytes)

end Changing

end WeightedStore
