import WeightedStore.Files.Fault
import WeightedStore.Text.Pieces

/-!
Paths: the steps that a text with slashes tells, one after the other. Slashes in a row count as one,
and a slash at the end says that the path leads to a directory.
-/

namespace WeightedStore

inductive Step
  | here
  | up
  | name (name : String)
  deriving DecidableEq, Repr

structure Path where
  /-- Whether the steps start from the root and not from the place where one is. -/
  fromRoot : Bool
  steps : List Step
  slashed : Bool := false
  deriving DecidableEq, Repr

namespace Step

def ofText (text : String) : Step :=
  if text = "." then here else if text = ".." then up else name text

def text : Step → String
  | here => "."
  | up => ".."
  | name n => n

end Step

namespace Path

def sizeLimit : Nat := 4096

def nameLimit : Nat := 255

def ofText (text : String) : Path where
  fromRoot := text.startsWith "/"
  steps := ((Text.piecesBy (· = '/') text.toList).filter (· ≠ [])).map fun cs =>
    Step.ofText (String.ofList cs)
  slashed := text.endsWith "/"

def read (text : String) : Except FileFault Path :=
  if text = "" then .error .notFound
  else if sizeLimit ≤ text.utf8ByteSize then .error .nameTooLong
  else .ok (ofText text)

def text (p : Path) : String :=
  (if p.fromRoot then "/" else "") ++ "/".intercalate (p.steps.map Step.text) ++
    (if p.slashed && p.steps ≠ [] then "/" else "")

/-- The steps that have to be made to stand where the path leads. -/
def walk (p : Path) : List Step := if p.slashed then p.steps ++ [.here] else p.steps

def parent (p : Path) : Path where
  fromRoot := p.fromRoot
  steps := ((p.steps.reverse.dropWhile (· = .here)).tail.dropWhile (· = .here)).reverse

/-- A path and a name or path in it. A path from the root stands for itself. -/
def join (path name : String) : String :=
  if name.startsWith "/" ∨ path = "" then name
  else if path.endsWith "/" then path ++ name
  else path ++ "/" ++ name

theorem length_parent_lt {p : Path} (h : p.steps ≠ []) :
    p.parent.steps.length < p.steps.length := by
  have hd : ∀ steps : List Step, (steps.dropWhile (· = .here)).length ≤ steps.length :=
    fun steps => (List.dropWhile_sublist _).length_le
  have hp : 0 < p.steps.length := List.length_pos_iff.2 h
  have hl := hd p.steps.reverse
  have ht := hd (p.steps.reverse.dropWhile (· = .here)).tail
  simp only [parent, List.length_reverse, List.length_tail] at hl ht ⊢
  omega

end Path

end WeightedStore
