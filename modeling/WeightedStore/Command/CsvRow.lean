import WeightedStore.Attribute.Instances
import WeightedStore.Command.Failure
import WeightedStore.Index.Range

/-!
Rows of a range index as comma-separated text: a line for each row, with its id, its value and its
weight. Blank lines and lines of a comment say nothing.
-/

namespace WeightedStore

abbrev CsvRow := WeightedRow UInt64 Binary32

namespace CsvRow

def badField (line : Nat) (name text cause : String) : Failure :=
  ⟨s!"line {line}: bad {name} `{text}`", [cause]⟩

def readLine (line : Nat) (cs : List Char) : Except Failure CsvRow := do
  match (Text.piecesBy (· = ',') cs).map Text.trimChars with
  | [id, value, weight] =>
    let (value, weight) := (String.ofList value, String.ofList weight)
    let id ← (Text.readNat (UInt64.size - 1) id).mapError fun fault =>
      badField line "id" (String.ofList id) fault.message
    return {
      id := UInt64.ofNat id
      value := ← (Floating.read value).mapError (badField line "value" value ·.message)
      weight := ← (Floating.read weight).mapError (badField line "weight" weight ·.message) }
  | _ => .error ⟨s!"line {line}: expected `id,value,weight`, got `{String.ofList cs}`", []⟩

/-- The lines with a row, numbered from one, without the blanks at their ends. -/
def dataLines (text : String) : List (Nat × List Char) :=
  ((Text.piecesBy (· = '\n') text.toList).zipIdx 1).filterMap fun (line, number) =>
    match Text.trimChars line with
    | [] => none
    | '#' :: _ => none
    | cs => some (number, cs)

def readAll (text : String) : Except Failure (List CsvRow) :=
  (dataLines text).mapM fun (number, cs) => readLine number cs

def indexOf (name text : String) : Except Failure (RangeIndex UInt64 Binary32) := do
  let rows ← readAll text
  (RangeIndex.build name ⟨0, 0⟩ (rows.map (·.id)) (rows.map (·.value))
    (rows.map (·.weight))).mapError Failure.ofStore

end CsvRow

end WeightedStore
