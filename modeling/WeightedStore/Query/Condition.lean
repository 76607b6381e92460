import WeightedStore.Attribute.Basic
import WeightedStore.Query.Operator
import WeightedStore.Text.Pieces

/-!
Conditions on an attribute value: an operator with the operand it was given, read as values.
-/

namespace WeightedStore

inductive Condition (α : Type)
  | less (v : α)
  | atMost (v : α)
  | equal (v : α)
  | greater (v : α)
  | atLeast (v : α)
  | different (v : α)
  | among (vs : List α)
  | outside (vs : List α)
  deriving DecidableEq

namespace Condition

variable {α : Type} [Attribute α]

def holds : Condition α → α → Bool
  | less v, x => Attribute.before x v
  | atMost v, x => Attribute.atMost x v
  | equal v, x => x = v
  | greater v, x => Attribute.before v x
  | atLeast v, x => Attribute.atMost v x
  | different v, x => x ≠ v
  | among vs, x => x ∈ vs
  | outside vs, x => x ∉ vs

def readValue (text : String) : Except String α :=
  match Attribute.read? text with
  | some v => .ok v
  | none => .error text

def readValues : List String → Except String (List α)
  | [] => .ok []
  | text :: rest => do
    let v ← readValue text
    let vs ← readValues rest
    return v :: vs

def read (op : Operator) (operand : String) : Except String (Condition α) :=
  match op with
  | .less => less <$> readValue operand
  | .lessEqual => atMost <$> readValue operand
  | .equal => equal <$> readValue operand
  | .greater => greater <$> readValue operand
  | .greaterEqual => atLeast <$> readValue operand
  | .notEqual => different <$> readValue operand
  | .isIn => among <$> readValues (Text.items operand)
  | .notIn => outside <$> readValues (Text.items operand)

end Condition

end WeightedStore
