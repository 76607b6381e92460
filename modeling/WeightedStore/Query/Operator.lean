import WeightedStore.Text.Blank

/-!
The search operators and their spellings: a name in capitals and, for those that take one operand,
a mnemonic of two letters.
-/

namespace WeightedStore

inductive Operator
  | less
  | lessEqual
  | equal
  | greater
  | greaterEqual
  | notEqual
  | isIn
  | notIn
  deriving DecidableEq, Repr

namespace Operator

def all : List Operator :=
  [less, lessEqual, equal, greater, greaterEqual, notEqual, isIn, notIn]

def name : Operator → String
  | less => "LESS"
  | lessEqual => "LESS_EQ"
  | equal => "EQ"
  | greater => "GREATER"
  | greaterEqual => "GREATER_EQ"
  | notEqual => "NOT_EQ"
  | isIn => "IN"
  | notIn => "NOT_IN"

def mnemonic? : Operator → Option String
  | less => some "lt"
  | lessEqual => some "le"
  | equal => some "eq"
  | greater => some "gt"
  | greaterEqual => some "ge"
  | notEqual => some "ne"
  | isIn | notIn => none

def takesList : Operator → Bool
  | isIn | notIn => true
  | _ => false

def asksOrder : Operator → Bool
  | less | lessEqual | greater | greaterEqual => true
  | _ => false

def spelt (op : Operator) (word : String) : Bool := op.name = word || op.mnemonic? = some word

def read? (text : String) : Option Operator := all.find? (·.spelt (Text.trim text))

def unknownMessage (text : String) : String := s!"unknown search operator `{Text.trim text}`"

theorem mem_all (op : Operator) : op ∈ all := by
  cases op <;> decide

theorem read?_name (op : Operator) : read? op.name = some op := by
  cases op <;> decide +kernel

end Operator

end WeightedStore
