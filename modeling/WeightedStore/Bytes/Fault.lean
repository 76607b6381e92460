import WeightedStore.Decimal.Shortest

/-!
What can be wrong with columns that are stored or to be stored.
-/

namespace WeightedStore

inductive DataFault
  /-- Parallel columns of different lengths. -/
  | unequalColumns (ids weights : Nat)
  /-- A weight that is negative or not finite. -/
  | invalidWeight (position : Nat) (weight : Binary32)
  /-- A field that starts at `offset` and runs past the end of the data. -/
  | truncated (offset needed available : Nat)
  /-- A string, its length field at `offset`, that is no UTF-8. -/
  | invalidText (offset : Nat)
  /-- A column too long for its length field. -/
  | oversized (length : Nat)
  deriving DecidableEq

def DataFault.message : DataFault → String
  | unequalColumns ids weights => s!"ids and weights differ in length ({ids} vs {weights})"
  | invalidWeight position weight =>
    s!"weight {weight.text} at position {position} is negative or not finite"
  | truncated offset needed available =>
    s!"corrupt segment at offset {offset}: needed {needed} bytes, {available} available"
  | invalidText offset => s!"corrupt segment at offset {offset}: string is not valid utf-8"
  | oversized length => s!"array of {length} elements does not fit a u32 length prefix"

end WeightedStore
