import WeightedStore.Decimal.Shortest

/-!
Numbers with a fixed count of decimal places, an exact half going to the even digit.
-/

namespace WeightedStore.Floating

-- powers as the core library has them, whatever else is imported
attribute [local instance (high)] instPowNat

variable {f : Format}

def inPlaces (x : Floating f) (places : Nat) : Nat := roundDiv (x.units * 10 ^ places) f.one

def fixed (places : Nat) (x : Floating f) : String :=
  if x.isNaN then "NaN"
  else if x.isInfinite then String.ofList (signed x.negative "inf".toList)
  else String.ofList (signed x.negative (Numeral.mk (x.inPlaces places) (-places)).positional)

end WeightedStore.Floating
