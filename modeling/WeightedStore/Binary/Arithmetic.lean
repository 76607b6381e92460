import WeightedStore.Binary.Format

/-!
Arithmetic on floating-point data. Each operation computes its exact result as a fraction of units
and rounds that once, to the nearest datum and an exact half to the even word. An operand that is
not a number is passed on quiet, the left one first; an operation without a result gives the
negative not-a-number.
-/

namespace WeightedStore

-- powers as the core library has them, whatever else is imported
attribute [local instance (high)] instPowNat

/-- The quotient rounded to the nearest integer, an exact half to the even one. -/
def roundDiv (n d : Nat) : Nat :=
  if 2 * (n % d) < d ∨ 2 * (n % d) = d ∧ n / d % 2 = 0 then n / d else n / d + 1

namespace Format

/-- The word nearest to `n / d` units; past the last finite word comes infinity. -/
def round (f : Format) (n d : Nat) : Nat :=
  let shift := (n / d).log2 - f.fraction
  min f.top (shift * 2 ^ f.fraction + roundDiv n (d * 2 ^ shift))

theorem round_le_top (f : Format) (n d : Nat) : f.round n d ≤ f.top := Nat.min_le_left _ _

theorem round_lt_words (f : Format) (n d : Nat) : f.round n d < f.words :=
  Nat.lt_of_le_of_lt (f.round_le_top n d) f.top_lt_words

end Format

namespace Floating

variable {f g : Format}

def ofRatio (negative : Bool) (n d : Nat) : Floating f := ofWord negative (f.round n d)

def ofNat (n : Nat) : Floating f := ofRatio false (n * f.one) 1

def quiet (x : Floating f) : Floating f := ofWord x.negative (x.word ||| 2 ^ (f.fraction - 1))

def opposite (x : Floating f) : Floating f :=
  if x.isNaN then x else ⟨!x.negative, x.word, x.word_lt⟩

def add (x y : Floating f) : Floating f :=
  if x.isNaN then x.quiet
  else if y.isNaN then y.quiet
  else if x.isInfinite then
    if y.isInfinite && x.negative != y.negative then nan true else x
  else if y.isInfinite then y
  else if x.negative = y.negative then ofRatio x.negative (x.units + y.units) 1
  else if y.units < x.units then ofRatio x.negative (x.units - y.units) 1
  else if x.units < y.units then ofRatio y.negative (y.units - x.units) 1
  else zero

def sub (x y : Floating f) : Floating f := x.add y.opposite

def mul (x y : Floating f) : Floating f :=
  let negative := x.negative != y.negative
  if x.isNaN then x.quiet
  else if y.isNaN then y.quiet
  else if x.isInfinite || y.isInfinite then
    if x.units = 0 || y.units = 0 then nan true else infinity negative
  else ofRatio negative (x.units * y.units) f.one

def div (x y : Floating f) : Floating f :=
  let negative := x.negative != y.negative
  if x.isNaN then x.quiet
  else if y.isNaN then y.quiet
  else if x.isInfinite then
    if y.isInfinite then nan true else infinity negative
  else if y.isInfinite then ofWord negative 0
  else if y.units = 0 then
    if x.units = 0 then nan true else infinity negative
  else ofRatio negative (x.units * f.one) y.units

instance : Add (Floating f) := ⟨add⟩

instance : Sub (Floating f) := ⟨sub⟩

instance : Mul (Floating f) := ⟨mul⟩

instance : Div (Floating f) := ⟨div⟩

/-- Whether both are numbers and the left one is less; the two zeros are equal. -/
def below (x y : Floating f) : Bool := !x.isNaN && !y.isNaN && x.value < y.value

def atMost (x y : Floating f) : Bool := !x.isNaN && !y.isNaN && x.value ≤ y.value

def abs (x : Floating f) : Floating f := ⟨false, x.word, x.word_lt⟩

def max (x y : Floating f) : Floating f := if x.below y then y else x

def convert (x : Floating f) : Floating g :=
  if x.isNaN then nan x.negative
  else if x.isInfinite then infinity x.negative
  else ofRatio x.negative (x.units * g.one) f.one

/-- The number held between zero and one; negative zero is left alone. -/
def clampUnit (x : Floating f) : Floating f :=
  if x.below zero then zero else if (ofNat 1 : Floating f).below x then ofNat 1 else x

/-- The sum from left to right. It starts at negative zero, which no summand notices. -/
def sum (xs : List (Floating f)) : Floating f := xs.foldl (· + ·) negativeZero

def isWeight (x : Floating f) : Bool := x.isFinite && !x.below zero

end Floating

end WeightedStore
