import WeightedStore.Binary.Arithmetic

/-!
Decimal numerals: digits times a power of ten, read from text and rounded once to the nearest datum
of a format.
-/

namespace WeightedStore

-- powers as the core library has them, whatever else is imported
attribute [local instance (high)] instPowNat

structure Numeral where
  digits : Nat
  exponent : Int
  deriving DecidableEq, Repr

namespace Numeral

def numerator (x : Numeral) : Nat := x.digits * 10 ^ x.exponent.toNat

def denominator (x : Numeral) : Nat := 10 ^ (-x.exponent).toNat

def readExponent : List Char → Option Int
  | [] => some 0
  | c :: rest =>
    if c = 'e' ∨ c = 'E' then
      match rest with
      | '-' :: ds => magnitude ds |>.map (- ·)
      | '+' :: ds => magnitude ds
      | ds => magnitude ds
    else none
where
  magnitude (ds : List Char) : Option Int :=
    if ds ≠ [] ∧ ds.all Char.isDigit then some (Nat.ofDigitChars 10 ds 0) else none

def splitFraction : List Char → List Char × List Char
  | '.' :: rest => rest.span Char.isDigit
  | rest => ([], rest)

def read (cs : List Char) : Option Numeral :=
  let (whole, rest) := cs.span Char.isDigit
  let (fraction, rest) := splitFraction rest
  if whole = [] ∧ fraction = [] then none
  else
    let digits := Nat.ofDigitChars 10 (whole ++ fraction) 0
    (readExponent rest).map fun e => ⟨digits, e - fraction.length⟩

end Numeral

inductive NumberFault
  | empty
  | malformed
  deriving DecidableEq, Repr

def NumberFault.message : NumberFault → String
  | empty => "cannot parse float from empty string"
  | malformed => "invalid float literal"

namespace Floating

variable {f : Format}

/-- The datum nearest to a decimal number. Exponents that leave the format on either side are
settled without working out the power of ten. -/
def ofNumeral (negative : Bool) (x : Numeral) : Floating f :=
  let reach : Nat := 2 ^ f.exponent
  if x.digits = 0 then ofWord negative 0
  else if (reach : Int) < x.exponent then infinity negative
  else if x.exponent + (Nat.toDigits 10 x.digits).length < -(reach : Int) then ofWord negative 0
  else ofRatio negative (x.numerator * f.one) x.denominator

def readUnsigned (negative : Bool) (cs : List Char) : Option (Floating f) :=
  let word := String.ofList (cs.map Char.toLower)
  if word = "inf" ∨ word = "infinity" then some (infinity negative)
  else if word = "nan" then some (nan negative)
  else (Numeral.read cs).map (ofNumeral negative)

def readChars : List Char → Option (Floating f)
  | '-' :: cs => readUnsigned true cs
  | '+' :: cs => readUnsigned false cs
  | cs => readUnsigned false cs

def read (text : String) : Except NumberFault (Floating f) :=
  if text.isEmpty then .error .empty
  else match readChars text.toList with
    | some x => .ok x
    | none => .error .malformed

end Floating

end WeightedStore
