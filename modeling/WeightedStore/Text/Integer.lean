/-!
Decimal integers in a text: digits after an optional sign, in a range of the reader's choice. The
first character that breaks a rule decides which fault is reported.
-/

namespace WeightedStore

inductive IntegerFault
  | empty
  | invalidDigit
  | tooLarge
  | tooSmall
  deriving DecidableEq, Repr

def IntegerFault.message : IntegerFault → String
  | empty => "cannot parse integer from empty string"
  | invalidDigit => "invalid digit found in string"
  | tooLarge => "number too large to fit in target type"
  | tooSmall => "number too small to fit in target type"

namespace Text

def readDigits (bound : Nat) (past : IntegerFault) : List Char → Nat → Except IntegerFault Nat
  | [], n => .ok n
  | c :: cs, n =>
    if c.isDigit then
      if bound < 10 * n + (c.toNat - '0'.toNat) then .error past
      else readDigits bound past cs (10 * n + (c.toNat - '0'.toNat))
    else .error .invalidDigit

/-- A number from zero to `bound`, after an optional plus sign. -/
def readNat (bound : Nat) : List Char → Except IntegerFault Nat
  | [] => .error .empty
  | ['+'] => .error .invalidDigit
  | '+' :: cs => readDigits bound .tooLarge cs 0
  | cs => readDigits bound .tooLarge cs 0

/-- A number from `-(bound + 1)` to `bound`, after an optional sign. -/
def readInt (bound : Nat) : List Char → Except IntegerFault Int
  | [] => .error .empty
  | ['+'] => .error .invalidDigit
  | ['-'] => .error .invalidDigit
  | '+' :: cs => (readDigits bound .tooLarge cs 0).map Int.ofNat
  | '-' :: cs => (readDigits (bound + 1) .tooSmall cs 0).map fun n => -Int.ofNat n
  | cs => (readDigits bound .tooLarge cs 0).map Int.ofNat

end Text

end WeightedStore
