/-!
JSON values. The members of an object keep their order and may repeat a name, and a number is kept
as it is written. Where a text is expected there may be none, if the escapes of the string name half
a surrogate pair.
-/

namespace WeightedStore

inductive Json
  | null
  | bool (b : Bool)
  | number (literal : List Char)
  | string (text : Option String)
  | array (elements : List Json)
  | object (members : List (Option String × Json))

namespace Json

def ofString (text : String) : Json := .string (some text)

def ofFields (fields : List (String × Json)) : Json :=
  .object (fields.map fun (name, value) => (some name, value))

def ofNat (n : Nat) : Json := .number (Nat.toDigits 10 n)

def natural? : Json → Option Nat
  | .number literal =>
    if literal.all Char.isDigit then some (Nat.ofDigitChars 10 literal 0) else none
  | _ => none

def bool? : Json → Option Bool
  | .bool b => some b
  | _ => none

end Json

end WeightedStore
