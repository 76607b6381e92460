import WeightedStore.Json.Basic

/-!
Reading JSON texts. A reader takes characters off the front of a text and answers what it read and
the rest; `fuel` bounds the steps and is never short when it is the length of the text.
-/

namespace WeightedStore.Json

def isSpace (c : Char) : Bool := c = ' ' || c = '\n' || c = '\t' || c = '\r'

def skip (cs : List Char) : List Char := cs.dropWhile isSpace

def hexDigit? (c : Char) : Option Nat :=
  if c.isDigit then some (c.toNat - '0'.toNat)
  else if 'a' ≤ c ∧ c ≤ 'f' then some (c.toNat - 'a'.toNat + 10)
  else if 'A' ≤ c ∧ c ≤ 'F' then some (c.toNat - 'A'.toNat + 10)
  else none

def unit? : List Char → Option (Nat × List Char)
  | a :: b :: c :: d :: rest => do
    let digits ← [a, b, c, d].mapM hexDigit?
    return (digits.foldl (fun n digit => 16 * n + digit) 0, rest)
  | _ => none

def simpleEscape? : Char → Option Char
  | '"' => some '"'
  | '\\' => some '\\'
  | '/' => some '/'
  | 'b' => some '\x08'
  | 'f' => some '\x0c'
  | 'n' => some '\n'
  | 'r' => some '\r'
  | 't' => some '\t'
  | _ => none

inductive Piece
  | char (c : Char)
  | half (unit : Nat)

def isHigh (u : Nat) : Bool := 0xd800 ≤ u && u < 0xdc00

def isLow (u : Nat) : Bool := 0xdc00 ≤ u && u < 0xe000

/-- The text of pieces, two halves that belong together making one character. -/
def textOf : List Piece → Option (List Char)
  | [] => some []
  | .char c :: rest => (textOf rest).map (c :: ·)
  | .half high :: .half low :: rest =>
    if isHigh high && isLow low then
      (textOf rest).map (Char.ofNat (0x10000 + (high - 0xd800) * 0x400 + (low - 0xdc00)) :: ·)
    else none
  | .half _ :: _ => none

def readPieces : Nat → List Char → Option (List Piece × List Char)
  | 0, _ => none
  | fuel + 1, cs => match cs with
    | [] => none
    | '"' :: rest => some ([], rest)
    | '\\' :: 'u' :: rest => do
      let (unit, rest) ← unit? rest
      let piece := if isHigh unit || isLow unit then .half unit else .char (Char.ofNat unit)
      let (pieces, rest) ← readPieces fuel rest
      return (piece :: pieces, rest)
    | '\\' :: c :: rest => do
      let c ← simpleEscape? c
      let (pieces, rest) ← readPieces fuel rest
      return (.char c :: pieces, rest)
    | c :: rest =>
      if c.toNat < 0x20 || c = '\\' then none
      else do
        let (pieces, rest) ← readPieces fuel rest
        return (.char c :: pieces, rest)

def readString (cs : List Char) : Option (Option String × List Char) := do
  let (pieces, rest) ← readPieces (cs.length + 1) cs
  return ((textOf pieces).map String.ofList, rest)

def readDigits (cs : List Char) : Option (List Char × List Char) :=
  let (digits, rest) := cs.span Char.isDigit
  if digits = [] then none else some (digits, rest)

def readWhole : List Char → Option (List Char × List Char)
  | '0' :: rest => match rest with
    | c :: _ => if c.isDigit then none else some (['0'], rest)
    | [] => some (['0'], [])
  | cs => readDigits cs

def readFraction : List Char → Option (List Char × List Char)
  | '.' :: rest => do
    let (digits, rest) ← readDigits rest
    return ('.' :: digits, rest)
  | rest => some ([], rest)

def readPower : List Char → Option (List Char × List Char)
  | c :: rest =>
    if c = 'e' ∨ c = 'E' then
      match rest with
      | s :: more =>
        if s = '+' ∨ s = '-' then do
          let (digits, rest) ← readDigits more
          return (c :: s :: digits, rest)
        else do
          let (digits, rest) ← readDigits rest
          return (c :: digits, rest)
      | [] => none
    else some ([], c :: rest)
  | [] => some ([], [])

def readNumber (cs : List Char) : Option (List Char × List Char) := do
  let (sign, cs) := match cs with
    | '-' :: rest => (['-'], rest)
    | rest => ([], rest)
  let (whole, cs) ← readWhole cs
  let (fraction, cs) ← readFraction cs
  let (power, cs) ← readPower cs
  return (sign ++ whole ++ fraction ++ power, cs)

mutual

def readValue : Nat → List Char → Option (Json × List Char)
  | 0, _ => none
  | fuel + 1, cs => match cs with
    | 'n' :: 'u' :: 'l' :: 'l' :: rest => some (.null, rest)
    | 't' :: 'r' :: 'u' :: 'e' :: rest => some (.bool true, rest)
    | 'f' :: 'a' :: 'l' :: 's' :: 'e' :: rest => some (.bool false, rest)
    | '"' :: rest => do
      let (text, rest) ← readString rest
      return (.string text, rest)
    | '[' :: rest => match skip rest with
      | ']' :: rest => some (.array [], rest)
      | rest => do
        let (elements, rest) ← readElements fuel rest
        return (.array elements, rest)
    | '\x7b' :: rest => match skip rest with
      | '\x7d' :: rest => some (.object [], rest)
      | rest => do
        let (members, rest) ← readMembers fuel rest
        return (.object members, rest)
    | cs => do
      let (literal, rest) ← readNumber cs
      return (.number literal, rest)

def readElements : Nat → List Char → Option (List Json × List Char)
  | 0, _ => none
  | fuel + 1, cs => do
    let (element, rest) ← readValue fuel cs
    match skip rest with
    | ']' :: rest => return ([element], rest)
    | ',' :: rest =>
      let (elements, rest) ← readElements fuel (skip rest)
      return (element :: elements, rest)
    | _ => none

def readMembers : Nat → List Char → Option (List (Option String × Json) × List Char)
  | 0, _ => none
  | fuel + 1, cs => match cs with
    | '"' :: rest => do
      let (name, rest) ← readString rest
      match skip rest with
      | ':' :: rest =>
        let (value, rest) ← readValue fuel (skip rest)
        match skip rest with
        | '\x7d' :: rest => return ([(name, value)], rest)
        | ',' :: rest =>
          let (members, rest) ← readMembers fuel (skip rest)
          return ((name, value) :: members, rest)
        | _ => none
      | _ => none
    | _ => none

end

def read? (text : String) : Option Json := do
  let cs := text.toList
  let (value, rest) ← readValue (cs.length + 1) (skip cs)
  if skip rest = [] then some value else none

end WeightedStore.Json
