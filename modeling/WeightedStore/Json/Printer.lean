import WeightedStore.Decimal.Shortest
import WeightedStore.Json.Basic

/-!
Writing JSON texts, indented by two for each level.
-/

namespace WeightedStore.Json

def escape (c : Char) : List Char :=
  if c = '"' then ['\\', '"']
  else if c = '\\' then ['\\', '\\']
  else if c = '\n' then ['\\', 'n']
  else if c = '\r' then ['\\', 'r']
  else if c = '\t' then ['\\', 't']
  else if c = '\x08' then ['\\', 'b']
  else if c = '\x0c' then ['\\', 'f']
  else if c.toNat < 0x20 then
    ['\\', 'u', '0', '0', Nat.digitChar (c.toNat / 16), Nat.digitChar (c.toNat % 16)]
  else [c]

def quote (text : String) : List Char := '"' :: (text.toList.flatMap escape ++ ['"'])

def newLine (level : Nat) : List Char := '\n' :: List.replicate (2 * level) ' '

mutual

def write (level : Nat) : Json → List Char
  | .null => "null".toList
  | .bool true => "true".toList
  | .bool false => "false".toList
  | .number literal => literal
  | .string text => quote (text.getD "")
  | .array [] => "[]".toList
  | .array (e :: es) =>
    '[' :: newLine (level + 1) ++ write (level + 1) e ++ writeElements (level + 1) es ++
      newLine level ++ [']']
  | .object [] => ['\x7b', '\x7d']
  | .object ((name, value) :: members) =>
    '\x7b' :: newLine (level + 1) ++ quote (name.getD "") ++ [':', ' '] ++
      write (level + 1) value ++ writeMembers (level + 1) members ++ newLine level ++ ['\x7d']

def writeElements (level : Nat) : List Json → List Char
  | [] => []
  | e :: es => ',' :: newLine level ++ write level e ++ writeElements level es

def writeMembers (level : Nat) : List (Option String × Json) → List Char
  | [] => []
  | (name, value) :: members =>
    ',' :: newLine level ++ quote (name.getD "") ++ [':', ' '] ++ write level value ++
      writeMembers level members

end

def text (value : Json) : String := String.ofList (write 0 value)

/-- The literal of a finite number: with a point from a millionth up to thirteen digits before it,
and with an exponent beyond. A number halfway between two shortest literals gets the even one. -/
def floatLiteral (x : Binary32) : List Char :=
  let d := x.shortest .even
  let point : Int := d.exponent + (Nat.toDigits 10 d.digits).length
  let magnitude :=
    if x.units = 0 then "0.0".toList
    else if 0 ≤ d.exponent ∧ point ≤ 13 then d.positional ++ ['.', '0']
    else if -6 < point ∧ point ≤ 13 then d.positional
    else d.scientific
  Floating.signed x.negative magnitude

/-- A number; what is no finite number is null. -/
def ofFloat (x : Binary32) : Json := if x.isFinite then .number (floatLiteral x) else .null

end WeightedStore.Json
