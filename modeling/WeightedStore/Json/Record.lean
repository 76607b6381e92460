import WeightedStore.Json.Basic

/-!
Records and enumerations in JSON. A record is an object with its fields by name, other names being
ignored, or an array with its fields in order. A case of an enumeration is its name, alone or as the
name of a lone member that is null.
-/

namespace WeightedStore.Json

def case? {α : Type} (all : List α) (name : α → String) : Json → Option α
  | .string (some text) => all.find? fun x => name x = text
  | .object [(some text, .null)] => all.find? fun x => name x = text
  | _ => none

def named (members : List (Option String × Json)) (name : String) : List Json :=
  (members.filter fun (n, _) => n = some name).map Prod.snd

/-- The values of a record's fields, where given. A field must not be given twice, and all names of
the record have to be texts. -/
def fields? (names : List String) : Json → Option (List (Option Json))
  | .object members =>
    if members.any fun (name, _) => name.isNone then none
    else names.mapM fun name => match named members name with
      | [] => some none
      | [value] => some (some value)
      | _ => none
  | .array elements =>
    if names.length < elements.length then none
    else some ((elements.map some) ++ List.replicate (names.length - elements.length) none)
  | _ => none

def optional {α : Type} (default : α) (read : Json → Option α) : Option Json → Option α
  | none => some default
  | some value => read value

def required {α : Type} (read : Json → Option α) (value : Option Json) : Option α :=
  value.bind read

end WeightedStore.Json
