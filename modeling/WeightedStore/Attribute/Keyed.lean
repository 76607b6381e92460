import WeightedStore.Attribute.Basic

/-!
Entries under keys, one for each key, in the order of the keys.
-/

namespace WeightedStore.Keyed

variable {κ β : Type} [Attribute κ]

def get? (key : κ) (entries : List (κ × β)) : Option β :=
  (entries.find? fun (k, _) => k = key).map Prod.snd

/-- Puts an entry in the place of its key; one that is there gives way to it. -/
def put (key : κ) (x : β) : List (κ × β) → List (κ × β)
  | [] => [(key, x)]
  | (k, y) :: rest =>
    if k = key then (key, x) :: rest
    else if Attribute.before key k then (key, x) :: (k, y) :: rest
    else (k, y) :: put key x rest

end WeightedStore.Keyed
