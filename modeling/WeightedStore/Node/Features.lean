import WeightedStore.Node.Error
import WeightedStore.Node.Offsets

/-!
Features of a node: a list of values for each feature id, in three columns by type of value.
-/

namespace WeightedStore

structure FeatureColumn (α : Type) where
  lists : List (List α)
  deriving DecidableEq

namespace FeatureColumn

variable {α : Type}

def empty : FeatureColumn α := ⟨[]⟩

def ofLists (lists : List (List α)) : Except DataFault (FeatureColumn α) :=
  match (Offsets.ends lists).find? fun stop => Offsets.limit ≤ stop with
  | some stop => .error (.oversized stop)
  | none => .ok ⟨lists⟩

def count (c : FeatureColumn α) : Nat := c.lists.length

def values (c : FeatureColumn α) : List α := c.lists.flatten

def offsets (c : FeatureColumn α) : List Nat := Offsets.ends c.lists

def firstFall? (previous : Int) : List Int → Option (Int × Int)
  | [] => none
  | stop :: rest => if stop < previous then some (stop, previous) else firstFall? stop rest

def ofParts (offsets : List Int) (values : List α) : Except Inconsistency (FeatureColumn α) :=
  let last := offsets.getLastD 0
  match firstFall? 0 offsets with
  | some (stop, previous) => .error (.featureOffset stop previous)
  | none =>
    if last ≠ values.length then .error (.featureCount last values.length)
    else .ok ⟨Offsets.split (offsets.map Int.toNat) values⟩

def feature? (c : FeatureColumn α) (id : Int) : Option (List α) :=
  if id < 0 then none else c.lists[id.toNat]?

/-- For each id the number of its values, zero for one without a feature; and the values of all. -/
def get (c : FeatureColumn α) (ids : List Int) : List Nat × List α :=
  (ids.map fun id => ((c.feature? id).map List.length).getD 0,
    ids.flatMap fun id => (c.feature? id).getD [])

def getEach (c : FeatureColumn α) (ids : List Int) : List (List α) := ids.filterMap c.feature?

def longest (c : FeatureColumn α) : Nat := (c.lists.map List.length).foldl max 1

end FeatureColumn

structure Features where
  integers : FeatureColumn UInt64
  floats : FeatureColumn Binary32
  binaries : FeatureColumn UInt8
  deriving DecidableEq

namespace Features

def empty : Features := ⟨.empty, .empty, .empty⟩

def ofLists (integers : List (List UInt64)) (floats : List (List Binary32))
    (binaries : List (List UInt8)) : Except DataFault Features := do
  return ⟨← FeatureColumn.ofLists integers, ← FeatureColumn.ofLists floats,
    ← FeatureColumn.ofLists binaries⟩

end Features

end WeightedStore
