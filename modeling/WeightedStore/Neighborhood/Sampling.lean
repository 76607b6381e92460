import WeightedStore.Neighborhood.Basic

/-!
Drawing neighbors by weight: a group from the pool of groups, then a neighbor of the group.
-/

namespace WeightedStore.Neighborhood

/-- Draws a neighbor of a group. In a group that is not there the draw breaks off. -/
def drawIn (a : Neighborhood) (g : Nat) : Draw (Option Neighbor) :=
  match a.groups[g]? with
  | none => failure
  | some group => do
    let place ← Running.select group.totals 0 group.members.length
    return place.bind fun i => (group.neighbors g)[i]?

theorem drawIn_of_getElem? {a : Neighborhood} {g : Nat} {group : NeighborGroup}
    (h : a.groups[g]? = some group) : a.drawIn g = do
      let place ← Running.select group.totals 0 group.members.length
      return place.bind fun i => (group.neighbors g)[i]? := by
  rw [drawIn, h]

def allowedMisses : Nat := 64

/-- Draws `wanted` neighbors with `drawIn` from groups that `pick` names. None are returned when it
names no group or one without weight more often than allowed. That there is room for so many neighbors is
asked before, by `sampleInRoom`. -/
def drawMany {m : Type → Type} [Monad m] (pick : m (Option Nat))
    (drawIn : Nat → m (Option Neighbor)) (misses wanted : Nat) : m (Option (List Neighbor)) :=
  match wanted with
  | 0 => return some []
  | wanted + 1 => do
    match ← pick with
    | none => return none
    | some g =>
      match ← drawIn g with
      | some n => return (← drawMany pick drawIn misses wanted).map (n :: ·)
      | none =>
        match misses with
        | 0 => return none
        | misses + 1 => drawMany pick drawIn misses (wanted + 1)
termination_by (misses, wanted)

def poolOf (a : Neighborhood) (groups : List Nat) : Pool Nat :=
  if groups = [] ∨ groups.length = a.groupCount then a.pool
  else .ofWeighted (groups.map fun g => (g, a.weightOf g))

/-- How groups of a set are picked, if there is anything to draw. The empty set stands for all groups. -/
def picker? (a : Neighborhood) (groups : List Nat) (count : Nat) : Option (Draw (Option Nat)) :=
  if count = 0 ∨ a.groupCount = 0 then none
  else match groups with
  | [g] => if (a.weightOf g).atMost .zero then none else some (pure (some g))
  | _ =>
    if (a.poolOf groups).total.atMost .zero then none
    else some do return (← (a.poolOf groups).draw).map Prod.fst

def sampleGroups (a : Neighborhood) (groups : List Nat) (count : Nat) : Draw (List Neighbor) :=
  match a.picker? groups count with
  | none => return []
  | some pick => do return (← drawMany pick a.drawIn allowedMisses count).getD []

/-- Draws from the groups of edge types, however much room what is wanted takes. -/
def sample (a : Neighborhood) (edgeTypes : List Int) (count : Nat) :
    Except NodeError (Draw (List Neighbor)) := do
  return a.sampleGroups (← a.selected edgeTypes) count

/-- Draws from the groups of edge types. Room for all that is wanted is made before the first group is
picked, and nothing is answered where there is none. -/
def sampleInRoom (a : Neighborhood) (edgeTypes : List Int) (count : Nat) :
    Except NodeError (Option (Draw (List Neighbor))) := do
  let groups ← a.selected edgeTypes
  return if (a.picker? groups count).isSome ∧ Neighbor.tooMany ≤ count then none
    else some (a.sampleGroups groups count)

theorem sampleInRoom_of_lt (a : Neighborhood) (edgeTypes : List Int) {count : Nat}
    (h : count < Neighbor.tooMany) :
    a.sampleInRoom edgeTypes count = some <$> a.sample edgeTypes count := by
  rw [sampleInRoom, sample]
  cases a.selected edgeTypes with
  | error e => rfl
  | ok groups => exact congrArg Except.ok (if_neg fun hmany => Nat.not_le.2 h hmany.2)

end WeightedStore.Neighborhood
