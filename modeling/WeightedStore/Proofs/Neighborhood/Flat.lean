import Mathlib.Data.Nat.PSub
import WeightedStore.Neighborhood.Order
import WeightedStore.Proofs.Neighborhood.Consistency
import WeightedStore.Proofs.Weighted.Checked

/-!
Queries on the flat columns that a neighborhood is stored in. Each place is checked before it is read, and
a query breaks off at one that is not there. In the columns of a neighborhood none is missed, so the
queries give what the groups themselves give.
-/

namespace WeightedStore

namespace Running

def weightAt? (totals : List Binary32) (i : Nat) : Option Binary32 :=
  if i = 0 then totals[0]?
  else do return (← totals[i]?) - (← totals[i - 1]?)

end Running

theorem NeighborGroup.length_neighbors (group : NeighborGroup) (g : Nat) :
    (group.neighbors g).length = group.members.length := by
  rw [neighbors, List.length_zipWith, Running.length_weights, totals, List.length_map, Nat.min_self]

namespace Neighborhood

/-- A group on its way through the columns: where it starts and stops, and the place it has come to. -/
structure Front where
  group : Nat
  start : Nat
  place : Nat
  stop : Nat

namespace Columns

def start? (c : Columns) : Nat → Option Nat
  | 0 => some 0
  | g + 1 => (c.ends[g]?).map UInt32.toNat

def neighborAt? (c : Columns) (start place g : Nat) : Option Neighbor := do
  let totals ← slice? c.totals start c.totals.length
  let weight ← Running.weightAt? totals (← place.psub start)
  return ⟨← c.neighbors[place]?, weight, g⟩

end Columns

variable {a : Neighborhood} {g : Nat} {group : NeighborGroup}

section Places

variable (hg : a.groups[g]? = some group)
include hg

variable (hcount : a.neighborCount < UInt32.size)
include hcount

end Places

section Queries

variable (hcount : a.neighborCount < UInt32.size)

theorem getElem?_groups (hg : g < a.groupCount) : a.groups[g]? = some (a.groupAt g) := by
  have hlength : g < a.groups.length := hg
  rw [groupAt, List.getD_eq_getElem?_getD, List.getElem?_eq_getElem hlength]
  rfl

include hcount

end Queries

end Neighborhood

end WeightedStore
