import WeightedStore.Weighted.Running

/-!
Groups of neighbors: the neighbors of one edge type in the order of their ids, with running totals
of their weights.
-/

namespace WeightedStore

structure Neighbor where
  id : UInt64
  weight : Binary32
  edgeType : Nat
  deriving DecidableEq

/-- So many neighbors have no room beside each other: a neighbor takes 16 bytes, and a size has a sign. -/
def Neighbor.tooMany : Nat := UInt64.size / 2 / 16

structure NeighborGroup where
  members : List (UInt64 × Binary32)
  deriving DecidableEq

namespace NeighborGroup

def totals (g : NeighborGroup) : List Binary32 := g.members.map Prod.snd

def total (g : NeighborGroup) : Binary32 := g.totals.getLastD .zero

def ofPairs (pairs : List (UInt64 × Binary32)) : NeighborGroup :=
  let sorted := pairs.mergeSort fun a b => a.1 ≤ b.1
  ⟨(sorted.map Prod.fst).zip (Running.totals (sorted.map Prod.snd))⟩

def neighbors (g : NeighborGroup) (edgeType : Nat) : List Neighbor :=
  List.zipWith (fun member weight => ⟨member.1, weight, edgeType⟩) g.members
    (Running.weights g.totals)

def firstFall? (g : NeighborGroup) : Option Nat :=
  (List.range g.totals.length).find? fun i =>
    let total := g.totals.getD i .zero
    !total.isFinite || total.below (Running.upTo g.totals i)

end NeighborGroup

end WeightedStore
