import WeightedStore.Decimal.Numeral
import WeightedStore.Neighborhood.Basic
import WeightedStore.Node.Offsets

/-!
Neighborhoods as the flat columns they are stored in, and the checks that columns have to pass.
-/

namespace WeightedStore.Neighborhood

def totalsAgree (stored summed : Binary32) : Bool :=
  let tolerance : Binary32 := .ofNumeral false ⟨1, -4⟩
  Floating.zero.below stored = Floating.zero.below summed &&
    (stored - summed).abs.atMost (tolerance * stored.abs.max summed.abs)

def groupFault? (pool : Pool Nat) (start g : Nat) (group : NeighborGroup) : Option Inconsistency :=
  let stored := pool.weights.getD g .zero
  match group.firstFall? with
  | some i => some (.decreasingTotals g (start + i))
  | none =>
    if totalsAgree stored group.total then none
    else some (.differentTotals g stored group.total)

def groupsFault? (pool : Pool Nat) : Nat → Nat → List NeighborGroup → Option Inconsistency
  | _, _, [] => none
  | start, g, group :: rest =>
    (groupFault? pool start g group).or
      (groupsFault? pool (start + group.members.length) (g + 1) rest)

structure Columns where
  ids : List Int32
  weights : List Binary32
  ends : List UInt32
  neighbors : List UInt64
  totals : List Binary32

/-- The place that the number of a group stands for, in 64 bits that have no sign. -/
def placeOfNumber (number : Int32) : Nat := number.toInt64.toUInt64.toNat

def Columns.pool (c : Columns) : Pool Nat := .ofWeighted ((c.ids.map placeOfNumber).zip c.weights)

def columns (a : Neighborhood) : Columns where
  ids := (List.range a.groupCount).map Int32.ofNat
  weights := a.pool.weights
  ends := (Offsets.ends (a.groups.map NeighborGroup.members)).map UInt32.ofNat
  neighbors := a.groups.flatMap fun g => g.members.map Prod.fst
  totals := a.groups.flatMap NeighborGroup.totals

/-- The neighborhood that columns describe, if they agree with each other. Groups are numbered with 32
bits, so that the number of one behind as many as those can say without a sign is below zero. -/
def ofColumns (c : Columns) (pool : Pool Nat) : Except Inconsistency Neighborhood :=
  let ends := c.ends.map UInt32.toNat
  let last := ends.getLastD 0
  if ends.length ≠ c.ids.length then .error (.offsetCount ends.length c.ids.length)
  else match c.ids.zipIdx.find? fun (t, g) => t ≠ Int32.ofNat g with
  | some (t, g) => .error (.misplacedGroup g t.toInt)
  | none =>
    if (ends.zip ends.tail).any fun (e, next) => next < e then .error .decreasingOffsets
    else if last ≠ c.neighbors.length ∨ c.neighbors.length ≠ c.totals.length then
      .error (.unevenColumns last c.neighbors.length c.totals.length)
    else
      let groups := (Offsets.split ends (c.neighbors.zip c.totals)).map NeighborGroup.mk
      match groupsFault? pool 0 0 groups with
      | some fault => .error fault
      | none => .ok ⟨groups, pool⟩

end WeightedStore.Neighborhood
