import WeightedStore.Neighborhood.Group
import WeightedStore.Node.Error
import WeightedStore.Weighted.Pool

/-!
Neighborhoods: the weighted neighbors of a node in groups, one for each edge type, and a pool of
the groups that draws an edge type.
-/

namespace WeightedStore

structure Neighborhood where
  groups : List NeighborGroup
  pool : Pool Nat
  deriving DecidableEq

namespace Neighborhood

def empty : Neighborhood := ⟨[], .empty⟩

/-- Why groups cannot be laid out one after the other from `start` on, the first of them being group
`g`: a weight that no neighbor may have, or an end that its 32 bits cannot say. -/
def refusal? (g start : Nat) : List (List (UInt64 × Binary32)) → Option NodeError
  | [] => none
  | group :: rest =>
    match Pool.firstBad? (group.map Prod.snd) with
    | some (i, w) => some (.invalidGroup g (.invalidWeight i w))
    | none =>
      let stop := start + group.length
      if stop < UInt32.size then refusal? (g + 1) stop rest
      else some (.invalidGroup 0 (.oversized stop))

/-- The edge types of the given number of groups. They have 32 bits with a sign; where these cannot
say the number itself, there are fewer edge types than groups. -/
def edgeTypesOf (count : Nat) : List Nat := List.range (Int32.ofNat count).toInt.toNat

def build (groups : List (List (UInt64 × Binary32))) : Except NodeError Neighborhood :=
  match refusal? 0 0 groups with
  | some e => .error e
  | none =>
    let groups := groups.map NeighborGroup.ofPairs
    match Pool.ofColumns (edgeTypesOf groups.length) (groups.map NeighborGroup.total) with
    | .ok pool => .ok ⟨groups, pool⟩
    | .error fault => .error (.invalidGroup 0 fault)

def ofLists (ids : List (List UInt64)) (weights : List (List Binary32)) :
    Except NodeError Neighborhood :=
  if ids.length ≠ weights.length then .error (.groupMismatch ids.length weights.length)
  else
    let pairs := ids.zip weights
    match pairs.zipIdx.find? fun ((is, ws), _) => is.length ≠ ws.length with
    | some ((is, ws), g) => .error (.invalidGroup g (.unequalColumns is.length ws.length))
    | none => build (pairs.map fun (is, ws) => is.zip ws)

def groupCount (a : Neighborhood) : Nat := a.groups.length

def neighborCount (a : Neighborhood) : Nat := (a.groups.flatMap NeighborGroup.members).length

def isEmpty (a : Neighborhood) : Bool := a.neighborCount = 0

def total (a : Neighborhood) : Binary32 := a.pool.total

def group? (a : Neighborhood) (edgeType : Int) : Option Nat :=
  if 0 ≤ edgeType ∧ edgeType < a.groupCount then some edgeType.toNat else none

def groupAt (a : Neighborhood) (g : Nat) : NeighborGroup := a.groups.getD g ⟨[]⟩

def weightOf (a : Neighborhood) (g : Nat) : Binary32 := a.pool.weights.getD g .zero

def groupWeight? (a : Neighborhood) (edgeType : Int) : Option Binary32 :=
  (a.group? edgeType).map a.weightOf

def resolve (a : Neighborhood) : List Int → Except NodeError (List Nat)
  | [] => .ok []
  | t :: rest => match a.group? t with
    | none => .error (.invalidEdgeType t a.groupCount)
    | some g => (g :: ·) <$> resolve a rest

def selected (a : Neighborhood) (edgeTypes : List Int) : Except NodeError (List Nat) := do
  let picked ← a.resolve edgeTypes
  return (List.range a.groupCount).filter (picked.contains ·)

/-- The groups of the edge types that exist, each where it is first asked for. -/
def requested (a : Neighborhood) (edgeTypes : List Int) : List Nat :=
  (edgeTypes.filterMap a.group?).eraseDups

def full (a : Neighborhood) (edgeTypes : List Int) : List Neighbor :=
  (a.requested edgeTypes).flatMap fun g => (a.groupAt g).neighbors g

end Neighborhood

end WeightedStore
