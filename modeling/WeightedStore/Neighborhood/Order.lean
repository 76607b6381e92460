import WeightedStore.Neighborhood.Basic
import WeightedStore.Neighborhood.Heap

/-!
Neighbors in an order across groups: merged by id, and the heaviest ones first.
-/

namespace WeightedStore.Neighborhood

/-- Takes the neighbor with the least id from the fronts of the lists, of equal ones the first. -/
def pop? : List (List Neighbor) → Option (Neighbor × List (List Neighbor))
  | [] => none
  | [] :: rest => (pop? rest).map fun (n, rest) => (n, [] :: rest)
  | (a :: as) :: rest => match pop? rest with
    | none => some (a, as :: rest)
    | some (b, others) =>
      if b.id < a.id then some (b, (a :: as) :: others) else some (a, as :: rest)

def interleave : Nat → List (List Neighbor) → List Neighbor
  | 0, _ => []
  | count + 1, lists => match pop? lists with
    | none => []
    | some (n, lists) => n :: interleave count lists

def sortedFull (a : Neighborhood) (edgeTypes : List Int) : List Neighbor :=
  let lists := (a.requested edgeTypes).map fun g => (a.groupAt g).neighbors g
  interleave lists.flatten.length lists

def lightness (n : Neighbor) : Int := n.weight.rank

/-- Keeps the `k` heaviest neighbors met. A later one takes a place only from a lighter one. -/
def keepHeaviest (k : Nat) (kept : Array Neighbor) (n : Neighbor) : Array Neighbor :=
  if kept.size < k then Heap.push lightness kept n
  else match kept[0]? with
    | none => kept
    | some least =>
      if least.weight.below n.weight then
        Heap.push lightness (Heap.pop lightness kept) n
      else kept

/-- The `k` heaviest neighbors, the heaviest first. Room for them and one more is made before they are looked
at, however few they are. -/
def heaviestOf (neighbors : List Neighbor) (k : Nat) : Option (List Neighbor) :=
  if k = 0 then some []
  else if Neighbor.tooMany ≤ k + 1 then none
  else some ((neighbors.foldl (keepHeaviest k) #[]).toList.mergeSort fun m n =>
    n.weight.rank ≤ m.weight.rank)

def heaviest (a : Neighborhood) (edgeTypes : List Int) (k : Nat) :
    Except NodeError (Option (List Neighbor)) := do
  let groups ← a.selected edgeTypes
  return heaviestOf (groups.flatMap fun g => (a.groupAt g).neighbors g) k

end WeightedStore.Neighborhood
