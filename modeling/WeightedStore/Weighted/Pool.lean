import WeightedStore.Bytes.Fault
import WeightedStore.Weighted.Alias

/-!
Pools: items with a weight each, of which one is drawn in proportion to its weight.
-/

namespace WeightedStore

structure Pool (α : Type) where
  items : List α
  weights : List Binary32
  total : Binary32
  table : AliasTable
  deriving DecidableEq

namespace Pool

variable {α : Type}

def empty : Pool α := ⟨[], [], .zero, .empty⟩

def firstBad? (weights : List Binary32) : Option (Nat × Binary32) :=
  weights.zipIdx.findSome? fun (w, i) => if w.isWeight then none else some (i, w)

/-- The table of weights in relation to their total; without a positive total nothing is drawn. -/
def tableOf (weights : List Binary32) (total : Binary32) : AliasTable :=
  if Floating.zero.below total then .ofProbabilities (weights.map (· / total)) else .empty

def ofWeighted (pairs : List (α × Binary32)) : Pool α :=
  let weights := pairs.map Prod.snd
  ⟨pairs.map Prod.fst, weights, .sum weights, tableOf weights (.sum weights)⟩

def ofColumns (items : List α) (weights : List Binary32) : Except DataFault (Pool α) :=
  if items.length ≠ weights.length then .error (.unequalColumns items.length weights.length)
  else match firstBad? weights with
    | some (position, weight) => .error (.invalidWeight position weight)
    | none => .ok (.ofWeighted (items.zip weights))

def ofPairs (pairs : List (α × Binary32)) : Except DataFault (Pool α) :=
  ofColumns (pairs.map Prod.fst) (pairs.map Prod.snd)

def length (p : Pool α) : Nat := p.items.length

def pairs (p : Pool α) : List (α × Binary32) := p.items.zip p.weights

def get? (p : Pool α) (i : Nat) : Option (α × Binary32) := p.pairs[i]?

def drawable (p : Pool α) : Bool := Floating.zero.below p.total

def draw (p : Pool α) : Draw (Option (α × Binary32)) := do
  let column ← p.table.draw
  return column.bind p.get?

theorem firstBad?_eq_none_iff (weights : List Binary32) :
    firstBad? weights = none ↔ ∀ w ∈ weights, w.isWeight = true := by
  simp only [firstBad?, List.findSome?_eq_none_iff]
  constructor
  · intro h w hw
    obtain ⟨i, hi, rfl⟩ := List.mem_iff_getElem.1 hw
    have := h (weights[i], i) (List.mk_mem_zipIdx_iff_getElem?.2 (by simp))
    simpa using this
  · rintro h ⟨w, i⟩ hw
    simp [h w (List.fst_mem_of_mem_zipIdx hw)]

@[simp] theorem items_ofWeighted (xs : List (α × Binary32)) :
    (ofWeighted xs).items = xs.map Prod.fst := rfl

@[simp] theorem pairs_ofWeighted (xs : List (α × Binary32)) : (ofWeighted xs).pairs = xs := by
  simp [pairs, ofWeighted, List.zip_map']

theorem eq_ofWeighted_of_ofColumns {items : List α} {weights : List Binary32} {p : Pool α}
    (h : ofColumns items weights = .ok p) : p = .ofWeighted (items.zip weights) := by
  unfold ofColumns at h
  split at h
  · cases h
  · split at h
    · cases h
    · exact (Except.ok.inj h).symm

theorem ofColumns_eq_ok_iff (items : List α) (weights : List Binary32) :
    (∃ p, ofColumns items weights = .ok p) ↔
      items.length = weights.length ∧ ∀ w ∈ weights, w.isWeight = true := by
  rw [← firstBad?_eq_none_iff]
  unfold ofColumns
  split
  · simp_all
  · cases firstBad? weights <;> simp_all

end Pool

end WeightedStore
