/-!
Heaps: items in an array, none of which has a greater key than the two that stand below it, at twice
its place and one or two more.
-/

namespace WeightedStore.Heap

variable {α : Type}

def rise (key : α → Int) (items : Array α) (i : Nat) (hi : i < items.size) : Array α :=
  if hroot : i = 0 then items
  else
    have hup : (i - 1) / 2 < i := by omega
    if key items[(i - 1) / 2] ≤ key items[i] then items
    else rise key (items.swap ((i - 1) / 2) i) ((i - 1) / 2) (by rw [Array.size_swap]; omega)
termination_by i

/-- Moves an item down to the bottom, each time past the one below it that has the smaller key, the
second of equal ones, and from there up to its place. -/
def sink (key : α → Int) (items : Array α) (i : Nat) (hi : i < items.size) : Array α :=
  if hboth : 2 * i + 2 < items.size then
    if key items[2 * i + 2] ≤ key items[2 * i + 1] then
      sink key (items.swap i (2 * i + 2)) (2 * i + 2) (by rwa [Array.size_swap])
    else sink key (items.swap i (2 * i + 1)) (2 * i + 1) (by rw [Array.size_swap]; omega)
  else if hone : 2 * i + 1 < items.size then
    rise key (items.swap i (2 * i + 1)) (2 * i + 1) (by rwa [Array.size_swap])
  else rise key items i hi
termination_by items.size - i
decreasing_by all_goals rw [Array.size_swap]; omega

def push (key : α → Int) (items : Array α) (x : α) : Array α :=
  rise key (items.push x) items.size (by simp)

def pop (key : α → Int) (items : Array α) : Array α :=
  if h : 1 < items.size then
    sink key (items.swap 0 (items.size - 1)).pop 0 (by rw [Array.size_pop, Array.size_swap]; omega)
  else items.pop

end WeightedStore.Heap
