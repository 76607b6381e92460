import Mathlib.Data.List.Permutation
import WeightedStore.Attribute.Basic

/-!
Stable sorting by a key. Items of one key form a run, which sorting keeps as it is, and an ordered
list is known from its runs. So sorting the pieces of a list first changes nothing in the end.
-/

namespace WeightedStore.Attribute

variable {β κ : Type} [Attribute κ] {key : β → κ} {xs ys : List β}

abbrev OrderedBy (key : β → κ) (xs : List β) : Prop :=
  xs.Pairwise fun a b => atMost (key a) (key b) = true

/-- The items in the order of their keys, items of one key in the order they had. -/
abbrev sortBy (key : β → κ) (xs : List β) : List β :=
  xs.mergeSort fun a b => atMost (key a) (key b)

/-- The items of one key, in the order they have. -/
def run (key : β → κ) (k : κ) (xs : List β) : List β := xs.filter fun x => key x = k

theorem mem_run {k : κ} {x : β} : x ∈ run key k xs ↔ x ∈ xs ∧ key x = k := by
  simp [run]

theorem run_cons_self (key : β → κ) (x : β) (xs : List β) :
    run key (key x) (x :: xs) = x :: run key (key x) xs := by
  simp [run]

theorem run_cons_of_ne {k : κ} {x : β} (h : key x ≠ k) (xs : List β) :
    run key k (x :: xs) = run key k xs := by
  simp [run, h]

@[simp] theorem run_append (k : κ) (xs ys : List β) :
    run key k (xs ++ ys) = run key k xs ++ run key k ys := List.filter_append _ _

theorem orderedBy_sortBy (key : β → κ) (xs : List β) : OrderedBy key (sortBy key xs) :=
  List.pairwise_mergeSort (fun a b c => atMost_trans (key a) (key b) (key c))
    (fun a b => atMost_total (key a) (key b)) xs

theorem sortBy_of_orderedBy (h : OrderedBy key xs) : sortBy key xs = xs :=
  List.mergeSort_of_pairwise h

@[simp] theorem run_sortBy (k : κ) (xs : List β) : run key k (sortBy key xs) = run key k xs := by
  have hperm : (run key k (sortBy key xs)).Perm (run key k xs) :=
    (List.mergeSort_perm xs _).filter _
  have hordered : OrderedBy key (run key k xs) :=
    List.pairwise_of_forall_mem_list fun a ha b hb => by
      rw [(mem_run.1 ha).2, (mem_run.1 hb).2]
      exact atMost_refl k
  -- a run is in order as it stands, so that a stable sort leaves it a sublist
  have hsub : (run key k xs).Sublist (sortBy key xs) :=
    List.sublist_mergeSort (fun a b c => atMost_trans (key a) (key b) (key c))
      (fun a b => atMost_total (key a) (key b)) hordered List.filter_sublist
  have hrun : (run key k xs).Sublist (run key k (sortBy key xs)) := by
    have h := hsub.filter fun x => key x = k
    simpa only [run, List.filter_filter, Bool.and_self] using h
  exact (hrun.eq_of_length_le (Nat.le_of_eq hperm.length_eq)).symm

theorem atMost_of_mem {x y : β} (h : OrderedBy key (x :: xs)) (hy : y ∈ x :: xs) :
    atMost (key x) (key y) = true := by
  rcases List.mem_cons.1 hy with rfl | hy
  · exact atMost_refl _
  · exact (List.pairwise_cons.1 h).1 y hy

/-- An ordered list is known from its runs. -/
theorem eq_of_run_eq (hx : OrderedBy key xs) (hy : OrderedBy key ys)
    (h : ∀ k, run key k xs = run key k ys) : xs = ys := by
  induction xs generalizing ys with
  | nil =>
    cases ys with
    | nil => rfl
    | cons y ys =>
      have := h (key y)
      rw [run_cons_self] at this
      exact absurd this (List.cons_ne_nil _ _).symm
  | cons x xs ih =>
    have hmem : x ∈ ys := by
      have := h (key x)
      rw [run_cons_self] at this
      exact (mem_run.1 (this ▸ List.mem_cons_self)).1
    cases ys with
    | nil => exact absurd hmem List.not_mem_nil
    | cons y ys =>
      have hmem' : y ∈ x :: xs := by
        have := h (key y)
        rw [run_cons_self key y] at this
        exact (mem_run.1 (this ▸ List.mem_cons_self)).1
      -- each head is somewhere in the other list, so neither key is past the other
      have hkey : key x = key y :=
        atMost_antisymm _ _ (atMost_of_mem hx hmem') (atMost_of_mem hy hmem)
      have hhead := h (key x)
      rw [run_cons_self, hkey, run_cons_self] at hhead
      obtain ⟨rfl, htail⟩ := List.cons.inj hhead
      rw [ih (List.pairwise_cons.1 hx).2 (List.pairwise_cons.1 hy).2]
      intro k
      by_cases hk : key x = k
      · subst hk
        exact htail
      · simpa only [run_cons_of_ne hk] using h k

theorem sortBy_congr (h : ∀ k, run key k xs = run key k ys) : sortBy key xs = sortBy key ys :=
  eq_of_run_eq (orderedBy_sortBy key xs) (orderedBy_sortBy key ys) fun k => by
    rw [run_sortBy, run_sortBy, h]

theorem sortBy_append_of_sorted (key : β → κ) (xs ys : List β) :
    sortBy key (sortBy key xs ++ ys) = sortBy key (xs ++ ys) :=
  sortBy_congr fun k => by rw [run_append, run_append, run_sortBy]

theorem sortBy_append_sorted (key : β → κ) (xs ys : List β) :
    sortBy key (sortBy key xs ++ sortBy key ys) = sortBy key (xs ++ ys) :=
  sortBy_congr fun k => by simp only [run_append, run_sortBy]

/-- Sorting the pieces of a list beforehand does not show once it is sorted as a whole. -/
theorem sortBy_pieces (key : β → κ) (xs : List β) (pieces : List (List β)) :
    sortBy key (sortBy key xs ++ pieces.flatMap (sortBy key)) =
      sortBy key (xs ++ pieces.flatten) := by
  have hpieces (k : κ) : run key k (pieces.flatMap (sortBy key)) = run key k pieces.flatten := by
    induction pieces with
    | nil => rfl
    | cons piece pieces ih =>
      rw [List.flatMap_cons, List.flatten_cons, run_append, run_append, run_sortBy, ih]
  exact sortBy_congr fun k => by rw [run_append, run_append, run_sortBy, hpieces]

theorem map_sortBy {γ : Type} (key : β → κ) (key' : γ → κ) (f : β → γ)
    (h : ∀ x, key' (f x) = key x) (xs : List β) : (sortBy key xs).map f = sortBy key' (xs.map f) :=
  List.map_mergeSort fun a _ b _ => by rw [h, h]

end WeightedStore.Attribute
