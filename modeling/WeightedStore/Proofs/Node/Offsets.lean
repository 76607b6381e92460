import Mathlib.Data.List.Basic
import Mathlib.Data.List.Chain
import Mathlib.Tactic.Common
import WeightedStore.Node.Offsets

/-!
Lists laid out flat. Ends that ascend and come to the number of elements cut them into lists that lie
there with just these ends, and each list lies between where it starts and where it ends.
-/

namespace WeightedStore.Offsets

variable {α : Type} {start g : Nat} {ends : List Nat} {lists : List (List α)} {l xs : List α}

theorem isChain_endsFrom (start : Nat) (lists : List (List α)) :
    (start :: endsFrom start lists).IsChain (· ≤ ·) := by
  induction lists generalizing start with
  | nil => exact List.isChain_singleton start
  | cons l lists ih => exact List.isChain_cons_cons.2 ⟨Nat.le_add_right _ _, ih _⟩

theorem le_of_mem_endsFrom {stop : Nat} (h : stop ∈ endsFrom start lists) :
    stop ≤ start + lists.flatten.length := by
  induction lists generalizing start with
  | nil => cases h
  | cons l lists ih =>
    rw [List.flatten_cons, List.length_append, ← Nat.add_assoc]
    rcases List.mem_cons.1 h with rfl | h
    · exact Nat.le_add_right _ _
    · exact ih h

@[simp] theorem length_splitFrom (start : Nat) (ends : List Nat) (xs : List α) :
    (splitFrom start ends xs).length = ends.length := by
  induction ends generalizing start xs with
  | nil => rfl
  | cons stop ends ih => rw [splitFrom, List.length_cons, List.length_cons, ih]

theorem getLastD_endsFrom (start : Nat) (lists : List (List α)) :
    (endsFrom start lists).getLastD start = start + lists.flatten.length := by
  induction lists generalizing start with
  | nil => rfl
  | cons l lists ih =>
    rw [endsFrom, List.getLastD_cons, ih, List.flatten_cons, List.length_append, Nat.add_assoc]

section Cut

variable (hchain : (start :: ends).IsChain (· ≤ ·))
  (hlast : ends.getLastD start = start + xs.length)
include hchain hlast

theorem exists_cut {stop : Nat} (hends : ends = stop :: ends.tail) :
    start + (xs.take (stop - start)).length = stop ∧ (stop :: ends.tail).IsChain (· ≤ ·) ∧
      ends.tail.getLastD stop = stop + (xs.drop (stop - start)).length := by
  rw [hends, List.isChain_cons_cons] at hchain
  obtain ⟨hle, hchain⟩ := hchain
  rw [hends, List.getLastD_cons] at hlast
  have hstop : stop ≤ ends.tail.getLastD stop := by
    rcases List.mem_cons.1 (List.getLastD_mem_cons (l := ends.tail)) with heq | hmem
    · exact Nat.le_of_eq heq.symm
    · exact (List.pairwise_cons.1 (List.isChain_iff_pairwise.1 hchain)).1 _ hmem
  refine ⟨?_, hchain, ?_⟩
  · rw [List.length_take]
    omega
  · rw [List.length_drop]
    omega

theorem flatten_splitFrom : (splitFrom start ends xs).flatten = xs := by
  induction ends generalizing start xs with
  | nil =>
    have hnil : xs.length = 0 := by
      simpa using hlast.symm
    rw [List.length_eq_zero_iff.1 hnil]
    rfl
  | cons stop ends ih =>
    obtain ⟨-, hchain, hlast⟩ := exists_cut hchain hlast rfl
    rw [splitFrom, List.flatten_cons, ih hchain hlast, List.take_append_drop]

theorem endsFrom_splitFrom : endsFrom start (splitFrom start ends xs) = ends := by
  induction ends generalizing start xs with
  | nil => rfl
  | cons stop ends ih =>
    obtain ⟨hstop, hchain, hlast⟩ := exists_cut hchain hlast rfl
    rw [splitFrom, endsFrom, hstop]
    exact congrArg (stop :: ·) (ih hchain hlast)

end Cut

section Places

end Places

end WeightedStore.Offsets
