/-!
Search by halving for the place where a predicate stops to hold. On a list that the predicate
splits in two it is the length of the first part; on any other list it is some place in the list.
-/

namespace WeightedStore.Bisect

def narrow (p : Nat → Bool) (base size : Nat) : Nat :=
  if size ≤ 1 then if p base then base + 1 else base
  else if p (base + size / 2) then narrow p (base + size / 2) (size - size / 2)
  else narrow p base (size - size / 2)
termination_by size

def point {α : Type} (p : α → Bool) (xs : List α) : Nat :=
  if xs.isEmpty then 0 else narrow (fun i => (xs[i]?).any p) 0 xs.length

theorem narrow_of_split {p : Nat → Bool} {cut base size : Nat} (hs : 0 < size)
    (hp : ∀ i, i < base + size → (p i = true ↔ i < cut)) (hb : base ≤ cut)
    (hc : cut ≤ base + size) : narrow p base size = cut := by
  induction size using Nat.strongRecOn generalizing base with
  | _ size ih =>
    unfold narrow
    split
    · have h := hp base (by omega)
      split <;> simp_all <;> omega
    · have h := hp (base + size / 2) (by omega)
      split
      · exact ih (size - size / 2) (by omega) (by omega) (fun i hi => hp i (by omega))
          (by simp_all; omega) (by omega)
      · exact ih (size - size / 2) (by omega) (by omega) (fun i hi => hp i (by omega)) hb
          (by simp_all; omega)

theorem point_append {α : Type} {p : α → Bool} {xs ys : List α} (hx : ∀ x ∈ xs, p x = true)
    (hy : ∀ y ∈ ys, p y = false) : point p (xs ++ ys) = xs.length := by
  unfold point
  split
  · simp_all
  · rename_i h
    have hpos : 0 < (xs ++ ys).length := by
      cases hl : xs ++ ys <;> simp_all
    refine narrow_of_split hpos (fun i hi => ?_) (Nat.zero_le _) (by simp)
    rcases Nat.lt_or_ge i xs.length with hlt | hge
    · simp [List.getElem?_append_left hlt, hx, hlt]
    · simp only [List.getElem?_append_right hge, Nat.not_lt.2 hge, iff_false]
      cases hg : ys[i - xs.length]? with
      | none => simp
      | some y => simp [hy y (List.mem_of_getElem? hg)]

theorem eq_false_of_mem_dropWhile {α : Type} {p : α → Bool} {xs : List α}
    (h : xs.Pairwise fun x y => p y = true → p x = true) {y : α} (hy : y ∈ xs.dropWhile p) :
    p y = false := by
  induction xs with
  | nil => cases hy
  | cons x xs ih =>
    obtain ⟨hx, hxs⟩ := List.pairwise_cons.1 h
    rw [List.dropWhile_cons] at hy
    split at hy
    · exact ih hxs hy
    · rename_i hpx
      rw [Bool.not_eq_true] at hpx
      rcases List.mem_cons.1 hy with rfl | hy
      · exact hpx
      · exact Bool.eq_false_iff.2 fun hpy => Bool.eq_false_iff.1 hpx (hx y hy hpy)

theorem lt_point_iff {α : Type} {p : α → Bool} {xs : List α}
    (h : xs.Pairwise fun x y => p y = true → p x = true) {i : Nat} {x : α}
    (hx : xs[i]? = some x) : i < point p xs ↔ p x = true := by
  have hsplit : xs.takeWhile p ++ xs.dropWhile p = xs := List.takeWhile_append_dropWhile
  have hfirst : ∀ y ∈ xs.takeWhile p, p y = true := List.all_eq_true.1 List.all_takeWhile
  have hsecond : ∀ y ∈ xs.dropWhile p, p y = false := fun y => eq_false_of_mem_dropWhile h
  -- halving finds where the part that satisfies `p` ends
  rw [← hsplit] at hx ⊢
  rw [point_append hfirst hsecond]
  rcases Nat.lt_or_ge i (xs.takeWhile p).length with hlt | hge
  · rw [List.getElem?_append_left hlt] at hx
    exact iff_of_true hlt (hfirst x (List.mem_of_getElem? hx))
  · rw [List.getElem?_append_right hge] at hx
    have hx := hsecond x (List.mem_of_getElem? hx)
    exact iff_of_false (Nat.not_lt.2 hge) (Bool.eq_false_iff.1 hx)

theorem narrow_le (p : Nat → Bool) (base : Nat) {size : Nat} (hs : 0 < size) :
    narrow p base size ≤ base + size := by
  fun_induction narrow p base size with
  | case1 => omega
  | case2 => omega
  | case3 base size h hp ih => have := ih (by omega); omega
  | case4 base size h hp ih => have := ih (by omega); omega

theorem point_le_length {α : Type} (p : α → Bool) (xs : List α) : point p xs ≤ xs.length := by
  unfold point
  split
  · exact Nat.zero_le _
  · rename_i h
    have hpos : 0 < xs.length := by
      cases xs <;> simp_all
    simpa using narrow_le (fun i => (xs[i]?).any p) 0 hpos

theorem narrow_behind (p : Nat → Bool) (base size : Nat) :
    narrow p base size = base ∧ p base = false ∨
      base < narrow p base size ∧ p (narrow p base size - 1) = true := by
  fun_induction narrow p base size with
  | case1 base _ _ hp => exact Or.inr ⟨Nat.lt_succ_self base, hp⟩
  | case2 base _ _ hp => exact Or.inl ⟨rfl, Bool.eq_false_iff.2 hp⟩
  | case3 base size _ hp ih =>
    rcases ih with ⟨-, hnot⟩ | ⟨hlt, hholds⟩
    · exact absurd hp (Bool.eq_false_iff.1 hnot)
    · exact Or.inr ⟨Nat.lt_of_le_of_lt (Nat.le_add_right _ _) hlt, hholds⟩
  | case4 _ _ _ _ ih => exact ih

theorem holds_before_point {α : Type} {p : α → Bool} {xs : List α} {i : Nat} {x : α}
    (hpoint : point p xs = i + 1) (hx : xs[i]? = some x) : p x = true := by
  have hne : xs.isEmpty = false := by
    cases xs with
    | nil => cases hx
    | cons x xs => rfl
  rw [point, hne, if_neg Bool.false_ne_true] at hpoint
  rcases narrow_behind (fun i => (xs[i]?).any p) 0 xs.length with ⟨hzero, -⟩ | ⟨-, hholds⟩
  · rw [hpoint] at hzero
    exact absurd hzero (Nat.succ_ne_zero i)
  · rw [hpoint, Nat.add_sub_cancel, hx] at hholds
    exact hholds

theorem point_lt_length {α : Type} {p : α → Bool} {xs : List α} {x : α}
    (hlast : xs[xs.length - 1]? = some x) (hx : p x = false) : point p xs < xs.length := by
  have hpos : xs.length - 1 < xs.length := (List.getElem?_eq_some_iff.1 hlast).1
  refine Nat.lt_of_le_of_ne (point_le_length p xs) fun hend => ?_
  have hholds := holds_before_point (hend.trans (by omega)) hlast
  rw [hx] at hholds
  cases hholds

end WeightedStore.Bisect
