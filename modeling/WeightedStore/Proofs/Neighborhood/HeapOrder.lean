import Mathlib.Data.List.Perm.Basic
import WeightedStore.Neighborhood.Heap

/-!
Heaps stay in order. An item on its way up can be out of order with the one above it only, an item on its way
down with its neighbors on both sides, and what stands above it never has a greater key than what stands below
it. At the end of the way everything is in order, so the item at the root has the least key.
-/

namespace WeightedStore.Heap

variable {α : Type} {key : α → Int} {items : Array α} {hole : Nat}

def Under (j i : Nat) : Prop := j = 2 * i + 1 ∨ j = 2 * i + 2

theorem under_div {j : Nat} (hj : 0 < j) : Under j ((j - 1) / 2) := by
  unfold Under
  omega

def Ordered (key : α → Int) (items : Array α) : Prop :=
  ∀ i j (hi : i < items.size) (hj : j < items.size), Under j i → key items[i] ≤ key items[j]

/-- Whether items are in order but for the one on its way up and the one above it. -/
structure Rising (key : α → Int) (items : Array α) (hole : Nat) : Prop where
  others : ∀ i j (hi : i < items.size) (hj : j < items.size), Under j i → j ≠ hole →
    key items[i] ≤ key items[j]
  across : ∀ i j (hi : i < items.size) (hj : j < items.size), Under hole i → Under j hole →
    key items[i] ≤ key items[j]

/-- Whether items are in order but for the one on its way down and those above and below it. -/
structure Sinking (key : α → Int) (items : Array α) (hole : Nat) : Prop where
  others : ∀ i j (hi : i < items.size) (hj : j < items.size), Under j i → i ≠ hole → j ≠ hole →
    key items[i] ≤ key items[j]
  across : ∀ i j (hi : i < items.size) (hj : j < items.size), Under hole i → Under j hole →
    key items[i] ≤ key items[j]

theorem perm_rise (key : α → Int) (items : Array α) (i : Nat) (hi : i < items.size) :
    (rise key items i hi).Perm items := by
  fun_induction rise key items i hi with
  | case1 => exact Array.Perm.refl _
  | case2 => exact Array.Perm.refl _
  | case3 items i hi hroot hup hover ih => exact ih.trans (Array.swap_perm _ _)

theorem perm_sink (key : α → Int) (items : Array α) (i : Nat) (hi : i < items.size) :
    (sink key items i hi).Perm items := by
  fun_induction sink key items i hi with
  | case1 items i hi hboth hsecond ih => exact ih.trans (Array.swap_perm _ _)
  | case2 items i hi hboth hfirst ih => exact ih.trans (Array.swap_perm _ _)
  | case3 items i hi hboth hone => exact (perm_rise _ _ _ _).trans (Array.swap_perm _ _)
  | case4 items i hi hboth hone => exact perm_rise _ _ _ _

theorem Rising.ordered (h : Rising key items hole)
    (hup : ∀ i (hi : i < items.size) (hhole : hole < items.size), Under hole i →
      key items[i] ≤ key items[hole]) : Ordered key items := by
  intro i j hi hj hunder
  by_cases hj' : j = hole
  · subst hj'
    exact hup i hi hj hunder
  · exact h.others i j hi hj hunder hj'

theorem Rising.swap {i : Nat} (h : Rising key items hole) (hunder : Under hole i) (hi : i < items.size)
    (hhole : hole < items.size) (hover : ¬key items[i] ≤ key items[hole]) :
    Rising key (items.swap i hole) i := by
  constructor
  · intro x y hx hy hxy hne
    rw [Array.size_swap] at hx hy
    -- with both in their old places, with the two swapped, or with the sibling of the hole below the new hole
    have hothers := h.others x y hx hy hxy
    have hacross := h.across i y hi hy hunder
    have habove := h.others i y hi hy
    unfold Under at *
    rw [Array.getElem_swap, Array.getElem_swap]
    split_ifs <;> subst_vars <;> omega
  · intro x y hx hy hix hyi
    rw [Array.size_swap] at hx hy
    have habove := h.others x i hx hi hix
    have hbelow := h.others i y hi hy hyi
    unfold Under at *
    rw [Array.getElem_swap, Array.getElem_swap]
    split_ifs <;> subst_vars <;> omega

theorem Rising.ordered_rise {i : Nat} (hi : i < items.size) (h : Rising key items i) :
    Ordered key (rise key items i hi) := by
  fun_induction rise key items i hi with
  | case1 items hi =>
    refine h.ordered fun i _ _ hunder => ?_
    unfold Under at hunder
    omega
  | case2 items i hi hroot hup hunder =>
    refine h.ordered fun j hj _ hji => ?_
    obtain rfl : j = (i - 1) / 2 := by
      unfold Under at hji
      omega
    exact hunder
  | case3 items i hi hroot hup hover ih =>
    exact ih (h.swap (under_div (Nat.pos_of_ne_zero hroot)) (Nat.lt_trans hup hi) hi hover)

theorem Sinking.rising (h : Sinking key items hole) (hbottom : items.size ≤ 2 * hole + 1) :
    Rising key items hole := by
  refine ⟨fun i j hi hj hunder hne => ?_, h.across⟩
  refine h.others i j hi hj hunder (fun hhole => ?_) hne
  unfold Under at hunder
  omega

theorem Sinking.swap {child : Nat} (h : Sinking key items hole) (hunder : Under child hole)
    (hhole : hole < items.size) (hchild : child < items.size)
    (hleast : ∀ j (hj : j < items.size), Under j hole → key items[child] ≤ key items[j]) :
    Sinking key (items.swap hole child) child := by
  constructor
  · intro x y hx hy hxy hxne hyne
    rw [Array.size_swap] at hx hy
    -- the smaller one below the hole takes its place: above its sibling, and below what stood above the hole
    have hothers := h.others x y hx hy hxy
    have hacross := h.across x child hx hchild
    have hsibling := hleast y hy
    unfold Under at *
    rw [Array.getElem_swap, Array.getElem_swap]
    split_ifs <;> subst_vars <;> omega
  · intro x y hx hy hchildx hychild
    rw [Array.size_swap] at hx hy
    have hbelow := h.others child y hchild hy hychild
    unfold Under at *
    rw [Array.getElem_swap, Array.getElem_swap]
    split_ifs <;> subst_vars <;> omega

theorem Sinking.ordered_sink {i : Nat} (hi : i < items.size) (h : Sinking key items i) :
    Ordered key (sink key items i hi) := by
  fun_induction sink key items i hi with
  | case1 items i hi hboth hsecond ih =>
    refine ih (h.swap (Or.inr rfl) hi hboth fun j hj hunder => ?_)
    rcases hunder with rfl | rfl
    · exact hsecond
    · exact Int.le_refl _
  | case2 items i hi hboth hfirst ih =>
    refine ih (h.swap (Or.inl rfl) hi (by omega) fun j hj hunder => ?_)
    rcases hunder with rfl | rfl
    · exact Int.le_refl _
    · exact Int.le_of_lt (Int.not_le.1 hfirst)
  | case3 items i hi hboth hone =>
    have hsinking := h.swap (Or.inl rfl) hi hone fun j hj hunder => by
      rcases hunder with rfl | rfl
      · exact Int.le_refl _
      · exact absurd hj hboth
    -- nothing stands below the last item, so from there it is on its way up
    refine (hsinking.rising ?_).ordered_rise _
    rw [Array.size_swap]
    omega
  | case4 items i hi hboth hone => exact (h.rising (by omega)).ordered_rise hi

theorem ordered_empty (key : α → Int) : Ordered key #[] := fun _ _ hi => absurd hi (Nat.not_lt_zero _)

theorem perm_push (key : α → Int) (items : Array α) (x : α) : (push key items x).Perm (items.push x) :=
  perm_rise key _ _ _

theorem Ordered.push (h : Ordered key items) (x : α) : Ordered key (push key items x) := by
  refine Rising.ordered_rise _ ⟨fun i j hi hj hunder hne => ?_, fun i j hi hj _ hunder => ?_⟩
  · rw [Array.size_push] at hi hj
    have hlt : i < j := by
      unfold Under at hunder
      omega
    rw [Array.getElem_push_lt (by omega), Array.getElem_push_lt (by omega)]
    exact h i j (by omega) (by omega) hunder
  · rw [Array.size_push] at hj
    unfold Under at hunder
    omega

theorem Ordered.root_le (h : Ordered key items) (hroot : 0 < items.size) {i : Nat} (hi : i < items.size) :
    key items[0] ≤ key items[i] := by
  induction i using Nat.strongRecOn with
  | ind i ih =>
    rcases Nat.eq_zero_or_pos i with rfl | hpos
    · exact Int.le_refl _
    · have hup : (i - 1) / 2 < i := by omega
      exact Int.le_trans (ih _ hup (Nat.lt_trans hup hi)) (h _ i (Nat.lt_trans hup hi) hi (under_div hpos))

theorem perm_pop (key : α → Int) (hroot : 0 < items.size) :
    (items[0] :: (pop key items).toList).Perm items.toList := by
  rw [Heap.pop]
  split
  · rename_i hsize
    have hswapped : (items.swap 0 (items.size - 1)).toList ≠ [] := by
      refine List.ne_nil_of_length_pos ?_
      rw [Array.length_toList, Array.size_swap]
      omega
    have hroot : (items.swap 0 (items.size - 1)).toList.getLast hswapped = items[0] := by
      rw [List.getLast_eq_getElem]
      simp
    have hsplit := List.dropLast_append_getLast hswapped
    calc items[0] :: (sink key (items.swap 0 (items.size - 1)).pop 0 _).toList
      _ |>.Perm (items[0] :: (items.swap 0 (items.size - 1)).pop.toList) :=
        (Array.perm_iff_toList_perm.1 (perm_sink key _ _ _)).cons _
      _ |>.Perm ((items.swap 0 (items.size - 1)).pop.toList ++ [items[0]]) :=
        (List.perm_append_singleton _ _).symm
      _ = (items.swap 0 (items.size - 1)).toList := by rw [Array.toList_pop, ← hroot, hsplit]
      _ |>.Perm items.toList := Array.perm_iff_toList_perm.1 (Array.swap_perm _ _)
  · rename_i hsize
    have hone : items.size = 1 := by omega
    obtain ⟨x, rfl⟩ := Array.size_eq_one_iff.1 hone
    exact List.Perm.refl _

theorem Ordered.pop (h : Ordered key items) : Ordered key (pop key items) := by
  rw [Heap.pop]
  split
  · rename_i hsize
    refine Sinking.ordered_sink _ ⟨fun i j hi hj hunder hine hjne => ?_, fun i j hi hj hunder => ?_⟩
    · rw [Array.size_pop, Array.size_swap] at hi hj
      rw [Array.getElem_pop, Array.getElem_pop, Array.getElem_swap_of_ne hine (by omega),
        Array.getElem_swap_of_ne hjne (by omega)]
      exact h i j (by omega) (by omega) hunder
    · unfold Under at hunder
      omega
  · rename_i hsize
    intro i j hi hj hunder
    rw [Array.size_pop] at hi
    omega

end WeightedStore.Heap
