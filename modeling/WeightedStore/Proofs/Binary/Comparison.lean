import WeightedStore.Proofs.Binary.Amounts

/-!
Finite data are compared by their values, to which the total order of all data keeps. A weight is one that is
not below zero.
-/

namespace WeightedStore.Floating

variable {f : Format} {x y : Floating f}

theorem value_zero : (zero : Floating f).value = 0 := by
  simp [value, units, zero, ofWord]

theorem isFinite_zero (h : 0 < f.top) : (zero : Floating f).isFinite = true :=
  (isAmount_zero h).isFinite

theorem below_eq_false_iff (hx : x.isFinite = true) (hy : y.isFinite = true) :
    x.below y = false ↔ y.value ≤ x.value := by
  rw [below, (isFinite_iff.1 hx).1, (isFinite_iff.1 hy).1]
  simp

theorem atMost_iff (hx : x.isFinite = true) (hy : y.isFinite = true) :
    x.atMost y = true ↔ x.value ≤ y.value := by
  rw [atMost, (isFinite_iff.1 hx).1, (isFinite_iff.1 hy).1]
  simp

theorem below_self (x : Floating f) : x.below x = false := by
  simp [below]

theorem below_of_atMost_of_below {z : Floating f} (hxy : x.atMost y = true) (hyz : y.below z = true) :
    x.below z = true := by
  simp only [atMost, below, Bool.and_eq_true, decide_eq_true_eq] at hxy hyz ⊢
  exact ⟨⟨hxy.1.1, hyz.1.2⟩, Int.lt_of_le_of_lt hxy.2 hyz.2⟩

theorem atMost_trans {z : Floating f} (hxy : x.atMost y = true) (hyz : y.atMost z = true) :
    x.atMost z = true := by
  simp only [atMost, Bool.and_eq_true, decide_eq_true_eq] at hxy hyz ⊢
  exact ⟨⟨hxy.1.1, hyz.1.2⟩, Int.le_trans hxy.2 hyz.2⟩

theorem atMost_of_below (h : x.below y = true) : x.atMost y = true := by
  simp only [atMost, below, Bool.and_eq_true, decide_eq_true_eq] at h ⊢
  exact ⟨h.1, Int.le_of_lt h.2⟩

theorem atMost_of_not_below (hx : x.isNaN = false) (hy : y.isNaN = false) (h : x.below y = false) :
    y.atMost x = true := by
  simpa [atMost, below, hx, hy] using h

theorem value_le_of_rank_le (h : x.rank ≤ y.rank) : x.value ≤ y.value := by
  have hunits {v w : Nat} (hvw : v ≤ w) : (f.units v : Int) ≤ f.units w :=
    Int.ofNat_le.2 (Format.units_le_units hvw)
  cases hx : x.negative <;> cases hy : y.negative <;>
    simp only [rank, value, units, hx, hy, if_true, if_false, Bool.false_eq_true] at h ⊢
  · exact hunits (by omega)
  · omega
  · omega
  · have := hunits (v := y.word) (w := x.word) (by omega)
    omega

theorem atMost_of_rank_le (hx : x.isNaN = false) (hy : y.isNaN = false) (h : x.rank ≤ y.rank) :
    x.atMost y = true := by
  simpa [atMost, hx, hy] using value_le_of_rank_le h

theorem isNaN_ofRatio (negative : Bool) (n d : Nat) :
    (ofRatio negative n d : Floating f).isNaN = false := by
  rw [isNaN, ofRatio, word_ofWord (f.round_lt_words _ _), decide_eq_false_iff_not]
  exact Nat.not_lt.2 (f.round_le_top _ _)

theorem isNaN_sub (hx : x.isFinite = true) (hy : y.isFinite = true) : (x - y).isNaN = false := by
  obtain ⟨hxNaN, hxInfinite⟩ := isFinite_iff.1 hx
  obtain ⟨hyNaN, hyInfinite⟩ := isFinite_iff.1 hy
  have hopposite : y.opposite = ⟨!y.negative, y.word, y.word_lt⟩ := by
    rw [opposite, hyNaN]
    rfl
  have hzero : (zero : Floating f).isNaN = false := by simp [isNaN, word_zero]
  change (add x y.opposite).isNaN = false
  rw [hopposite, add, hxNaN, hxInfinite]
  simp only [isNaN, isInfinite] at hyNaN hyInfinite ⊢
  simp only [hyNaN, hyInfinite, Bool.false_eq_true, if_false]
  split
  · exact isNaN_ofRatio ..
  · split
    · exact isNaN_ofRatio ..
    · split
      · exact isNaN_ofRatio ..
      · exact hzero

theorem isWeight_iff_value (h : 0 < f.top) :
    x.isWeight = true ↔ x.isFinite = true ∧ 0 ≤ x.value := by
  rw [isWeight, Bool.and_eq_true, Bool.not_eq_true']
  refine and_congr_right fun hx => ?_
  rw [below_eq_false_iff hx (isFinite_zero h), value_zero]

theorem isFinite_of_isWeight (h : x.isWeight = true) : x.isFinite = true :=
  (Bool.and_eq_true_iff.1 h).1

theorem not_forall_isWeight_iff {weights : List Binary32} : (¬∀ w ∈ weights, w.isWeight = true) ↔
    ∃ w ∈ weights, w.isFinite = false ∨ w.value < 0 := by
  have htop : 0 < Format.single.top := by decide
  simp only [isWeight_iff_value htop, not_forall, exists_prop, not_and_or, Bool.not_eq_true, Int.not_le]

end WeightedStore.Floating
