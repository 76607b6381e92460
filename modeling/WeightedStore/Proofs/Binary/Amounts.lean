import WeightedStore.Proofs.Binary.Nearest

/-!
Amounts: finite numbers without a minus sign, as running totals of weights are. Adding a weight to an
amount gives a larger amount or, past the last finite number, infinity. What an amount grew by when a
weight was added, added to it once more, gives the same sum. The growth is above zero unless rounding
takes the weight away.
-/

namespace WeightedStore

-- powers as the core library has them, whatever else is imported
attribute [local instance (high)] instPowNat

namespace Floating

variable {f : Format} {x y w : Floating f}

structure IsAmount (x : Floating f) : Prop where
  negative : x.negative = false
  word_lt_top : x.word < f.top

namespace IsAmount

theorem ofWord_word (h : x.IsAmount) : ofWord false x.word = x := by
  rw [← h.negative, Floating.ofWord_word]

theorem isNaN (h : x.IsAmount) : x.isNaN = false := by
  have := h.word_lt_top
  simp only [Floating.isNaN, decide_eq_false_iff_not]
  omega

theorem isInfinite (h : x.IsAmount) : x.isInfinite = false := by
  simpa [Floating.isInfinite] using Nat.ne_of_lt h.word_lt_top

theorem isFinite (h : x.IsAmount) : x.isFinite = true := decide_eq_true h.word_lt_top

theorem value (h : x.IsAmount) : x.value = x.units := by
  simp [Floating.value, h.negative]

theorem below_iff (hx : x.IsAmount) (hy : y.IsAmount) : x.below y = true ↔ x.word < y.word := by
  simp only [below, hx.isNaN, hy.isNaN, hx.value, hy.value, Bool.not_false, Bool.true_and,
    decide_eq_true_eq, Int.ofNat_lt]
  exact Format.units_lt_units_iff

end IsAmount

theorem isAmount_ofWord {v : Nat} (h : v < f.top) : (ofWord false v : Floating f).IsAmount :=
  ⟨rfl, by rwa [word_ofWord (Nat.lt_trans h f.top_lt_words)]⟩

theorem word_zero : (zero : Floating f).word = 0 := Nat.zero_mod _

theorem isAmount_zero (h : 0 < f.top) : (zero : Floating f).IsAmount := isAmount_ofWord h

theorem isWeight_iff :
    w.isWeight = true ↔ w.word < f.top ∧ (w.negative = true → w.units = 0) := by
  rw [isWeight, Bool.and_eq_true, isFinite, decide_eq_true_eq]
  refine and_congr_right fun hlt => ?_
  have hzero : (zero : Floating f).value = 0 := by
    simp [value, units, zero, ofWord]
  have hw : w.isNaN = false := decide_eq_false (by omega)
  have hz : (zero : Floating f).isNaN = false := by simp [isNaN, word_zero]
  rw [below, hw, hz, hzero, value]
  cases w.negative <;> simp

theorem IsAmount.isWeight (h : x.IsAmount) : x.isWeight = true :=
  isWeight_iff.2 ⟨h.word_lt_top, fun hn => absurd hn (by simp [h.negative])⟩

theorem add_eq_ofWord (hx : x.IsAmount) (hw : w.isWeight = true) :
    x + w = ofWord false (f.round (x.units + w.units) 1) := by
  obtain ⟨hlt, hsign⟩ := isWeight_iff.1 hw
  have hnan : w.isNaN = false := decide_eq_false (by omega)
  have hinf : w.isInfinite = false := decide_eq_false (by omega)
  change add x w = _
  rw [add, hx.isNaN, hnan, hx.isInfinite, hinf, hx.negative]
  cases hn : w.negative with
  | false => rfl
  | true =>
    -- negative zero
    rw [hsign hn]
    by_cases hpos : 0 < x.units
    · simp [hpos, ofRatio]
    · have hzero : x.units = 0 := by omega
      simp [hzero, Format.round_zero, zero]

theorem sub_eq_ofWord (hx : x.IsAmount) (hy : y.IsAmount) (h : y.word ≤ x.word) :
    x - y = ofWord false (f.round (x.units - y.units) 1) := by
  have hle : y.units ≤ x.units := Format.units_le_units h
  have hopposite : y.opposite = ⟨true, y.word, y.word_lt⟩ := by
    simp [opposite, hy.isNaN, hy.negative]
  have hnan := hy.isNaN
  have hinf := hy.isInfinite
  change add x y.opposite = _
  rw [hopposite, add, hx.isNaN, hx.isInfinite, hx.negative]
  simp only [isNaN, isInfinite, units] at hnan hinf hle ⊢
  simp only [hnan, hinf, Bool.false_eq_true, if_false]
  by_cases hlt : f.units y.word < f.units x.word
  · simp [hlt, ofRatio]
  · have heq : f.units y.word = f.units x.word := by omega
    simp [heq, Format.round_zero, zero]

theorem word_add (hx : x.IsAmount) (hw : w.isWeight = true) :
    (x + w).word = f.round (x.units + w.units) 1 := by
  rw [add_eq_ofWord hx hw, word_ofWord (f.round_lt_words _ _)]

theorem isAmount_add_iff (hx : x.IsAmount) (hw : w.isWeight = true) :
    (x + w).IsAmount ↔ (x + w).isFinite = true := by
  refine ⟨IsAmount.isFinite, fun h => ?_⟩
  rw [isFinite, decide_eq_true_eq] at h
  rw [word_add hx hw] at h
  rw [add_eq_ofWord hx hw]
  exact isAmount_ofWord h

theorem add_eq_infinity (hx : x.IsAmount) (hw : w.isWeight = true) (h : (x + w).isFinite = false) :
    x + w = infinity false := by
  rw [isFinite, decide_eq_false_iff_not, word_add hx hw] at h
  rw [add_eq_ofWord hx hw, infinity]
  congr 1
  exact Nat.le_antisymm (f.round_le_top _ _) (Nat.not_lt.1 h)

theorem word_le_word_add (hf : 0 < f.fraction) (hx : x.IsAmount) (hw : w.isWeight = true) :
    x.word ≤ (x + w).word := by
  rw [word_add hx hw]
  exact Format.le_round_units_add hf (Nat.le_of_lt hx.word_lt_top) _

theorem isAmount_sub (hf : 0 < f.fraction) (hx : x.IsAmount) (hy : y.IsAmount)
    (h : y.word ≤ x.word) : (x - y).IsAmount := by
  have hle := Format.round_le_round (f := f) hf Nat.one_pos (Nat.sub_le x.units y.units)
  rw [sub_eq_ofWord hx hy h]
  -- the difference is no larger than the amount itself, which is finite
  refine isAmount_ofWord (Nat.lt_of_le_of_lt hle ?_)
  rw [units, Format.round_units (Nat.le_of_lt hx.word_lt_top)]
  exact hx.word_lt_top

theorem isAmount_growth (hf : 0 < f.fraction) (hx : x.IsAmount) (hw : w.isWeight = true)
    (hfinite : (x + w).isFinite = true) : (x + w - x).IsAmount :=
  isAmount_sub hf ((isAmount_add_iff hx hw).2 hfinite) hx (word_le_word_add hf hx hw)

section Infinity

theorem word_infinity (negative : Bool) : (infinity negative : Floating f).word = f.top :=
  word_ofWord f.top_lt_words

theorem isNaN_infinity (negative : Bool) : (infinity negative : Floating f).isNaN = false := by
  simp [isNaN, word_infinity]

theorem isInfinite_infinity (negative : Bool) :
    (infinity negative : Floating f).isInfinite = true := by
  simp [isInfinite, word_infinity]

theorem add_infinity (hx : x.IsAmount) (negative : Bool) :
    x + infinity negative = infinity negative := by
  change add x (infinity negative) = _
  simp [add, hx.isNaN, hx.isInfinite, isNaN_infinity, isInfinite_infinity]

theorem infinity_add (negative : Bool) (hw : w.isWeight = true) :
    infinity negative + w = infinity negative := by
  have hlt := (isWeight_iff.1 hw).1
  have hnan : w.isNaN = false := decide_eq_false (by omega)
  have hinf : w.isInfinite = false := decide_eq_false (by omega)
  change add (infinity negative) w = _
  simp [add, isNaN_infinity, isInfinite_infinity, hnan, hinf]

theorem infinity_sub (negative : Bool) (hx : x.IsAmount) :
    infinity negative - x = infinity negative := by
  have hnan := hx.isNaN
  have hinf := hx.isInfinite
  change add (infinity negative) x.opposite = _
  simp only [isNaN, isInfinite, decide_eq_false_iff_not] at hnan hinf
  simp [add, opposite, word_infinity, isNaN, isInfinite, hnan, hinf]

theorem isFinite_nan (hf : 0 < f.fraction) (negative : Bool) :
    (nan negative : Floating f).isFinite = false := by
  have hlt : f.top + 2 ^ (f.fraction - 1) < f.words := by
    have hhalf : 2 ^ (f.fraction - 1) < 2 ^ f.fraction :=
      Nat.pow_lt_pow_right (by decide) (Nat.sub_lt hf Nat.one_pos)
    have hle : 2 ^ f.fraction ≤ f.words :=
      Nat.pow_le_pow_right (by decide) (Nat.le_add_left _ _)
    rw [Format.top, Nat.sub_mul, Nat.one_mul, ← Nat.pow_add]
    rw [Format.words] at hle ⊢
    omega
  rw [isFinite, nan, word_ofWord hlt, decide_eq_false_iff_not]
  exact Nat.not_lt.2 (Nat.le_add_right _ _)

theorem isFinite_quiet (hf : 0 < f.fraction) (h : x.isNaN = true) : x.quiet.isFinite = false := by
  have hlt : x.word ||| 2 ^ (f.fraction - 1) < f.words :=
    Nat.or_lt_two_pow x.word_lt (Nat.pow_lt_pow_right (by decide) (by omega))
  have hle : x.word ≤ x.word ||| 2 ^ (f.fraction - 1) := Nat.left_le_or
  rw [isNaN, decide_eq_true_eq] at h
  rw [isFinite, quiet, word_ofWord hlt, decide_eq_false_iff_not]
  omega

theorem isFinite_of_isInfinite (h : x.isInfinite = true) : x.isFinite = false := by
  rw [isInfinite, decide_eq_true_eq] at h
  exact decide_eq_false (Nat.not_lt.2 (Nat.le_of_eq h.symm))

theorem isFinite_iff : x.isFinite = true ↔ x.isNaN = false ∧ x.isInfinite = false := by
  simp only [isFinite, isNaN, isInfinite, decide_eq_true_eq, decide_eq_false_iff_not]
  omega

theorem isFinite_of_add (hf : 0 < f.fraction) (h : (x + y).isFinite = true) :
    x.isFinite = true ∧ y.isFinite = true := by
  change (add x y).isFinite = true at h
  rw [isFinite_iff, isFinite_iff]
  rw [add] at h
  cases hx : x.isNaN with
  | true => simp [hx, isFinite_quiet hf hx] at h
  | false =>
    cases hy : y.isNaN with
    | true => simp [hx, hy, isFinite_quiet hf hy] at h
    | false =>
      cases hx' : x.isInfinite with
      | true =>
        have hsum : (if y.isInfinite && x.negative != y.negative then nan true else x).isFinite =
            false := by
          split
          · exact isFinite_nan hf true
          · exact isFinite_of_isInfinite hx'
        simp only [hx, hy, hx', Bool.false_eq_true, if_false, if_true, hsum] at h
      | false =>
        cases hy' : y.isInfinite with
        | true => simp [hx, hy, hx', hy', isFinite_of_isInfinite hy'] at h
        | false => exact ⟨⟨rfl, rfl⟩, rfl, rfl⟩

end Infinity

/-- What an amount grew by, added to it again, gives the sum again, although the growth is rounded. -/
theorem add_growth (hf : 0 < f.fraction) (hx : x.IsAmount) (hw : w.isWeight = true) :
    x + (x + w - x) = x + w := by
  cases hfinite : (x + w).isFinite with
  | false => rw [add_eq_infinity hx hw hfinite, infinity_sub false hx, add_infinity hx]
  | true =>
    have hsum := (isAmount_add_iff hx hw).2 hfinite
    have hle := word_le_word_add hf hx hw
    have hgrowth := isAmount_growth hf hx hw hfinite
    have hbound := hsum.word_lt_top
    have hbound' := hgrowth.word_lt_top
    have hword : (x + w - x).word = f.round ((x + w).units - x.units) 1 := by
      rw [sub_eq_ofWord hsum hx hle, word_ofWord (f.round_lt_words _ _)]
    have hb : f.Nearest (x.units + w.units) 1 (x + w).word := by
      rw [word_add hx hw] at hbound ⊢
      exact Format.nearest_round hf Nat.one_pos hbound
    have hd : f.Nearest ((x + w).units - x.units) 1 (x + w - x).word := by
      rw [hword] at hbound' ⊢
      exact Format.nearest_round hf Nat.one_pos hbound'
    have hback := Format.round_eq_of_nearest hf Nat.one_pos (Nat.le_of_lt hbound)
      (Format.Nearest.add_of_sub hf hle hb hd)
    rw [add_eq_ofWord hx hgrowth.isWeight, units, units, hback, hsum.ofWord_word]

/-- Whether rounding lets a weight that is added count: it is more than half of the way to the next
number, or just half of it and the amount's word is odd. -/
def MovedBy (x w : Floating f) : Prop :=
  f.gap x.word < 2 * w.units ∨ f.gap x.word = 2 * w.units ∧ x.word % 2 = 1

theorem word_lt_word_add_iff (hf : 0 < f.fraction) (hx : x.IsAmount) (hw : w.isWeight = true) :
    x.word < (x + w).word ↔ x.MovedBy w := by
  have hle := word_le_word_add hf hx hw
  have htop := Nat.le_of_lt hx.word_lt_top
  have hnext := f.units_succ x.word
  have hpred : f.units (x.word - 1) ≤ f.units x.word := Format.units_le_units (Nat.sub_le _ 1)
  have hunits : x.units = f.units x.word := rfl
  rw [word_add hx hw] at hle ⊢
  rw [MovedBy]
  constructor
  · intro hlt
    by_contra hstays
    rw [not_or, Nat.not_lt] at hstays
    -- the sum is then nearest to the word it started from
    have hnearest : f.Nearest (x.units + w.units) 1 x.word := by
      refine ⟨by omega, by omega, fun htie => ?_⟩
      rcases htie with htie | htie
      · have hzero : x.word - 1 = x.word := Format.units_injective (f := f) (by omega)
        omega
      · omega
    rw [Format.round_eq_of_nearest hf Nat.one_pos htop hnearest] at hlt
    exact Nat.lt_irrefl _ hlt
  · intro hmoved
    by_contra hnot
    have heq : f.round (x.units + w.units) 1 = x.word := by omega
    have hnearest := Format.nearest_round (f := f) (n := x.units + w.units) hf Nat.one_pos
      (heq ▸ hx.word_lt_top)
    rw [heq] at hnearest
    have habove := hnearest.above
    have heven := hnearest.even
    rcases hmoved with hmore | ⟨hhalf, hodd⟩
    · omega
    · have := heven (Or.inr (by omega))
      omega

/-- A weight counts if it is more than the fraction of the amount that a format resolves. -/
theorem movedBy_of_lt (h : x.units < 2 ^ (f.fraction + 1) * w.units) : x.MovedBy w := by
  rw [Nat.pow_succ, Nat.mul_assoc] at h
  refine Or.inl ?_
  rcases Nat.lt_or_ge x.word (2 ^ f.fraction) with hlt | hge
  · have hpos : 0 < 2 ^ f.fraction * (2 * w.units) := Nat.lt_of_le_of_lt (Nat.zero_le _) h
    have := Nat.pos_of_mul_pos_left hpos
    rw [Format.gap_of_lt hlt]
    omega
  · obtain ⟨e, m, hm, hword⟩ := Format.exists_fields hge
    have hunits : 2 ^ f.fraction * 2 ^ e ≤ x.units := by
      rw [units, hword, f.units_eq e hm]
      exact Nat.mul_le_mul_right _ (Nat.le_add_right _ _)
    rw [hword, f.gap_eq e hm]
    exact Nat.lt_of_mul_lt_mul_left (Nat.lt_of_le_of_lt hunits h)

theorem zero_below_growth_iff (hf : 0 < f.fraction) (hx : x.IsAmount) (hw : w.isWeight = true)
    (hfinite : (x + w).isFinite = true) : zero.below (x + w - x) = true ↔ x.MovedBy w := by
  have hsum := (isAmount_add_iff hx hw).2 hfinite
  have hle := word_le_word_add hf hx hw
  have htop : 0 < f.top := Nat.lt_of_le_of_lt (Nat.zero_le _) hx.word_lt_top
  rw [(isAmount_zero htop).below_iff (isAmount_growth hf hx hw hfinite), word_zero,
    ← word_lt_word_add_iff hf hx hw, sub_eq_ofWord hsum hx hle, word_ofWord (f.round_lt_words _ _)]
  constructor
  · intro hpos
    by_contra hnot
    have heq : (x + w).units = x.units := congrArg f.units (by omega : (x + w).word = x.word)
    rw [heq, Nat.sub_self, Format.round_zero] at hpos
    exact Nat.lt_irrefl 0 hpos
  · intro hlt
    -- words that differ are a unit apart or more, which rounding does not take away
    have hunits : f.units x.word < f.units (x + w).word := Format.units_lt_units hlt
    have hone : f.units 1 = 1 := (f.units_succ 0).trans (by simp [Format.gap])
    have hle : f.units 1 ≤ (x + w).units - x.units := by
      rw [hone]
      exact Nat.sub_pos_of_lt hunits
    have hround := Format.round_le_round (f := f) hf Nat.one_pos hle
    rw [Format.round_units htop] at hround
    exact hround

end Floating

end WeightedStore
