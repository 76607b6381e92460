import WeightedStore.Proofs.Binary.Errors
import WeightedStore.Proofs.Weighted.Totals

/-!
Weights added from left to right. The sum is a weight again, or infinity, and no summand is heavier. A finite
sum exceeds the true one by no more than each addition rounds up.
-/

namespace WeightedStore.Floating

-- powers and zero as the core library has them, whatever else is imported
attribute [local instance (high)] instPowNat Zero.ofOfNat0

variable {f : Format} {x y w : Floating f} {ws : List (Floating f)}

/-- Whether a datum is what weights may add up to. The sum of no weight is negative zero. -/
structure IsSum (x : Floating f) : Prop where
  word_le_top : x.word ≤ f.top
  word_eq_zero : x.negative = true → x.word = 0

theorem word_eq_zero_iff : x.word = 0 ↔ x.units = 0 := by
  constructor
  · intro h
    rw [units, h, Format.units_zero]
  · intro h
    exact Format.units_injective (h.trans f.units_zero.symm)

theorem isWeight_iff_isSum : w.isWeight = true ↔ w.IsSum ∧ w.isFinite = true := by
  rw [isWeight_iff, ← word_eq_zero_iff, isFinite, decide_eq_true_eq]
  constructor
  · rintro ⟨hlt, hsign⟩
    exact ⟨⟨Nat.le_of_lt hlt, hsign⟩, hlt⟩
  · rintro ⟨hsum, hlt⟩
    exact ⟨hlt, hsum.word_eq_zero⟩

theorem isSum_of_isWeight (h : w.isWeight = true) : w.IsSum := (isWeight_iff_isSum.1 h).1

theorem isSum_negativeZero : (negativeZero : Floating f).IsSum := by
  have hword : (negativeZero : Floating f).word = 0 := Nat.zero_mod _
  exact ⟨hword ▸ Nat.zero_le _, fun _ => hword⟩

theorem eq_negativeZero (hsign : x.negative = true) (hword : x.word = 0) : x = negativeZero := by
  rw [← ofWord_word x, hsign, hword, negativeZero]

theorem negativeZero_add (hw : w.isWeight = true) : negativeZero + w = w := by
  obtain ⟨hlt, hsign⟩ := isWeight_iff.1 hw
  have hnan : w.isNaN = false := decide_eq_false (by omega)
  have hinf : w.isInfinite = false := decide_eq_false (by omega)
  have hzero : (negativeZero : Floating f).word = 0 := Nat.zero_mod _
  have hunits : (negativeZero : Floating f).units = 0 := by rw [units, hzero, Format.units_zero]
  have hnumber : (negativeZero : Floating f).isNaN = false := by simp [isNaN, hzero]
  have hfinite : (negativeZero : Floating f).isInfinite = false :=
    decide_eq_false (by rw [hzero]; omega)
  have hnegative : (negativeZero : Floating f).negative = true := rfl
  have hround : ofWord w.negative (f.round w.units 1) = w := by
    rw [units, Format.round_units (Nat.le_of_lt hlt), ofWord_word]
  change add negativeZero w = w
  rw [add, hnumber, hnan, hfinite, hinf, hunits, hnegative]
  cases hn : w.negative with
  | true => simpa [ofRatio, hn] using hround
  | false =>
    by_cases hpos : 0 < w.units
    · simpa [ofRatio, hpos, hn] using hround
    · have hword : w.word = 0 := word_eq_zero_iff.2 (by omega)
      have hback := ofWord_word w
      rw [hn, hword] at hback
      simpa [hpos, zero] using hback

namespace IsSum

variable (hx : x.IsSum)
include hx

theorem isTotal_or : x.IsTotal ∨ x = negativeZero := by
  cases hn : x.negative with
  | false => exact Or.inl ⟨hn, hx.word_le_top⟩
  | true => exact Or.inr (eq_negativeZero hn (hx.word_eq_zero hn))

theorem isNaN : x.isNaN = false := decide_eq_false (Nat.not_lt.2 hx.word_le_top)

theorem value : x.value = x.units := by
  cases hn : x.negative with
  | false => simp [Floating.value, hn]
  | true => simp [Floating.value, word_eq_zero_iff.1 (hx.word_eq_zero hn)]

theorem below_iff (hy : y.IsSum) : x.below y = true ↔ x.units < y.units := by
  rw [below, hx.isNaN, hy.isNaN, hx.value, hy.value]
  simp

theorem not_below_of_units_eq_zero (hy : y.units = 0) : x.below y = false := by
  have hvalue : y.value = 0 := by
    rw [Floating.value, hy]
    exact ite_self 0
  rw [below, hx.value, hvalue]
  simp

theorem zero_below_iff : zero.below x = true ↔ 0 < x.units := by
  have hzero : (zero : Floating f).isNaN = false := by simp [Floating.isNaN, word_zero]
  rw [below, hzero, hx.isNaN, value_zero, hx.value]
  simp

theorem atMost_zero_iff : x.atMost zero = true ↔ ¬zero.below x = true := by
  have hzero : (zero : Floating f).isNaN = false := by simp [Floating.isNaN, word_zero]
  rw [hx.zero_below_iff, atMost, hzero, hx.isNaN, value_zero, hx.value]
  simp

theorem word_add (hfinite : x.isFinite = true) (hw : w.isWeight = true) :
    (x + w).word = f.round (x.units + w.units) 1 := by
  rcases hx.isTotal_or with htotal | rfl
  · exact Floating.word_add (htotal.isAmount hfinite) hw
  · have hzero : (negativeZero : Floating f).units = 0 := word_eq_zero_iff.1 (Nat.zero_mod _)
    rw [negativeZero_add hw, hzero, Nat.zero_add, Floating.units,
      Format.round_units (isSum_of_isWeight hw).word_le_top]

theorem eq_infinity (hfinite : x.isFinite = false) (htop : 0 < f.top) : x = infinity false := by
  rcases hx.isTotal_or with htotal | rfl
  · exact htotal.eq_infinity hfinite
  · have hword : (negativeZero : Floating f).word = 0 := Nat.zero_mod _
    rw [isFinite, hword] at hfinite
    exact absurd htop (of_decide_eq_false hfinite)

theorem add (hf : 0 < f.fraction) (hw : w.isWeight = true) :
    (x + w).IsSum ∧ x.units ≤ (x + w).units ∧ w.units ≤ (x + w).units := by
  have hle := (isSum_of_isWeight hw).word_le_top
  cases hfinite : x.isFinite with
  | true =>
    have hword := hx.word_add hfinite hw
    refine ⟨⟨?_, fun hn => ?_⟩, Format.units_le_units ?_, Format.units_le_units ?_⟩
    · rw [hword]
      exact f.round_le_top _ _
    · rcases hx.isTotal_or with htotal | rfl
      · rw [(htotal.add hf hw).1.negative] at hn
        cases hn
      · rw [negativeZero_add hw] at hn ⊢
        exact (isSum_of_isWeight hw).word_eq_zero hn
    · rw [hword]
      exact Format.le_round_units_add hf hx.word_le_top _
    · rw [hword, Nat.add_comm]
      exact Format.le_round_units_add hf hle _
  | false =>
    have hinfinite := hx.eq_infinity hfinite (Nat.lt_of_le_of_lt (Nat.zero_le _) (isWeight_iff.1 hw).1)
    subst hinfinite
    rw [infinity_add false hw]
    refine ⟨hx, Nat.le_refl _, Format.units_le_units ?_⟩
    rwa [word_infinity]

theorem foldl (hf : 0 < f.fraction) (hws : ∀ w ∈ ws, w.isWeight = true) :
    (ws.foldl (· + ·) x).IsSum ∧ x.units ≤ (ws.foldl (· + ·) x).units ∧
      ∀ w ∈ ws, w.units ≤ (ws.foldl (· + ·) x).units := by
  induction ws generalizing x with
  | nil => exact ⟨hx, Nat.le_refl _, nofun⟩
  | cons w ws ih =>
    obtain ⟨hw, hws⟩ := List.forall_mem_cons.1 hws
    obtain ⟨hsum, hx, hw⟩ := hx.add hf hw
    obtain ⟨hrest, hstart, hall⟩ := ih hsum hws
    exact ⟨hrest, Nat.le_trans hx hstart, List.forall_mem_cons.2 ⟨Nat.le_trans hw hstart, hall⟩⟩

theorem units_foldl_le (hf : 0 < f.fraction) (hws : ∀ w ∈ ws, w.isWeight = true)
    (hfinite : (ws.foldl (· + ·) x).isFinite = true) :
    2 ^ (f.fraction + 1) * (ws.foldl (· + ·) x).units ≤
      2 ^ (f.fraction + 1) * (x.units + (ws.map units).sum) + ws.length * (ws.foldl (· + ·) x).units := by
  induction ws generalizing x with
  | nil => simp
  | cons w ws ih =>
    obtain ⟨hw, hws⟩ := List.forall_mem_cons.1 hws
    obtain ⟨hsum, hx', -⟩ := hx.add hf hw
    have hle := (hsum.foldl hf hws).2.1
    have hrest := ih hsum hws hfinite
    rw [List.foldl_cons] at hfinite ⊢
    generalize ws.foldl (· + ·) (x + w) = total at hle hrest hfinite ⊢
    -- what is finite in the end was so all along
    have hnext : (x + w).word < f.top := by
      have hword := (Format.units_lt_units_iff (f := f)).not.1 (Nat.not_lt.2 hle)
      rw [isFinite, decide_eq_true_eq] at hfinite
      omega
    have hround := hx.word_add (isFinite_of_add hf (decide_eq_true hnext)).1 hw
    have hpart := Format.round_le_add_part (f := f) (n := x.units + w.units) hf (hround ▸ hnext)
    rw [← hround] at hpart
    change _ * (x + w).units ≤ _ + (x + w).units at hpart
    rw [List.map_cons, List.sum_cons, List.length_cons, Nat.succ_mul, Nat.mul_add, Nat.mul_add]
    rw [Nat.mul_add] at hpart hrest
    omega

end IsSum

section Sum

variable (hf : 0 < f.fraction) (hws : ∀ w ∈ ws, w.isWeight = true)
include hf hws

theorem isSum_sum : (sum ws).IsSum := (isSum_negativeZero.foldl hf hws).1

theorem units_le_units_sum (hw : w ∈ ws) : w.units ≤ (sum ws).units :=
  (isSum_negativeZero.foldl hf hws).2.2 w hw

theorem zero_below_sum (hw : w ∈ ws) (hpos : zero.below w = true) : zero.below (sum ws) = true := by
  have hunits := (isSum_of_isWeight (hws w hw)).zero_below_iff.1 hpos
  exact (isSum_sum hf hws).zero_below_iff.2 (Nat.lt_of_lt_of_le hunits (units_le_units_sum hf hws hw))

theorem units_sum_le (hfinite : (sum ws).isFinite = true) :
    2 ^ (f.fraction + 1) * (sum ws).units ≤
      2 ^ (f.fraction + 1) * (ws.map units).sum + ws.length * (sum ws).units := by
  have hzero : (negativeZero : Floating f).units = 0 := word_eq_zero_iff.1 (Nat.zero_mod _)
  have h := isSum_negativeZero.units_foldl_le hf hws hfinite
  rwa [hzero, Nat.zero_add] at h

end Sum

end WeightedStore.Floating
