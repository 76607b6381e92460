import WeightedStore.Proofs.Binary.Comparison

/-!
How far rounding moves a number: by no more than half of the gap at a word that the number does not exceed,
and by no more than the fraction of the rounded number that a format does not resolve.
-/

namespace WeightedStore

-- powers as the core library has them, whatever else is imported
attribute [local instance (high)] instPowNat

namespace Format

variable {f : Format} {b d n : Nat}

theorem round_zero_of_pos (f : Format) (hd : 0 < d) : f.round 0 d = 0 := by
  have h := round_units_mul (f := f) (Nat.zero_le f.top) hd
  rwa [units_zero, Nat.zero_mul] at h

theorem round_le (hf : 0 < f.fraction) (hd : 0 < d) (hb : b ≤ f.top) (h : n ≤ d * f.units b) :
    f.round n d ≤ b := by
  have hle := round_le_round (f := f) hf hd h
  rwa [Nat.mul_comm, round_units_mul hb hd] at hle

theorem round_error (hf : 0 < f.fraction) (hd : 0 < d) (hb : b < f.top) (h : n ≤ d * f.units b) :
    2 * (d * f.units (f.round n d)) ≤ 2 * n + d * f.gap b ∧
      2 * n ≤ 2 * (d * f.units (f.round n d)) + d * f.gap b := by
  have hle := round_le hf hd (Nat.le_of_lt hb) h
  have hnearest := nearest_round hf hd (Nat.lt_of_le_of_lt hle hb)
  generalize f.round n d = w at hle hnearest ⊢
  have hbefore : d * f.units w ≤ d * f.units (w - 1) + d * f.gap b := by
    rw [← Nat.mul_add]
    refine Nat.mul_le_mul_left d (Nat.le_trans (f.units_le_pred_add_gap w) ?_)
    exact Nat.add_le_add_left (gap_le_gap (Nat.le_trans (Nat.sub_le w 1) hle)) _
  have hbehind : d * f.units (w + 1) ≤ d * f.units w + d * f.gap b := by
    rw [← Nat.mul_add, units_succ]
    exact Nat.mul_le_mul_left d (Nat.add_le_add_left (gap_le_gap hle) _)
  have hbelow := hnearest.below
  have habove := hnearest.above
  rw [Nat.mul_add] at hbelow habove
  omega

theorem gap_mul_le (f : Format) {w : Nat} (h : 2 ^ f.fraction ≤ w) :
    2 ^ f.fraction * f.gap w ≤ f.units w := by
  obtain ⟨e, m, hm, rfl⟩ := exists_fields h
  rw [f.gap_eq e hm, f.units_eq e hm]
  exact Nat.mul_le_mul_right _ (Nat.le_add_right _ _)

theorem round_le_add_part (hf : 0 < f.fraction) (h : f.round n 1 < f.top) :
    2 ^ (f.fraction + 1) * f.units (f.round n 1) ≤
      2 ^ (f.fraction + 1) * n + f.units (f.round n 1) := by
  have hnearest := nearest_round hf Nat.one_pos h
  generalize f.round n 1 = w at hnearest ⊢
  have hbefore := f.units_le_pred_add_gap w
  have hbelow := hnearest.below
  have hgap : f.gap (w - 1) ≤ f.gap w := gap_le_gap (Nat.sub_le w 1)
  rw [Nat.one_mul] at hbelow
  rcases Nat.lt_or_ge w (2 ^ f.fraction) with hlt | hge
  · -- whole units are not rounded
    rw [gap_of_lt hlt] at hgap
    have hle : f.units w ≤ n := by omega
    exact Nat.le_trans (Nat.mul_le_mul_left _ hle) (Nat.le_add_right _ _)
  · have hpart := f.gap_mul_le hge
    have hle : 2 * f.units w ≤ 2 * n + f.gap w := by omega
    have hscaled := Nat.mul_le_mul_left (2 ^ f.fraction) hle
    rw [Nat.mul_add, Nat.mul_left_comm, Nat.mul_left_comm _ 2 n] at hscaled
    rw [Nat.pow_succ, Nat.mul_comm _ 2, Nat.mul_assoc, Nat.mul_assoc]
    omega

theorem units_one_single : single.units (127 * 2 ^ (23 : Nat)) = single.one := by decide +kernel

theorem units_one_double : double.units (1023 * 2 ^ (52 : Nat)) = double.one := by decide +kernel

def finer : Nat := 2 ^ (925 : Nat)

theorem double_one_eq : double.one = finer * single.one := by decide +kernel

end Format

namespace Floating

variable {f : Format} {x y a : Floating f} {b : Nat}

theorem negative_ofWord (negative : Bool) (w : Nat) : (ofWord negative w : Floating f).negative = negative :=
  rfl

/-- How near a datum comes to the fraction `n / d` that is rounded to it and that the word `b` bounds. -/
structure Approximates (x : Floating f) (n d b : Nat) : Prop where
  isWeight : x.isWeight = true
  units_eq_zero : n = 0 → x.units = 0
  units_le : x.units ≤ f.units b
  above : 2 * (d * x.units) ≤ 2 * n + d * f.gap b
  below : 2 * n ≤ 2 * (d * x.units) + d * f.gap b

theorem approximates_ofWord (hf : 0 < f.fraction) {n d : Nat} (hd : 0 < d) (hb : b < f.top)
    (h : n ≤ d * f.units b) {negative : Bool} (hsign : negative = true → n = 0) :
    (ofWord negative (f.round n d) : Floating f).Approximates n d b := by
  have hword : (ofWord negative (f.round n d) : Floating f).word = f.round n d :=
    word_ofWord (f.round_lt_words _ _)
  have hbound := Format.round_le hf hd (Nat.le_of_lt hb) h
  have hzero (hn : n = 0) : (ofWord negative (f.round n d) : Floating f).units = 0 := by
    rw [units, hword, hn, Format.round_zero_of_pos f hd, Format.units_zero]
  obtain ⟨habove, hbelow⟩ := Format.round_error hf hd hb h
  rw [← hword] at hbound habove hbelow
  refine ⟨isWeight_iff.2 ⟨Nat.lt_of_le_of_lt hbound hb, fun hn => hzero (hsign ?_)⟩, hzero,
    Format.units_le_units hbound, habove, hbelow⟩
  rwa [negative_ofWord] at hn

/-- An amount that something is added to and something is taken off, each rounded, goes astray by no more
than one gap. -/
theorem add_sub_error (hf : 0 < f.fraction) (hb : b < f.top) (hx : x.IsAmount) (hy : y.isWeight = true)
    (ha : a.IsAmount) (hle : a.units ≤ x.units) (hsum : x.units + y.units ≤ f.units b) :
    (x + y - a).IsAmount ∧ (x + y - a).units + a.units ≤ x.units + y.units + f.gap b ∧
      x.units + y.units ≤ (x + y - a).units + a.units + f.gap b := by
  have hsum' : x.units + y.units ≤ 1 * f.units b := (Nat.one_mul _).symm ▸ hsum
  have hword := word_add hx hy
  have hbound : (x + y).word ≤ b := hword ▸ Format.round_le hf Nat.one_pos (Nat.le_of_lt hb) hsum'
  have htotal : (x + y).IsAmount :=
    (isAmount_add_iff hx hy).2 (decide_eq_true (Nat.lt_of_le_of_lt hbound hb))
  have horder : a.word ≤ (x + y).word := by
    refine Nat.le_trans ?_ (word_le_word_add hf hx hy)
    exact Nat.not_lt.1 (Format.units_lt_units_iff.not.1 (Nat.not_lt.2 hle))
  have hrest : (x + y).units - a.units ≤ 1 * f.units b := by
    rw [Nat.one_mul]
    exact Nat.le_trans (Nat.sub_le _ _) (Format.units_le_units hbound)
  have hword' : (x + y - a).word = f.round ((x + y).units - a.units) 1 := by
    rw [sub_eq_ofWord htotal ha horder, word_ofWord (f.round_lt_words _ _)]
  have hadd := Format.round_error hf Nat.one_pos hb hsum'
  have hsub := Format.round_error hf Nat.one_pos hb hrest
  have hunits : a.units ≤ (x + y).units := Format.units_le_units horder
  rw [← hword, Nat.one_mul, Nat.one_mul] at hadd
  rw [← hword', Nat.one_mul, Nat.one_mul] at hsub
  change 2 * (x + y).units ≤ _ ∧ _ ≤ 2 * (x + y).units + _ at hadd
  change 2 * (x + y - a).units ≤ _ ∧ _ ≤ 2 * (x + y - a).units + _ at hsub
  refine ⟨isAmount_sub hf htotal ha horder, ?_, ?_⟩
  · omega
  · omega

theorem units_ofNat {n : Nat} (hn : 0 < n) (hlt : n < 2 ^ (53 : Nat)) :
    (ofNat n : Binary64).IsAmount ∧ (ofNat n : Binary64).units = n * Format.double.one := by
  have hlow := Nat.log2_self_le (Nat.ne_of_gt hn)
  have hhigh : n < 2 ^ (n.log2 + 1) := Nat.lt_log2_self
  have hlog : n.log2 < 53 := (Nat.log2_lt (Nat.ne_of_gt hn)).2 hlt
  generalize n.log2 = j at hlow hhigh hlog
  have hpower : 2 ^ j * 2 ^ (52 - j) = 2 ^ (52 : Nat) := by
    rw [← Nat.pow_add]
    congr 1
    omega
  have hpower' : 2 ^ (j + 1) * 2 ^ (52 - j) = 2 ^ (53 : Nat) := by
    rw [← Nat.pow_add]
    congr 1
    omega
  have hq : n * 2 ^ (52 - j) ≤ 2 ^ (53 : Nat) := hpower' ▸ Nat.mul_le_mul_right _ (Nat.le_of_lt hhigh)
  have hq' : 2 ^ (52 : Nat) ≤ n * 2 ^ (52 - j) := hpower ▸ Nat.mul_le_mul_right _ hlow
  have hunits : Format.double.units ((1022 + j) * 2 ^ (52 : Nat) + n * 2 ^ (52 - j)) =
      n * Format.double.one := by
    have hsteps := Format.units_steps (f := .double) (q := n * 2 ^ (52 - j)) (s := 1022 + j) hq (Or.inr hq')
    have hone : Format.double.one = 2 ^ (1074 : Nat) := by decide +kernel
    have hexponent : 52 - j + (1022 + j) = 1074 := by omega
    rw [hone, ← hexponent, Nat.pow_add, ← Nat.mul_assoc]
    exact hsteps
  have htop : (1022 + j) * 2 ^ (52 : Nat) + n * 2 ^ (52 - j) < Format.double.top := by
    have htop : Format.double.top = 2047 * 2 ^ (52 : Nat) := rfl
    rw [htop]
    omega
  have hround : (ofNat n : Binary64) = ofWord false ((1022 + j) * 2 ^ (52 : Nat) + n * 2 ^ (52 - j)) := by
    rw [ofNat, ofRatio, ← hunits, Format.round_units (Nat.le_of_lt htop)]
  rw [hround]
  refine ⟨isAmount_ofWord htop, ?_⟩
  rw [Floating.units, word_ofWord (Nat.lt_trans htop Format.double.top_lt_words), hunits]

end Floating

end WeightedStore
