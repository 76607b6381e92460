import Mathlib.Tactic.Linarith
import WeightedStore.Proofs.Weighted.Leftover

/-!
The shares that weights have in their total. Rounding makes them fall short of one, but by less than an
average share where the total is finite and the weights are not too many.
-/

namespace WeightedStore

-- powers and zero as the core library has them, whatever else is imported
attribute [local instance (high)] instPowNat Zero.ofOfNat0

open Floating

namespace Floating

variable {w total : Binary32}

theorem units_div (hw : w.isWeight = true) (ht : total.isWeight = true) (hpos : 0 < total.units)
    (hle : w.units ≤ total.units) :
    (w / total).isWeight = true ∧ (w.units = 0 → (w / total).units = 0) ∧
      (w / total).units ≤ Format.single.one ∧
      2 ^ (24 : Nat) * (w.units * Format.single.one) ≤
        2 ^ (24 : Nat) * (total.units * (w / total).units) + total.units * Format.single.one := by
  obtain ⟨hwNaN, hwInfinite⟩ := isFinite_iff.1 (isFinite_of_isWeight hw)
  obtain ⟨htNaN, htInfinite⟩ := isFinite_iff.1 (isFinite_of_isWeight ht)
  have hsign : total.negative = false :=
    Bool.eq_false_iff.2 fun hn => Nat.ne_of_gt hpos ((isWeight_iff.1 ht).2 hn)
  have hquotient : w / total =
      ofWord w.negative (Format.single.round (w.units * Format.single.one) total.units) := by
    change div w total = _
    rw [div, hwNaN, htNaN, hwInfinite, htInfinite, hsign]
    simp [ofRatio, Nat.ne_of_gt hpos]
  have hscaled : w.units * Format.single.one ≤ total.units * Format.single.units (127 * 2 ^ (23 : Nat)) := by
    rw [Format.units_one_single]
    exact Nat.mul_le_mul_right _ hle
  have hsigned (hn : w.negative = true) : w.units * Format.single.one = 0 := by
    rw [(isWeight_iff.1 hw).2 hn, Nat.zero_mul]
  have hshare := approximates_ofWord Running.fraction_pos hpos (by decide) hscaled hsigned
  rw [← hquotient] at hshare
  refine ⟨hshare.isWeight, fun hzero => hshare.units_eq_zero ?_, ?_, ?_⟩
  · rw [hzero, Nat.zero_mul]
  · rw [← Format.units_one_single]
    exact hshare.units_le
  · have hgap : Format.single.one = 2 ^ (23 : Nat) * Format.single.gap (127 * 2 ^ (23 : Nat)) := by
      decide +kernel
    have htimes := Nat.mul_le_mul_left (2 ^ (23 : Nat)) hshare.below
    have hlast : total.units * Format.single.one =
        2 ^ (23 : Nat) * (total.units * Format.single.gap (127 * 2 ^ (23 : Nat))) := by
      rw [hgap, Nat.mul_left_comm]
    rw [hlast]
    omega

theorem units_div_infinity (hw : w.isWeight = true) :
    (w / infinity false).isWeight = true ∧ (w / infinity false).units = 0 := by
  obtain ⟨hNaN, hInfinite⟩ := isFinite_iff.1 (isFinite_of_isWeight hw)
  have hquotient : w / infinity false = ofWord (w.negative != false) 0 := by
    change div w (infinity false) = _
    rw [div, hNaN, hInfinite, isNaN_infinity, isInfinite_infinity]
    rfl
  rw [hquotient]
  cases w.negative <;> exact ⟨by decide, by decide⟩

/-- The shares of weights fall short of one by no more than two roundings for each. -/
theorem units_shares {ws : List Binary32} (hws : ∀ w ∈ ws, w.isWeight = true)
    (hfinite : (sum ws).isFinite = true) (hpos : 0 < (sum ws).units) :
    2 ^ (24 : Nat) * Format.single.one ≤ 2 ^ (24 : Nat) * ((ws.map (· / sum ws)).map units).sum +
      2 * ws.length * Format.single.one := by
  have htotal : (sum ws).isWeight = true := isWeight_iff_isSum.2 ⟨isSum_sum Running.fraction_pos hws, hfinite⟩
  have hsum : 2 ^ (24 : Nat) * (sum ws).units ≤
      2 ^ (24 : Nat) * (ws.map units).sum + ws.length * (sum ws).units :=
    units_sum_le Running.fraction_pos hws hfinite
  have hparts : ∀ w ∈ ws, w.units ≤ (sum ws).units := fun w => units_le_units_sum Running.fraction_pos hws
  generalize sum ws = total at *
  have hshares : 2 ^ (24 : Nat) * ((ws.map units).sum * Format.single.one) ≤
      2 ^ (24 : Nat) * (total.units * ((ws.map (· / total)).map units).sum) +
        ws.length * (total.units * Format.single.one) := by
    clear hsum
    induction ws with
    | nil => simp
    | cons w ws ih =>
      obtain ⟨hw, hws⟩ := List.forall_mem_cons.1 hws
      have hshare := (units_div hw htotal hpos (hparts w List.mem_cons_self)).2.2.2
      have hrest := ih hws fun v hv => hparts v (List.mem_cons_of_mem _ hv)
      rw [List.map_cons, List.sum_cons, List.map_cons, List.map_cons, List.sum_cons, List.length_cons,
        Nat.add_mul, Nat.mul_add, Nat.mul_add, Nat.mul_add, Nat.add_mul ws.length]
      omega
  generalize ((ws.map (· / total)).map units).sum = shares at hshares ⊢
  generalize Format.single.one = one at hshares ⊢
  have hscaled := Nat.mul_le_mul_right one hsum
  have htimes : total.units * (2 ^ (24 : Nat) * one) ≤
      total.units * (2 ^ (24 : Nat) * shares + 2 * ws.length * one) := by
    nlinarith only [hscaled, hshares]
  exact Nat.le_of_mul_le_mul_left htimes hpos

end Floating

namespace AliasTable

open Sweep

theorem le_add_of_scaled {d n u gap bound : Nat} (hd : 0 < d) (hgap : gap ≤ bound)
    (h : 2 * (d * n) ≤ 2 * (d * u) + d * gap) : n ≤ u + bound := by
  have hscaled : d * (2 * n) ≤ d * (2 * u + gap) := by
    rwa [Nat.mul_add, Nat.mul_left_comm, Nat.mul_left_comm d 2 u]
  have hle := Nat.le_of_mul_le_mul_left hscaled hd
  omega

theorem units_convert {x : Binary32} (hx : x.isWeight = true) (hone : x.units ≤ Format.single.one) :
    (x.convert : Binary64).isWeight = true ∧ (x.units = 0 → (x.convert : Binary64).units = 0) ∧
      (x.convert : Binary64).units ≤ Format.double.one ∧
      Format.finer * x.units ≤ (x.convert : Binary64).units + slack := by
  obtain ⟨hNaN, hInfinite⟩ := isFinite_iff.1 (isFinite_of_isWeight hx)
  have hpos := Format.single.one_pos
  have hconvert : (x.convert : Binary64) =
      ofWord x.negative (Format.double.round (x.units * Format.double.one) Format.single.one) := by
    rw [convert, hNaN, hInfinite]
    rfl
  have hle : x.units * Format.double.one ≤
      Format.single.one * Format.double.units (1023 * 2 ^ (52 : Nat)) := by
    rw [Format.units_one_double]
    exact Nat.mul_le_mul_right _ hone
  have hsigned (hn : x.negative = true) : x.units * Format.double.one = 0 := by
    rw [(isWeight_iff.1 hx).2 hn, Nat.zero_mul]
  have hshare := approximates_ofWord double_fraction_pos hpos (by decide) hle hsigned
  rw [← hconvert] at hshare
  refine ⟨hshare.isWeight, fun hzero => hshare.units_eq_zero ?_, ?_, ?_⟩
  · rw [hzero, Nat.zero_mul]
  · rw [← Format.units_one_double]
    exact hshare.units_le
  · have hbelow := hshare.below
    have hswap : x.units * Format.double.one = Format.single.one * (Format.finer * x.units) := by
      rw [Format.double_one_eq, Nat.mul_left_comm, Nat.mul_comm x.units, Nat.mul_left_comm]
    rw [hswap] at hbelow
    exact le_add_of_scaled hpos gap_one_le hbelow

theorem units_average {n : Nat} (hn : 0 < n) (hlt : n < 2 ^ (53 : Nat)) :
    (ofNat 1 / ofNat n : Binary64).IsAmount ∧
      (ofNat 1 / ofNat n : Binary64).units ≤ Format.double.one ∧
      n * (ofNat 1 / ofNat n : Binary64).units ≤ Format.double.one + n * slack := by
  obtain ⟨hone, hunitsOne⟩ := units_ofNat Nat.one_pos (by decide)
  obtain ⟨hcount, hunitsCount⟩ := units_ofNat hn hlt
  rw [Nat.one_mul] at hunitsOne
  have hpos : 0 < n * Format.double.one := Nat.mul_pos hn Format.double.one_pos
  have hquotient : (ofNat 1 / ofNat n : Binary64) =
      ofWord false (Format.double.round (Format.double.one * Format.double.one) (n * Format.double.one)) := by
    change div (ofNat 1) (ofNat n) = _
    rw [div, hone.isNaN, hcount.isNaN, hone.isInfinite, hcount.isInfinite, hone.negative, hcount.negative,
      hunitsOne, hunitsCount]
    simp [ofRatio, Nat.ne_of_gt hpos]
  have hle : Format.double.one * Format.double.one ≤
      n * Format.double.one * Format.double.units (1023 * 2 ^ (52 : Nat)) := by
    rw [Format.units_one_double]
    exact Nat.mul_le_mul_right _ (Nat.le_mul_of_pos_left _ hn)
  have hshare := approximates_ofWord double_fraction_pos hpos (by decide) hle
    fun hn => absurd hn Bool.false_ne_true
  rw [← hquotient] at hshare
  refine ⟨⟨hquotient ▸ negative_ofWord _ _, (isWeight_iff.1 hshare.isWeight).1⟩, ?_, ?_⟩
  · rw [← Format.units_one_double]
    exact hshare.units_le
  · have hswap (m : Nat) : n * Format.double.one * m = Format.double.one * (n * m) := by
      rw [Nat.mul_comm n, Nat.mul_assoc]
    have habove := hshare.above
    rw [hswap, hswap] at habove
    exact le_add_of_scaled Format.double.one_pos (Nat.mul_le_mul_left n gap_one_le) habove

theorem sum_masses {probabilities : List Binary32}
    (hweight : ∀ q ∈ probabilities, q.isWeight = true ∧ q.units ≤ Format.single.one) :
    Format.finer * (probabilities.map units).sum ≤
    (probabilities.map fun q => (q.convert : Binary64).units).sum + probabilities.length * slack := by
  induction probabilities with
  | nil =>
    rw [List.map_nil, List.sum_nil, Nat.mul_zero]
    exact Nat.zero_le _
  | cons q rest ih =>
    obtain ⟨hq, hrest⟩ := List.forall_mem_cons.1 hweight
    have hshare := (units_convert hq.1 hq.2).2.2.2
    have hrest := ih hrest
    rw [List.map_cons, List.sum_cons, List.map_cons, List.sum_cons, List.length_cons,
      Nat.add_mul rest.length 1 slack, Nat.one_mul, Nat.mul_add]
    omega

/-- Shares that fall short of a whole by two roundings each, when the whole has `one` parts and rounding loses
one of `2 ^ (24 : Nat)`, leave more than all columns but one can take. -/
theorem enough_of_shares {n average mass shares loss one part : Nat} (hn : n ≤ 2 ^ (11 : Nat))
    (hloss : 0 < loss) (hone : one = 2 ^ (50 : Nat) * loss) (haverage : n * average ≤ one + n * loss)
    (hmass : part * shares ≤ mass + n * loss) {whole : Nat} (hwhole : one = part * whole)
    (hshares : 2 ^ (24 : Nat) * whole ≤ 2 ^ (24 : Nat) * shares + 2 * n * whole) :
    (n - 1) * average + n * loss < mass := by
  have hsum : 2 ^ (24 : Nat) * one ≤ 2 ^ (24 : Nat) * (mass + n * loss) + 2 * n * one := by
    have hscaled := Nat.mul_le_mul_left part hshares
    rw [Nat.mul_add, Nat.mul_left_comm, Nat.mul_left_comm part, Nat.mul_left_comm part, ← hwhole] at hscaled
    exact Nat.le_trans hscaled (Nat.add_le_add_right (Nat.mul_le_mul_left _ hmass) _)
  by_contra hnot
  rw [Nat.not_lt] at hnot
  cases n with
  | zero => omega
  | succ m =>
    rw [Nat.add_sub_cancel] at hnot
    have htimes : (m + 1) * mass ≤ m * (one + (m + 1) * loss) + (m + 1) * ((m + 1) * loss) :=
      calc (m + 1) * mass ≤ (m + 1) * (m * average + (m + 1) * loss) := Nat.mul_le_mul_left _ hnot
        _ = m * ((m + 1) * average) + (m + 1) * ((m + 1) * loss) := by
          rw [Nat.mul_add, Nat.mul_left_comm]
        _ ≤ m * (one + (m + 1) * loss) + (m + 1) * ((m + 1) * loss) :=
          Nat.add_le_add_right (Nat.mul_le_mul_left m haverage) _
    have hsquare : (m + 1) * (m + 1) ≤ 2 ^ (22 : Nat) := by nlinarith only [hn]
    have htotal := Nat.mul_le_mul_left (m + 1) hsum
    rw [hone] at htimes htotal
    nlinarith only [htimes, htotal, hsquare, hloss]

end AliasTable

end WeightedStore
