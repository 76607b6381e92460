import WeightedStore.Proofs.Binary.Amounts
import WeightedStore.Weighted.Running

/-!
Running totals of weights. They ascend, and stay finite or reach infinity for good. The weights that
are taken back from finite totals add up to the same totals again, however the sums were rounded; only
behind an infinite total there is nothing to take back.
-/

namespace WeightedStore

namespace Floating

variable {f : Format} {x y w : Floating f}

structure IsTotal (x : Floating f) : Prop where
  negative : x.negative = false
  word_le_top : x.word ≤ f.top

theorem IsAmount.isTotal (h : x.IsAmount) : x.IsTotal := ⟨h.negative, Nat.le_of_lt h.word_lt_top⟩

namespace IsTotal

theorem isAmount (h : x.IsTotal) (hfinite : x.isFinite = true) : x.IsAmount :=
  ⟨h.negative, of_decide_eq_true hfinite⟩

theorem eq_infinity (h : x.IsTotal) (hfinite : x.isFinite = false) : x = infinity false := by
  have hword : x.word = f.top := Nat.le_antisymm h.word_le_top
    (Nat.not_lt.1 (of_decide_eq_false hfinite))
  rw [infinity, ← hword, ← h.negative, ofWord_word]

theorem isNaN (h : x.IsTotal) : x.isNaN = false := decide_eq_false (Nat.not_lt.2 h.word_le_top)

theorem atMost_iff (hx : x.IsTotal) (hy : y.IsTotal) : x.atMost y = true ↔ x.word ≤ y.word := by
  have hvalue {z : Floating f} (hz : z.IsTotal) : z.value = f.units z.word := by
    rw [value, hz.negative]
    rfl
  simp only [atMost, hx.isNaN, hy.isNaN, hvalue hx, hvalue hy, Bool.not_false, Bool.true_and,
    decide_eq_true_eq, Int.ofNat_le]
  rw [← Nat.not_lt, ← Nat.not_lt, Format.units_lt_units_iff]

theorem not_below_zero (h : x.IsTotal) : x.below zero = false := by
  have hzero : (zero : Floating f).value = 0 := by
    simp [value, units, zero, ofWord]
  rw [below, hzero, value, h.negative]
  simp

theorem add (hf : 0 < f.fraction) (hx : x.IsTotal) (hw : w.isWeight = true) :
    (x + w).IsTotal ∧ x.word ≤ (x + w).word := by
  cases hfinite : x.isFinite with
  | true =>
    have hamount := hx.isAmount hfinite
    have hle := word_le_word_add hf hamount hw
    refine ⟨?_, hle⟩
    rw [word_add hamount hw] at hle
    rw [add_eq_ofWord hamount hw]
    refine ⟨rfl, ?_⟩
    rw [word_ofWord (f.round_lt_words _ _)]
    exact f.round_le_top _ _
  | false =>
    rw [hx.eq_infinity hfinite, infinity_add false hw]
    exact ⟨hx.eq_infinity hfinite ▸ hx, Nat.le_refl _⟩

theorem sub_zero (h : x.IsTotal) (htop : 0 < f.top) : x - zero = x := by
  cases hfinite : x.isFinite with
  | true =>
    have hx := h.isAmount hfinite
    have hzero : (zero : Floating f).units = 0 := by
      simp [units, word_zero]
    rw [sub_eq_ofWord hx (isAmount_zero htop) (word_zero.symm ▸ Nat.zero_le _), hzero, Nat.sub_zero,
      units, Format.round_units h.word_le_top, hx.ofWord_word]
  | false =>
    rw [h.eq_infinity hfinite]
    exact infinity_sub false (isAmount_zero htop)

end IsTotal

theorem IsAmount.mul_eq_ofWord (hx : x.IsAmount) (hy : y.IsAmount) :
    x * y = ofWord false (f.round (x.units * y.units) f.one) := by
  change Floating.mul x y = _
  rw [Floating.mul, hx.isNaN, hy.isNaN, hx.isInfinite, hy.isInfinite, hx.negative, hy.negative]
  rfl

theorem IsAmount.mul (hx : x.IsAmount) (hy : y.IsAmount) : (x * y).IsTotal := by
  rw [hx.mul_eq_ofWord hy]
  refine ⟨rfl, ?_⟩
  rw [word_ofWord (f.round_lt_words _ _)]
  exact f.round_le_top _ _

end Floating

namespace Running

open Floating

variable {x t w : Binary32} {ws ts : List Binary32} {p : Nat}

theorem fraction_pos : 0 < Format.single.fraction := by decide

def weightsFrom (total : Binary32) : List Binary32 → List Binary32
  | [] => []
  | t :: ts => (t - total) :: weightsFrom t ts

theorem weights_cons (t : Binary32) (ts : List Binary32) :
    weights (t :: ts) = t :: weightsFrom t ts := by
  have h (t : Binary32) : List.zipWith (· - ·) ts (t :: ts) = weightsFrom t ts := by
    induction ts generalizing t with
    | nil => rfl
    | cons s ts ih => rw [List.zipWith_cons_cons, ih, weightsFrom]
  rw [weights, h]

section Places

theorem exists_before (hw : ws[p]? = some w) :
    ∃ before, (x :: totalsFrom x ws)[p]? = some before ∧
      (totalsFrom x ws)[p]? = some (before + w) := by
  induction ws generalizing x p with
  | nil => simp at hw
  | cons v ws ih =>
    cases p with
    | zero =>
      obtain rfl : v = w := by simpa using hw
      exact ⟨x, rfl, rfl⟩
    | succ p =>
      rw [List.getElem?_cons_succ] at hw
      exact ih hw

theorem getElem?_weightsFrom {before : Binary32} (hbefore : (x :: ts)[p]? = some before)
    (ht : ts[p]? = some t) : (weightsFrom x ts)[p]? = some (t - before) := by
  induction ts generalizing x p with
  | nil => simp at ht
  | cons s ts ih =>
    cases p with
    | zero =>
      obtain rfl : s = t := by simpa using ht
      obtain rfl : x = before := by simpa using hbefore
      rfl
    | succ p =>
      rw [List.getElem?_cons_succ] at ht hbefore
      exact ih hbefore ht

end Places

section Infinite

theorem totalsFrom_replicate {s : Binary32} (hfirst : x + w = s) (h : s + w = s) (n : Nat) :
    totalsFrom x (List.replicate n w) = List.replicate n s := by
  induction n generalizing x with
  | zero => rfl
  | succ n ih => rw [List.replicate_succ, totalsFrom, hfirst, ih h, List.replicate_succ]

theorem weightsFrom_replicate (hfirst : t - x = w) (h : t - t = w) (n : Nat) :
    weightsFrom x (List.replicate n t) = List.replicate n w := by
  induction n generalizing x with
  | zero => rfl
  | succ n ih => rw [List.replicate_succ, weightsFrom, hfirst, ih h, List.replicate_succ]

theorem totalsFrom_infinity (hws : ∀ w ∈ ws, w.isWeight = true) :
    totalsFrom (infinity false) ws = List.replicate ws.length (infinity false) := by
  induction ws with
  | nil => rfl
  | cons w ws ih =>
    obtain ⟨hw, hws⟩ := List.forall_mem_cons.1 hws
    rw [totalsFrom, infinity_add false hw, ih hws, List.length_cons, List.replicate_succ]

theorem weightsFrom_infinity (hws : ∀ w ∈ ws, w.isWeight = true) :
    weightsFrom (infinity false) (totalsFrom (infinity false) ws) =
      List.replicate ws.length (nan true) := by
  rw [totalsFrom_infinity hws]
  -- infinity taken off infinity leaves no number
  exact weightsFrom_replicate (by decide) (by decide) _

theorem totalsFrom_weightsFrom_infinity (hws : ∀ w ∈ ws, w.isWeight = true) :
    totalsFrom (infinity false) (weightsFrom (infinity false) (totalsFrom (infinity false) ws)) =
      List.replicate ws.length (nan true) := by
  rw [weightsFrom_infinity hws]
  exact totalsFrom_replicate (by decide) (by decide) _

end Infinite

section Checked

theorem isTotal_add (hx : x.IsTotal) (hw : w.isWeight = true) : (x + w).IsTotal :=
  (hx.add fraction_pos hw).1

theorem ascending_totalsFrom (hx : x.IsTotal) (hws : ∀ w ∈ ws, w.isWeight = true) :
    (∀ t ∈ totalsFrom x ws, t.IsTotal) ∧
      (x :: totalsFrom x ws).Pairwise fun s t => s.word ≤ t.word := by
  induction ws generalizing x with
  | nil => exact ⟨nofun, List.pairwise_singleton _ _⟩
  | cons w ws ih =>
    obtain ⟨hw, hws⟩ := List.forall_mem_cons.1 hws
    obtain ⟨hnext, hle⟩ := hx.add fraction_pos hw
    obtain ⟨htotals, hascending⟩ := ih hnext hws
    rw [totalsFrom]
    refine ⟨List.forall_mem_cons.2 ⟨hnext, htotals⟩, List.pairwise_cons.2 ⟨fun t ht => ?_, hascending⟩⟩
    rcases List.mem_cons.1 ht with rfl | ht
    · exact hle
    · exact Nat.le_trans hle ((List.pairwise_cons.1 hascending).1 t ht)

theorem isWeight_weightsFrom (hx : x.IsAmount) (hws : ∀ w ∈ ws, w.isWeight = true)
    (hfinite : ∀ t ∈ totalsFrom x ws, t.isFinite = true) :
    ∀ w ∈ weightsFrom x (totalsFrom x ws), w.isWeight = true := by
  induction ws generalizing x with
  | nil => exact nofun
  | cons w ws ih =>
    obtain ⟨hw, hws⟩ := List.forall_mem_cons.1 hws
    obtain ⟨hnext, hfinite⟩ := List.forall_mem_cons.1 hfinite
    have hgrowth := isAmount_growth fraction_pos hx hw hnext
    have hsum := (isAmount_add_iff hx hw).2 hnext
    exact List.forall_mem_cons.2 ⟨hgrowth.isWeight, ih hsum hws hfinite⟩

theorem isWeight_of_isFinite (hx : x.IsAmount) (hws : ∀ w ∈ ws, w.isWeight = true) :
    ∀ v ∈ weightsFrom x (totalsFrom x ws), v.isFinite = true → v.isWeight = true := by
  induction ws generalizing x with
  | nil => exact nofun
  | cons w ws ih =>
    obtain ⟨hw, hws⟩ := List.forall_mem_cons.1 hws
    rw [totalsFrom, weightsFrom, List.forall_mem_cons]
    cases hfinite : (x + w).isFinite with
    | true =>
      have hgrowth := isAmount_growth fraction_pos hx hw hfinite
      exact ⟨fun _ => hgrowth.isWeight, ih ((isAmount_add_iff hx hw).2 hfinite) hws⟩
    | false =>
      -- infinity first, and no number behind it
      rw [add_eq_infinity hx hw hfinite, infinity_sub false hx, weightsFrom_infinity hws]
      refine ⟨fun h => absurd h (by decide), fun v hv h => ?_⟩
      rw [List.eq_of_mem_replicate hv] at h
      exact absurd h (by decide)

/-- What is taken back from totals and added up again gives the same totals, if all of them but the
last are finite. -/
theorem totalsFrom_weightsFrom_iff (hx : x.IsAmount) (hws : ∀ w ∈ ws, w.isWeight = true) :
    totalsFrom x (weightsFrom x (totalsFrom x ws)) = totalsFrom x ws ↔
      ∀ t ∈ (totalsFrom x ws).dropLast, t.isFinite = true := by
  induction ws generalizing x with
  | nil => simp [totalsFrom, weightsFrom]
  | cons w ws ih =>
    obtain ⟨hw, hws⟩ := List.forall_mem_cons.1 hws
    -- the first total comes back in any case, and the others start from it
    rw [totalsFrom, weightsFrom, totalsFrom, add_growth fraction_pos hx hw,
      List.cons_eq_cons, and_iff_right rfl]
    cases ws with
    | nil => simp [totalsFrom, weightsFrom]
    | cons v ws =>
      have hne : totalsFrom (x + w) (v :: ws) ≠ [] := List.cons_ne_nil _ _
      rw [List.dropLast_cons_of_ne_nil hne, List.forall_mem_cons]
      cases hfinite : (x + w).isFinite with
      | true => rw [ih ((isAmount_add_iff hx hw).2 hfinite) hws, and_iff_right rfl]
      | false =>
        rw [add_eq_infinity hx hw hfinite, totalsFrom_weightsFrom_infinity hws,
          totalsFrom_infinity hws]
        -- the place behind infinity has no number now
        refine iff_of_false (fun h => ?_) (fun h => ?_)
        · have hhead := (List.cons.inj h).1
          exact absurd hhead (by decide)
        · exact absurd h.1 (by decide)

/-- What is taken back a second time is what was taken back at first, numbers or not. -/
theorem weightsFrom_totalsFrom (hx : x.IsAmount) (hws : ∀ w ∈ ws, w.isWeight = true) :
    weightsFrom x (totalsFrom x (weightsFrom x (totalsFrom x ws))) =
      weightsFrom x (totalsFrom x ws) := by
  induction ws generalizing x with
  | nil => rfl
  | cons w ws ih =>
    obtain ⟨hw, hws⟩ := List.forall_mem_cons.1 hws
    rw [totalsFrom, weightsFrom, totalsFrom, add_growth fraction_pos hx hw, weightsFrom]
    congr 1
    cases hfinite : (x + w).isFinite with
    | true => exact ih ((isAmount_add_iff hx hw).2 hfinite) hws
    | false =>
      rw [add_eq_infinity hx hw hfinite, totalsFrom_weightsFrom_infinity hws,
        weightsFrom_infinity hws]
      exact weightsFrom_replicate (by decide) (by decide) _

end Checked

section Columns

theorem isAmount_start : (zero : Binary32).IsAmount := isAmount_zero (by decide)

theorem weights_eq_weightsFrom (h : ∀ t, ts.head? = some t → t.IsTotal) :
    weights ts = weightsFrom zero ts := by
  cases ts with
  | nil => rfl
  | cons t ts => rw [weights_cons, weightsFrom, (h t rfl).sub_zero (by decide)]

variable (hws : ∀ w ∈ ws, w.isWeight = true)
include hws

theorem weights_totals : weights (totals ws) = weightsFrom zero (totals ws) :=
  weights_eq_weightsFrom fun t ht =>
    (ascending_totalsFrom isAmount_start.isTotal hws).1 t (List.mem_of_head? ht)

theorem totals_weights_iff :
    totals (weights (totals ws)) = totals ws ↔ ∀ t ∈ (totals ws).dropLast, t.isFinite = true := by
  rw [weights_totals hws]
  exact totalsFrom_weightsFrom_iff isAmount_start hws

theorem weights_totals_weights : weights (totals (weights (totals ws))) = weights (totals ws) := by
  have hhead : ∀ t, (totals (weights (totals ws))).head? = some t → t.IsTotal := by
    rw [weights_totals hws]
    cases ws with
    | nil => exact nofun
    | cons w ws =>
      have hw := hws w List.mem_cons_self
      rintro _ ⟨⟩
      rw [add_growth fraction_pos isAmount_start hw]
      exact isTotal_add isAmount_start.isTotal hw
  rw [weights_eq_weightsFrom hhead, weights_totals hws]
  exact weightsFrom_totalsFrom isAmount_start hws

end Columns

theorem isAmount_of_isFinite (hws : ∀ w ∈ ws, w.isFinite = true → w.isWeight = true)
    (ht : upTo? (totals ws) p = some t) (hfinite : t.isFinite = true) : t.IsAmount := by
  induction p generalizing t with
  | zero =>
    obtain rfl := Option.some.inj ht
    exact isAmount_start
  | succ p ih =>
    obtain ⟨w, hw⟩ : ∃ w, ws[p]? = some w := by
      rw [upTo?, List.getElem?_cons_succ] at ht
      obtain ⟨hp, -⟩ := List.getElem?_eq_some_iff.1 ht
      rw [length_totals] at hp
      exact ⟨ws[p], List.getElem?_eq_getElem hp⟩
    obtain ⟨before, hbefore, hsum⟩ := exists_before (x := zero) hw
    obtain rfl : before + w = t := Option.some.inj (hsum.symm.trans ht)
    -- no summand of a finite sum is infinite or no number
    obtain ⟨hbeforeFinite, hwFinite⟩ := isFinite_of_add fraction_pos hfinite
    have hweight := hws w (List.mem_of_getElem? hw) hwFinite
    exact (isAmount_add_iff (ih hbefore hbeforeFinite) hweight).2 hfinite

theorem exists_taken (hws : ∀ w ∈ ws, w.isFinite = true → w.isWeight = true) (hw : ws[p]? = some w) :
    ∃ before total taken, upTo? (totals ws) p = some before ∧ (totals ws)[p]? = some total ∧
      (weights (totals ws))[p]? = some taken ∧ total = before + w ∧
      (total.isFinite = true → (zero.below taken = true ↔ before.MovedBy w)) := by
  obtain ⟨before, hbefore, htotal⟩ := exists_before (x := zero) hw
  have hcounts (hfinite : (before + w).isFinite = true) :
      (before + w).IsAmount ∧ (zero.below (before + w - before) = true ↔ before.MovedBy w) := by
    obtain ⟨hbeforeFinite, hwFinite⟩ := isFinite_of_add fraction_pos hfinite
    have hx := isAmount_of_isFinite hws hbefore hbeforeFinite
    have hweight := hws w (List.mem_of_getElem? hw) hwFinite
    exact ⟨(isAmount_add_iff hx hweight).2 hfinite,
      zero_below_growth_iff fraction_pos hx hweight hfinite⟩
  cases ws with
  | nil => simp at hw
  | cons v ws =>
    cases p with
    | zero =>
      -- the first total is reported as it is
      obtain rfl : v = w := Option.some.inj hw
      obtain rfl : zero = before := Option.some.inj hbefore
      refine ⟨zero, zero + v, zero + v, rfl, rfl, rfl, rfl, fun hfinite => ?_⟩
      obtain ⟨hamount, hiff⟩ := hcounts hfinite
      rwa [hamount.isTotal.sub_zero (by decide)] at hiff
    | succ p =>
      refine ⟨before, before + w, before + w - before, hbefore, htotal, ?_, rfl, fun hfinite =>
        (hcounts hfinite).2⟩
      rw [totals, totalsFrom, weights_cons, List.getElem?_cons_succ]
      exact getElem?_weightsFrom hbefore htotal

end Running

end WeightedStore
