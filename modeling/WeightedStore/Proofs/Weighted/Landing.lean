import WeightedStore.Proofs.Weighted.Answers
import WeightedStore.Proofs.Weighted.Outcomes

/-!
Where a draw by weight lands. On whatever data it stays within its interval, and it takes a word exactly if it
lands. Where the totals ascend, the point that is drawn lies no lower than the total before the interval, and
may be rounded onto the last total or past it. Each of the two searches then ends at a place where the totals
rise, so that no place without weight is drawn.
-/

namespace WeightedStore

-- powers and zero as the core library has them, whatever else is imported
attribute [local instance (high)] instPowNat Zero.ofOfNat0

theorem Format.round_eq_zero_iff {f : Format} {n : Nat} (hf : 0 < f.fraction) (htop : 0 < f.top) :
    f.round n 1 = 0 ↔ n = 0 := by
  constructor
  · intro h
    by_contra hne
    have hone : f.units 1 = 1 := (f.units_succ 0).trans (by simp [Format.gap])
    have hle : f.units 1 ≤ n := by omega
    have hround := Format.round_le_round (f := f) hf Nat.one_pos hle
    rw [Format.round_units htop] at hround
    omega
  · rintro rfl
    exact Format.round_zero f

namespace Floating

variable {f : Format} {u w x y : Floating f}

theorem IsSum.atMost_iff (hx : x.IsSum) (hy : y.IsSum) : x.atMost y = true ↔ x.units ≤ y.units := by
  rw [atMost, hx.isNaN, hy.isNaN, hx.value, hy.value]
  simp

theorem isAmount_of_units_pos (hx : x.isWeight = true) (hpos : 0 < x.units) : x.IsAmount :=
  ⟨Bool.eq_false_iff.2 fun hn => Nat.ne_of_gt hpos ((isWeight_iff.1 hx).2 hn), (isWeight_iff.1 hx).1⟩

theorem isWeight_opposite (hx : x.isWeight = true) (hzero : x.units = 0) : x.opposite.isWeight = true := by
  have hnumber := (isFinite_iff.1 (isFinite_of_isWeight hx)).1
  rw [opposite, hnumber]
  exact isWeight_iff.2 ⟨(isWeight_iff.1 hx).1, fun _ => hzero⟩

theorem units_opposite (x : Floating f) : x.opposite.units = x.units := by
  rw [opposite]
  split <;> rfl

theorem isWeight_sub (hf : 0 < f.fraction) (hx : x.isWeight = true) (hy : y.isWeight = true)
    (h : y.units ≤ x.units) : (x - y).isWeight = true ∧ ((x - y).units = 0 ↔ x.units = y.units) := by
  have hlt := (isWeight_iff.1 hx).1
  by_cases hzero : y.units = 0
  · have hopposite := isWeight_opposite hy hzero
    have hword : (x + y.opposite).word = x.word := by
      rw [(isSum_of_isWeight hx).word_add (isFinite_of_isWeight hx) hopposite, units_opposite, hzero,
        Nat.add_zero, units, Format.round_units (Nat.le_of_lt hlt)]
    have hsum := ((isSum_of_isWeight hx).add hf hopposite).1
    have hfinite : (x + y.opposite).isFinite = true := decide_eq_true (hword ▸ hlt)
    refine ⟨isWeight_iff_isSum.2 ⟨hsum, hfinite⟩, ?_⟩
    change f.units (x + y.opposite).word = 0 ↔ _
    rw [hword, hzero]
    rfl
  · have hyAmount := isAmount_of_units_pos hy (Nat.pos_of_ne_zero hzero)
    have hxAmount := isAmount_of_units_pos hx (by omega)
    have hle : y.word ≤ x.word := Nat.not_lt.1 fun hlt => Nat.not_lt.2 h (Format.units_lt_units hlt)
    refine ⟨(isAmount_sub hf hxAmount hyAmount hle).isWeight, ?_⟩
    rw [← word_eq_zero_iff, sub_eq_ofWord hxAmount hyAmount hle, word_ofWord (f.round_lt_words _ _),
      Format.round_eq_zero_iff hf (Nat.lt_of_le_of_lt (Nat.zero_le _) hlt)]
    omega

theorem IsAmount.mul_of_units_le_one (hf : 0 < f.fraction) (hu : u.IsAmount) (hone : u.units ≤ f.one)
    (hw : w.IsAmount) : (u * w).IsAmount := by
  have hproduct : u.units * w.units ≤ f.one * f.units w.word := Nat.mul_le_mul_right _ hone
  have hle := Format.round_le hf f.one_pos (Nat.le_of_lt hw.word_lt_top) hproduct
  rw [hu.mul_eq_ofWord hw]
  exact isAmount_ofWord (Nat.lt_of_le_of_lt hle hw.word_lt_top)

end Floating

namespace Bisect

variable {α : Type} {p : α → Bool} {xs : List α} {x : α}

theorem exists_turn (h : xs.Pairwise fun x y => p y = true → p x = true) (hx : p x = true)
    (hlt : point p xs < xs.length) : ∃ before after, (x :: xs)[point p xs]? = some before ∧
      xs[point p xs]? = some after ∧ p before = true ∧ p after = false := by
  have hafter := List.getElem?_eq_getElem hlt
  have hnot : p xs[point p xs] = false :=
    Bool.eq_false_iff.2 fun hp => Nat.lt_irrefl _ ((lt_point_iff h hafter).2 hp)
  obtain ⟨before, hbefore, hp⟩ : ∃ before, (x :: xs)[point p xs]? = some before ∧ p before = true := by
    cases hpoint : point p xs with
    | zero => exact ⟨x, rfl, hx⟩
    | succ i =>
      have hi : i < point p xs := hpoint ▸ Nat.lt_succ_self i
      have hbefore := List.getElem?_eq_getElem (Nat.lt_trans hi hlt)
      exact ⟨_, hbefore, (lt_point_iff h hbefore).1 hi⟩
  exact ⟨before, _, hbefore, hafter, hp, hnot⟩

end Bisect

namespace Running

open Floating Draw

variable {totals : List Binary32} {start stop : Nat}

def RisesAt (totals : List Binary32) (i : Nat) : Prop := ∃ before after,
  (zero :: totals)[i]? = some before ∧ totals[i]? = some after ∧ before.below after = true

theorem getElem?_slice (totals : List Binary32) (start : Nat) {i : Nat} (hi : start + i < stop) :
    ((totals.take stop).drop start)[i]? = totals[start + i]? := by
  rw [List.getElem?_drop, List.getElem?_take_of_lt hi]

theorem getElem?_upTo_slice (hstart : start ≤ totals.length) {i : Nat} (hi : start + i ≤ stop) :
    (upTo totals start :: (totals.take stop).drop start)[i]? = (zero :: totals)[start + i]? := by
  cases i with
  | zero => exact (exists_upTo? hstart).symm
  | succ i =>
    rw [List.getElem?_cons_succ, getElem?_slice totals start hi, ← Nat.add_assoc, List.getElem?_cons_succ]

section Unordered

/-- Whether there is nothing to draw from: the places are no interval of the column, or its weight compares as
no more than zero. A weight that is no number does not compare. -/
def Undrawable (totals : List Binary32) (start stop : Nat) : Prop :=
  stop ≤ start ∨ totals.length < stop ∨ (intervalWeight totals start stop).atMost zero = true

theorem not_undrawable_iff : ¬Undrawable totals start stop ↔ start < stop ∧ stop ≤ totals.length ∧
    ¬(intervalWeight totals start stop).atMost zero = true := by
  rw [Undrawable, not_or, not_or, Nat.not_le, Nat.not_lt]

theorem intervalWeight_eq (hstart : start < stop) (hstop : stop ≤ totals.length) :
    intervalWeight totals start stop = upTo totals stop - upTo totals start := by
  rw [intervalWeight, intervalWeight?, if_neg (Nat.not_le.2 hstart), exists_upTo? hstop,
    exists_upTo? (Nat.le_trans (Nat.le_of_lt hstart) hstop)]
  rfl

theorem select_of_undrawable (h : Undrawable totals start stop) (stream : WordStream) (used : Nat) :
    select totals start stop stream used = some (none, used) := by
  rw [select]
  split
  · rfl
  rename_i hplaces
  rw [not_or, Nat.not_le, Nat.not_lt] at hplaces
  rcases h with hempty | hpast | hweight
  · exact absurd hplaces.1 (Nat.not_lt.2 hempty)
  · exact absurd hplaces.2 (Nat.not_le.2 hpast)
  · rw [intervalWeight_eq hplaces.1 hplaces.2] at hweight
    dsimp only
    rw [if_pos hweight]
    rfl

theorem exists_select_of_not_undrawable (h : ¬Undrawable totals start stop) (stream : WordStream) (used : Nat) :
    ∃ point, select totals start stop stream used = some (some (placeOf totals start stop point), used + 1) := by
  obtain ⟨hstart, hstop, hweight⟩ := not_undrawable_iff.1 h
  obtain ⟨u, hu⟩ : ∃ u, coin stream used = some (u, used + 1) := ⟨_, rfl⟩
  rw [intervalWeight_eq hstart hstop] at hweight
  refine ⟨upTo totals start + u * (upTo totals stop - upTo totals start), ?_⟩
  rw [select, if_neg (by omega), if_neg hweight, bind_apply, hu]
  rfl

/-- On any totals, which need not ascend nor be numbers, a draw is always answered. It gives nothing and leaves
the stream alone exactly if the interval is no part of the column or its weight compares as no more than zero.
Otherwise it takes one word and gives a place of the interval. -/
theorem select_stays_within (totals : List Binary32) (start stop : Nat) (stream : WordStream) (used : Nat) :
    ∃ drawn used', select totals start stop stream used = some (drawn, used') ∧
      (∀ i ∈ drawn, start ≤ i ∧ i < stop ∧ stop ≤ totals.length) ∧
      (drawn = none ∧ used' = used ↔ stop ≤ start ∨ totals.length < stop ∨
        (intervalWeight totals start stop).atMost zero = true) ∧
      (¬(drawn = none ∧ used' = used) → drawn.isSome = true ∧ used' = used + 1) := by
  by_cases h : Undrawable totals start stop
  · exact ⟨none, used, select_of_undrawable h stream used, nofun, iff_of_true ⟨rfl, rfl⟩ h,
      fun hnot => absurd ⟨rfl, rfl⟩ hnot⟩
  · obtain ⟨point, hselect⟩ := exists_select_of_not_undrawable h stream used
    refine ⟨_, _, hselect, ?_, iff_of_false nofun h, fun _ => ⟨rfl, rfl⟩⟩
    rintro _ ⟨⟩
    obtain ⟨hstart, hstop, -⟩ := not_undrawable_iff.1 h
    obtain ⟨hge, hlt⟩ := placeOf_mem hstart hstop point
    exact ⟨hge, hlt, hstop⟩

end Unordered

section Ascending

variable (hweights : ∀ c ∈ totals, c.isWeight = true)
include hweights

theorem isWeight_upTo (i : Nat) : (upTo totals i).isWeight = true := by
  cases hi : upTo? totals i with
  | none =>
    rw [upTo, hi]
    exact isAmount_start.isWeight
  | some c =>
    rw [upTo, hi]
    rcases List.mem_cons.1 (List.mem_of_getElem? hi) with rfl | hc
    · exact isAmount_start.isWeight
    · exact hweights c hc

theorem value_upTo_eq_iff : (upTo totals stop).value = (upTo totals start).value ↔
    (upTo totals stop).units = (upTo totals start).units := by
  rw [(isSum_of_isWeight (isWeight_upTo hweights stop)).value,
    (isSum_of_isWeight (isWeight_upTo hweights start)).value, Int.ofNat_inj]

theorem isSum_point (hlow : (upTo totals start).units < (upTo totals stop).units)
    {u : Binary32} (hu : u.IsAmount) (hone : u.units ≤ Format.single.one) :
    (upTo totals start + u * (upTo totals stop - upTo totals start)).IsSum ∧ (upTo totals start).units ≤
      (upTo totals start + u * (upTo totals stop - upTo totals start)).units := by
  have hfirst := isWeight_upTo hweights start
  obtain ⟨hweight, hzero⟩ := isWeight_sub fraction_pos (isWeight_upTo hweights stop) hfirst
    (Nat.le_of_lt hlow)
  have hpos : 0 < (upTo totals stop - upTo totals start).units :=
    Nat.pos_of_ne_zero fun h => Nat.ne_of_gt hlow (hzero.1 h)
  have hpart := hu.mul_of_units_le_one fraction_pos hone (isAmount_of_units_pos hweight hpos)
  obtain ⟨hsum, hle, -⟩ := (isSum_of_isWeight hfirst).add fraction_pos hpart.isWeight
  exact ⟨hsum, hle⟩

theorem units_upTo_le (hascend : totals.Pairwise fun s t => s.atMost t = true) (hle : start ≤ stop)
    (hstop : stop ≤ totals.length) : (upTo totals start).units ≤ (upTo totals stop).units := by
  have hunits : (zero :: totals).Pairwise fun s t => s.units ≤ t.units := by
    refine List.pairwise_cons.2 ⟨fun c _ => ?_, hascend.imp_of_mem fun hs ht hle => ?_⟩
    · rw [word_eq_zero_iff.1 word_zero]
      exact Nat.zero_le _
    · exact ((isSum_of_isWeight (hweights _ hs)).atMost_iff (isSum_of_isWeight (hweights _ ht))).1 hle
  rcases Nat.eq_or_lt_of_le hle with rfl | hlt
  · exact Nat.le_refl _
  · obtain ⟨hfirst, hstartAt⟩ := List.getElem?_eq_some_iff.1 (exists_upTo? (Nat.le_trans hle hstop))
    obtain ⟨hlast, hstopAt⟩ := List.getElem?_eq_some_iff.1 (exists_upTo? hstop)
    rw [← hstartAt, ← hstopAt]
    exact List.pairwise_iff_getElem.1 hunits start stop hfirst hlast hlt

variable (hascend : totals.Pairwise fun s t => s.atMost t = true)
include hascend

theorem risesAt_of_turn {p : Binary32 → Bool} (hstart : start < stop) (hstop : stop ≤ totals.length)
    (hlow : p (upTo totals start) = true) (hp : ∀ s t, s.atMost t = true → p t = true → p s = true)
    (hbelow : ∀ s t, s.isWeight = true → t.isWeight = true → p s = true → p t = false → s.below t = true)
    (hlt : Bisect.point p ((totals.take stop).drop start) < stop - start) :
    RisesAt totals (start + Bisect.point p ((totals.take stop).drop start)) := by
  rw [← length_slice hstop] at hlt
  obtain ⟨before, after, hbefore, hafter, hholds, hnot⟩ := Bisect.exists_turn
    ((pairwise_slice hascend).imp fun {s t} hle => hp s t hle) hlow hlt
  rw [length_slice hstop] at hlt
  rw [getElem?_upTo_slice (Nat.le_trans (Nat.le_of_lt hstart) hstop) (by omega)] at hbefore
  rw [getElem?_slice totals start (by omega)] at hafter
  refine ⟨before, after, hbefore, hafter, hbelow before after ?_ ?_ hholds hnot⟩
  · rcases List.mem_cons.1 (List.mem_of_getElem? hbefore) with rfl | hmem
    · exact isAmount_start.isWeight
    · exact hweights _ hmem
  · exact hweights _ (List.mem_of_getElem? hafter)

/-- A point that is no lower than the total before the interval falls on a place of the interval where the
totals rise. -/
theorem risesAt_placeOf (hstart : start < stop) (hstop : stop ≤ totals.length)
    (hlow : (upTo totals start).units < (upTo totals stop).units) {point : Binary32} (hpoint : point.IsSum)
    (hle : (upTo totals start).units ≤ point.units) :
    RisesAt totals (placeOf totals start stop point) := by
  have hfirst := isSum_of_isWeight (isWeight_upTo hweights start)
  have hlast := isSum_of_isWeight (isWeight_upTo hweights stop)
  rw [placeOf, length_slice hstop]
  split
  · refine risesAt_of_turn hweights hascend hstart hstop ((hfirst.below_iff hlast).2 hlow)
      (fun s t hst ht => below_of_atMost_of_below hst ht) (fun s t hs ht hholds hnot => ?_)
      (point_below_lt hstart hstop)
    have hs := isSum_of_isWeight hs
    have ht := isSum_of_isWeight ht
    rw [hs.below_iff hlast] at hholds
    rw [← Bool.not_eq_true, ht.below_iff hlast, Nat.not_lt] at hnot
    exact (hs.below_iff ht).2 (Nat.lt_of_lt_of_le hholds hnot)
  · rename_i hne
    have hlt := Bisect.point_le_length (fun c => c.atMost point) ((totals.take stop).drop start)
    rw [length_slice hstop] at hlt
    refine risesAt_of_turn hweights hascend hstart hstop ((hfirst.atMost_iff hpoint).2 hle)
      (fun s t hst ht => atMost_trans hst ht) (fun s t hs ht hholds hnot => ?_)
      (Nat.lt_of_le_of_ne hlt hne)
    have hs := isSum_of_isWeight hs
    have ht := isSum_of_isWeight ht
    rw [hs.atMost_iff hpoint] at hholds
    rw [← Bool.not_eq_true, ht.atMost_iff hpoint, Nat.not_le] at hnot
    exact (hs.below_iff ht).2 (Nat.lt_of_le_of_lt hholds hnot)

theorem atMost_zero_iff_value_eq (hle : start ≤ stop) (hstop : stop ≤ totals.length) :
    (upTo totals stop - upTo totals start).atMost zero = true ↔
      (upTo totals stop).value = (upTo totals start).value := by
  have hfirst := isWeight_upTo hweights start
  have hlast := isWeight_upTo hweights stop
  obtain ⟨hweight, hzero⟩ := isWeight_sub fraction_pos hlast hfirst (units_upTo_le hweights hascend hle hstop)
  rw [(isSum_of_isWeight hweight).atMost_zero_iff, (isSum_of_isWeight hweight).zero_below_iff, Nat.not_lt,
    Nat.le_zero, hzero, value_upTo_eq_iff hweights]

end Ascending

/-- A draw from an interval of finite totals that ascend from zero comes back empty exactly if the interval has
no weight, its ends being equal. Otherwise it gives a place of the interval where the totals rise, wherever
rounding puts the point. -/
theorem select_rises (hascend : totals.Pairwise fun s t => s.atMost t = true)
    (hweights : ∀ c ∈ totals, c.isWeight = true) (hstart : start < stop) (hstop : stop ≤ totals.length) :
    ∃ low high, (zero :: totals)[start]? = some low ∧ totals[stop - 1]? = some high ∧
      ∀ stream used, ∃ drawn used', select totals start stop stream used = some (drawn, used') ∧
        (drawn = none ↔ high.value = low.value) ∧
        ∀ i ∈ drawn, start ≤ i ∧ i < stop ∧ RisesAt totals i := by
  have hfits : start ≤ totals.length := Nat.le_trans (Nat.le_of_lt hstart) hstop
  have hnone := atMost_zero_iff_value_eq hweights hascend (Nat.le_of_lt hstart) hstop
  refine ⟨_, _, exists_upTo? hfits, getElem?_pred hstart hstop, fun stream used => ?_⟩
  rw [select, if_neg (by omega)]
  by_cases hequal : (upTo totals stop).value = (upTo totals start).value
  · rw [if_pos (hnone.2 hequal)]
    exact ⟨none, used, rfl, iff_of_true rfl hequal, fun i hi => absurd hi (Option.not_mem_none i)⟩
  · rw [if_neg (mt hnone.1 hequal)]
    obtain ⟨u, used', hu⟩ : ∃ u used', coin stream used = some (u, used') := returns_coin used
    obtain ⟨hamount, hone⟩ := ensures_coin _ _ _ _ hu
    have hlow : (upTo totals start).units < (upTo totals stop).units :=
      Nat.lt_of_le_of_ne (units_upTo_le hweights hascend (Nat.le_of_lt hstart) hstop)
        fun heq => hequal ((value_upTo_eq_iff hweights).2 heq.symm)
    obtain ⟨hpoint, habove⟩ := isSum_point hweights hlow hamount (Nat.le_of_lt hone)
    refine ⟨some (placeOf totals start stop (upTo totals start + u * (upTo totals stop - upTo totals start))),
      used', ?_, iff_of_false (Option.some_ne_none _) hequal, ?_⟩
    · rw [bind_apply, hu]
      rfl
    · rintro _ ⟨⟩
      obtain ⟨hge, hlt⟩ := placeOf_mem hstart hstop _
      exact ⟨hge, hlt, risesAt_placeOf hweights hascend hstart hstop hlow hpoint habove⟩

theorem select_rises_last :
    let totals : List Binary32 := [.ofBits 0x447a0000, .ofBits 0x447ac000, .ofBits 0x447ac000, .ofBits 0x447ac000]
    totals.Pairwise (fun s t => s.atMost t = true) ∧ (∀ c ∈ totals, c.isWeight = true) ∧
      ∃ used', select totals 1 4 ⟨fun _ => 0xffffffffffffffff, 1⟩ 0 = some (some 1, used') := by
  intro totals
  have hascend : totals.Pairwise fun s t => s.atMost t = true := by decide
  have hweights : ∀ c ∈ totals, c.isWeight = true := by decide
  obtain ⟨low, high, hlow, hhigh, hdraw⟩ :=
    select_rises hascend hweights (by decide : 1 < 4) (by decide)
  obtain ⟨drawn, used', hdrawn, hnone, hrises⟩ := hdraw ⟨fun _ => 0xffffffffffffffff, 1⟩ 0
  obtain rfl := Option.some.inj hlow
  obtain rfl := Option.some.inj hhigh
  refine ⟨hascend, hweights, used', ?_⟩
  cases drawn with
  | none => exact absurd (hnone.1 rfl) (by decide)
  | some i =>
    obtain ⟨hge, hlt, before, after, hbefore, hafter, hbelow⟩ := hrises i rfl
    have hplace : i = 1 ∨ i = 2 ∨ i = 3 := by omega
    rcases hplace with rfl | rfl | rfl
    · exact hdrawn
    · obtain rfl := Option.some.inj hbefore
      obtain rfl := Option.some.inj hafter
      exact absurd hbelow (by decide)
    · obtain rfl := Option.some.inj hbefore
      obtain rfl := Option.some.inj hafter
      exact absurd hbelow (by decide)

end Running

end WeightedStore
