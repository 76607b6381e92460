import WeightedStore.Proofs.Weighted.Checked
import WeightedStore.Proofs.Weighted.Shares

/-!
What comes of tables and pools while the shares of weights add up to nearly one. Only items that have weight
are drawn then.
-/

namespace WeightedStore

-- powers and zero as the core library has them, whatever else is imported
attribute [local instance (high)] instPowNat Zero.ofOfNat0

open Floating Draw

namespace Draw

theorem ensures_coin : coin.Ensures fun c => c.IsAmount ∧ c.units < Format.single.one := by
  refine (ensures_any word).bind fun w _ => ensures_pure ?_
  have hside : w.toNat % UInt32.size / (UInt32.size / sides) < 2 ^ (24 : Nat) := by
    have hlt : w.toNat % UInt32.size < UInt32.size := Nat.mod_lt _ (by decide)
    have hparts : UInt32.size / sides = 2 ^ (8 : Nat) := by decide
    have hsize : UInt32.size = 2 ^ (32 : Nat) := rfl
    rw [hparts]
    omega
  generalize w.toNat % UInt32.size / (UInt32.size / sides) = side at hside
  -- the last side of the coin
  have hlast : Format.single.units (125 * 2 ^ (23 : Nat) + (2 ^ (24 : Nat) - 1)) =
      (2 ^ (24 : Nat) - 1) * 2 ^ (125 : Nat) := by
    decide +kernel
  have hle : side * Format.single.one ≤
      sides * Format.single.units (125 * 2 ^ (23 : Nat) + (2 ^ (24 : Nat) - 1)) := by
    have hone : Format.single.one = sides * 2 ^ (125 : Nat) := by decide +kernel
    rw [hlast, hone, Nat.mul_left_comm]
    exact Nat.mul_le_mul_left _ (Nat.mul_le_mul_right _ (by omega))
  have hbound : Format.single.round (side * Format.single.one) sides ≤
      125 * 2 ^ (23 : Nat) + (2 ^ (24 : Nat) - 1) :=
    Format.round_le Running.fraction_pos (by decide) (by decide) hle
  refine ⟨isAmount_ofWord (Nat.lt_of_le_of_lt hbound (by decide)), ?_⟩
  rw [units, ofRatio, word_ofWord (Format.round_lt_words _ _ _)]
  refine Nat.lt_of_le_of_lt (Format.units_le_units hbound) ?_
  rw [hlast]
  decide +kernel

theorem below_one {coin : Binary32} (hcoin : coin.IsAmount) (hbelow : coin.units < Format.single.one) :
    coin.below (ofNat 1) = true := by
  have hone : (ofNat 1 : Binary32).IsAmount := ⟨by decide, by decide⟩
  have hunits : (ofNat 1 : Binary32).units = Format.single.one := by decide
  refine ((isSum_of_isWeight hcoin.isWeight).below_iff (isSum_of_isWeight hone.isWeight)).2 ?_
  rwa [hunits]

end Draw

namespace AliasTable

open Sweep

variable {probabilities : List Binary32} {p : Nat → Prop}

def start (probabilities : List Binary32) : Sweep :=
  ⟨probabilities.map convert, List.replicate probabilities.length .zero,
    List.replicate probabilities.length 0⟩

theorem fits_start (probabilities : List Binary32) : (start probabilities).Fits probabilities.length := by
  refine ⟨List.length_map _, List.length_replicate, List.length_replicate, fun r hr => ?_⟩
  rw [start, List.mem_replicate] at hr
  rw [hr.2]
  exact Nat.pos_of_ne_zero hr.1

theorem massAt_start {i : Nat} (hi : i < probabilities.length) :
    (start probabilities).massAt i = probabilities[i].convert := by
  rw [start, massAt, List.getD_eq_getElem?_getD, List.getElem?_map, List.getElem?_eq_getElem hi]
  rfl

theorem masses_start (probabilities : List Binary32) :
    ((List.range probabilities.length).map fun i => ((start probabilities).massAt i).units) =
      probabilities.map fun q => (q.convert : Binary64).units := by
  refine List.ext_getElem (by simp) fun i hi _ => ?_
  rw [List.length_map, List.length_range] at hi
  rw [List.getElem_map, List.getElem_range, List.getElem_map, massAt_start hi]

theorem perm_sides (heavy : Nat → Bool) (columns : List Nat) :
    columns.Perm ((columns.filter fun i => !heavy i).reverse ++ (columns.filter heavy).reverse) :=
  (List.filter_append_perm heavy columns).symm.trans
    (List.perm_append_comm.trans ((List.reverse_perm _).symm.append (List.reverse_perm _).symm))

section Start

variable (hweight : ∀ q ∈ probabilities, q.isWeight = true ∧ q.units ≤ Format.single.one)
include hweight

theorem balanced_start (hp : ∀ i q, probabilities[i]? = some q → ¬p i → q.units = 0)
    (average : Binary64) : Balanced p probabilities.length
      (probabilities.map fun q => (q.convert : Binary64).units).sum average (start probabilities) 0
      (List.range probabilities.length) := by
  have hshare {i : Nat} (hi : i < probabilities.length) :=
    units_convert (hweight _ (List.getElem_mem hi)).1 (hweight _ (List.getElem_mem hi)).2
  refine ⟨fits_start probabilities, List.nodup_range, fun i => List.mem_range.1, List.length_range,
    fun i hi hnot => ?_, fun i hi => ?_, fun i hi hnot => ?_, fun i hi => ?_, ?_⟩
  · exact absurd (List.mem_range.2 hi) hnot
  · rw [List.mem_range] at hi
    rw [massAt_start hi]
    exact (hshare hi).1
  · rw [List.mem_range] at hi
    rw [massAt_start hi]
    exact (hshare hi).2.1 (hp i _ (List.getElem?_eq_getElem hi) hnot)
  · rw [List.mem_range] at hi
    rw [massAt_start hi, Nat.zero_mul slack, Nat.add_zero]
    exact (hshare hi).2.2.1
  · rw [masses_start, Nat.zero_mul]
    exact Nat.le_refl _

variable (hp : ∀ i q, probabilities[i]? = some q → ¬p i → q.units = 0)
  (hn : probabilities.length ≤ 2 ^ (11 : Nat))
  (hshares : 2 ^ (24 : Nat) * Format.single.one ≤ 2 ^ (24 : Nat) * (probabilities.map units).sum +
    2 * probabilities.length * Format.single.one)
include hp hn hshares

theorem settled_ofProbabilities {i : Nat} (hi : i < probabilities.length) :
    (p ((ofProbabilities probabilities).redirect.getD i 0) ∧
        (¬p i → ((ofProbabilities probabilities).acceptance.getD i .zero).units = 0)) ∨
      p i ∧ (ofProbabilities probabilities).acceptance.getD i .zero = .ofNat 1 := by
  have hpos : 0 < probabilities.length := Nat.lt_of_le_of_lt (Nat.zero_le _) hi
  have hlt : probabilities.length < 2 ^ (53 : Nat) := Nat.lt_of_le_of_lt hn (by decide)
  obtain ⟨haverage, hone, hwhole⟩ := units_average hpos hlt
  obtain ⟨hcount, -⟩ := units_ofNat hpos hlt
  have henough := enough_of_shares hn (by decide +kernel) one_eq hwhole (sum_masses hweight)
    Format.double_one_eq hshares
  have hstart := balanced_start hweight hp (ofNat 1 / ofNat probabilities.length)
  have hbelow {j : Nat} (hj : j ∈ List.range probabilities.length) :=
    (isSum_of_isWeight haverage.isWeight).below_iff (hstart.isSum_massAt hj)
  have hsides := perm_sides (fun j => (ofNat 1 / ofNat probabilities.length : Binary64).below
    ((start probabilities).massAt j)) (List.range probabilities.length)
  refine ((hstart.perm hsides).run (Nat.le_trans hn (by decide)) hcount.isFinite haverage hone
    (fun j hj => ?_) (fun j hj => ?_) henough i hi).imp_left fun h => ⟨h.redirect, h.acceptance⟩
  · obtain ⟨hrange, hlight⟩ := List.mem_filter.1 (List.mem_reverse.1 hj)
    rw [Bool.not_eq_true', ← Bool.not_eq_true, hbelow hrange] at hlight
    exact Nat.not_lt.1 hlight
  · obtain ⟨hrange, hheavy⟩ := List.mem_filter.1 (List.mem_reverse.1 hj)
    exact (hbelow hrange).1 hheavy

theorem outcome_ofProbabilities {column : Nat} (hcolumn : column < probabilities.length)
    {coin : Binary32} (hcoin : coin.IsAmount) (hbelow : coin.units < Format.single.one) :
    p ((ofProbabilities probabilities).outcome column coin) := by
  have hsum := isSum_of_isWeight hcoin.isWeight
  rw [outcome]
  rcases settled_ofProbabilities hweight hp hn hshares hcolumn with ⟨hredirect, hzero⟩ | ⟨hown, haccept⟩
  · by_cases hown : p column
    · split
      · exact hown
      · exact hredirect
    · rw [hsum.not_below_of_units_eq_zero (hzero hown)]
      exact hredirect
  · rw [haccept, if_pos (below_one hcoin hbelow)]
    exact hown

end Start

end AliasTable

namespace Pool

variable {α : Type} {pairs : List (α × Binary32)}

section Outcome

variable {ws : List Binary32} (hws : ∀ w ∈ ws, w.isWeight = true) (hlength : ws.length ≤ 2 ^ (11 : Nat))
  (hfinite : (sum ws).isFinite = true)
include hws hlength hfinite

theorem outcome_tableOf (hpos : zero.below (sum ws) = true) {column : Nat} (hcolumn : column < ws.length)
    {coin : Binary32} (hcoin : coin.IsAmount) (hbelow : coin.units < Format.single.one) :
    ∃ w, ws[(tableOf ws (sum ws)).outcome column coin]? = some w ∧ zero.below w = true := by
  have htotal := isSum_sum Running.fraction_pos hws
  have hunits := htotal.zero_below_iff.1 hpos
  have hshare : ∀ w ∈ ws, _ := fun w hw => units_div (hws w hw)
    (isWeight_iff_isSum.2 ⟨htotal, hfinite⟩) hunits (units_le_units_sum Running.fraction_pos hws hw)
  rw [tableOf, if_pos hpos]
  refine AliasTable.outcome_ofProbabilities
    (p := fun i => ∃ w, ws[i]? = some w ∧ zero.below w = true) ?_ ?_ ?_ ?_ ?_ hcoin hbelow
  · intro q hq
    obtain ⟨w, hw, rfl⟩ := List.mem_map.1 hq
    exact ⟨(hshare w hw).1, (hshare w hw).2.2.1⟩
  · intro i q hq hnot
    rw [List.getElem?_map] at hq
    obtain ⟨w, hw, rfl⟩ := Option.map_eq_some_iff.1 hq
    have hmem := List.mem_of_getElem? hw
    refine (hshare w hmem).2.1 (Nat.eq_zero_of_not_pos fun hpos => hnot ⟨w, hw, ?_⟩)
    exact (isSum_of_isWeight (hws w hmem)).zero_below_iff.2 hpos
  · rwa [List.length_map]
  · rw [List.length_map]
    exact units_shares hws hfinite hunits
  · rwa [List.length_map]

theorem ensures_draw_tableOf : (tableOf ws (sum ws)).draw.Ensures fun drawn =>
    ∀ i ∈ drawn, ∃ w, ws[i]? = some w ∧ zero.below w = true := by
  rw [AliasTable.draw]
  split
  · refine ensures_pure ?_
    rintro _ ⟨⟩
  · rename_i hempty
    have hpos : zero.below (sum ws) = true := by
      by_contra hnot
      rw [tableOf, if_neg hnot] at hempty
      exact hempty rfl
    have hcolumns := (wellFormed_tableOf ws (sum ws)).2.1
    refine (ensures_below (Nat.pos_of_ne_zero hempty)).bind fun column hcolumn => ?_
    refine ensures_coin.bind fun coin hcoin => ensures_pure ?_
    rintro _ ⟨⟩
    exact outcome_tableOf hws hlength hfinite hpos (Nat.lt_of_lt_of_le hcolumn hcolumns) hcoin.1 hcoin.2

end Outcome

theorem ensures_draw_of_places (h : (ofWeighted pairs).table.draw.Ensures fun drawn => ∀ i ∈ drawn,
      ∃ w, (pairs.map Prod.snd)[i]? = some w ∧ zero.below w = true) :
    (ofWeighted pairs).draw.Ensures fun drawn => ∀ x ∈ drawn, x ∈ pairs ∧ zero.below x.2 = true := by
  rw [draw]
  refine h.bind fun drawn hdrawn => ensures_pure fun x hx => ?_
  obtain ⟨i, hi, hget⟩ := Option.bind_eq_some_iff.1 hx
  obtain ⟨w, hw, hpos⟩ := hdrawn i hi
  rw [get?, pairs_ofWeighted] at hget
  rw [List.getElem?_map, hget] at hw
  cases hw
  exact ⟨List.mem_of_getElem? hget, hpos⟩

theorem ensures_draw_weighted (hweights : ∀ w ∈ pairs.map Prod.snd, w.isWeight = true)
    (hlength : pairs.length ≤ 2 ^ (11 : Nat)) (hfinite : (ofWeighted pairs).total.isFinite = true) :
    (ofWeighted pairs).draw.Ensures fun drawn => ∀ x ∈ drawn, x ∈ pairs ∧ zero.below x.2 = true := by
  rw [← List.length_map (f := Prod.snd)] at hlength
  exact ensures_draw_of_places (ensures_draw_tableOf hweights hlength hfinite)

end Pool

end WeightedStore
