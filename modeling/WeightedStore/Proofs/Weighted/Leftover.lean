import Mathlib.Algebra.Order.BigOperators.Group.List
import Mathlib.Algebra.Order.Group.Nat
import WeightedStore.Proofs.Weighted.Sums
import WeightedStore.Proofs.Weighted.Sweep

/-!
What is left over when an alias table is made. The masses of the columns that are not filled yet add up to the
average of as many columns, but for what rounding takes away. While that is less than an average column, no
column without mass is left over, and each is filled with outcomes that have mass.
-/

namespace WeightedStore.AliasTable

-- powers and zero as the core library has them, whatever else is imported
attribute [local instance (high)] instPowNat Zero.ofOfNat0

open Floating

namespace Sweep

def ceiling : Nat := 1025 * 2 ^ (52 : Nat)

/-- The part of one by which rounding can change the mass of a column when it is filled up. -/
def slack : Nat := Format.double.gap ceiling

theorem gap_one_le : Format.double.gap (1023 * 2 ^ (52 : Nat)) ≤ slack := Format.gap_le_gap (by decide)

theorem one_eq : Format.double.one = 2 ^ (50 : Nat) * slack := by decide +kernel

theorem units_ceiling : Format.double.units ceiling = 4 * Format.double.one := by decide +kernel

theorem ceiling_lt_top : ceiling < Format.double.top := by decide

theorem double_fraction_pos : 0 < Format.double.fraction := by decide

variable {p : Nat → Prop} {n placed mass less more : Nat} {count average : Binary64} {s : Sweep}
  {rest small large : List Nat}

structure Settled (p : Nat → Prop) (s : Sweep) (i : Nat) : Prop where
  redirect : p (s.redirect.getD i 0)
  acceptance : ¬p i → (s.acceptance.getD i .zero).units = 0

/-- What is known while `placed` of the `n` columns are settled and the others are not: an outcome that is
not allowed has no mass, and little of the mass at the start is lost. -/
structure Balanced (p : Nat → Prop) (n mass : Nat) (average : Binary64) (s : Sweep) (placed : Nat)
    (rest : List Nat) : Prop where
  fits : s.Fits n
  nodup : rest.Nodup
  lt : ∀ i ∈ rest, i < n
  length : rest.length + placed = n
  settled : ∀ i < n, i ∉ rest → s.Settled p i
  isWeight : ∀ i ∈ rest, (s.massAt i).isWeight = true
  units_eq_zero : ∀ i ∈ rest, ¬p i → (s.massAt i).units = 0
  units_le : ∀ i ∈ rest, (s.massAt i).units ≤ Format.double.one + placed * slack
  mass_le : mass ≤ (rest.map fun i => (s.massAt i).units).sum + placed * (average.units + slack)

theorem massAt_fill (h : more < s.mass.length) :
    (s.fill count average less more).massAt more = s.massAt more + s.massAt less - average := by
  rw [massAt, fill, List.getD_eq_getElem?_getD, List.getElem?_set_self h]
  rfl

theorem massAt_fill_of_ne {i : Nat} (h : more ≠ i) :
    (s.fill count average less more).massAt i = s.massAt i := by
  rw [massAt, fill, List.getD_eq_getElem?_getD, List.getElem?_set_ne h, ← List.getD_eq_getElem?_getD]
  rfl

theorem settled_fill (hredirect : less < s.redirect.length) (hacceptance : less < s.acceptance.length)
    (hsaid : more < UInt32.size) (hmore : p more)
    (hmass : ¬p less → ((s.massAt less * count).clampUnit.convert : Binary32).units = 0) :
    (s.fill count average less more).Settled p less := by
  constructor
  · rw [fill, List.getD_eq_getElem?_getD, List.getElem?_set_self hredirect, Nat.mod_eq_of_lt hsaid]
    exact hmore
  · rw [fill, List.getD_eq_getElem?_getD, List.getElem?_set_self hacceptance]
    exact hmass

theorem settled_fill_of_ne {i : Nat} (h : less ≠ i) (hi : s.Settled p i) :
    (s.fill count average less more).Settled p i := by
  constructor
  · rw [fill, List.getD_eq_getElem?_getD, List.getElem?_set_ne h, ← List.getD_eq_getElem?_getD]
    exact hi.redirect
  · rw [fill, List.getD_eq_getElem?_getD, List.getElem?_set_ne h, ← List.getD_eq_getElem?_getD]
    exact hi.acceptance

theorem units_acceptance (hcount : count.isFinite = true) {x : Binary64} (hx : x.isFinite = true)
    (hzero : x.units = 0) : ((x * count).clampUnit.convert : Binary32).units = 0 := by
  obtain ⟨hxNaN, hxInfinite⟩ := isFinite_iff.1 hx
  obtain ⟨hcountNaN, hcountInfinite⟩ := isFinite_iff.1 hcount
  have hproduct : x * count = ofWord (x.negative != count.negative) 0 := by
    change mul x count = _
    rw [mul, hxNaN, hcountNaN, hxInfinite, hcountInfinite, hzero, Nat.zero_mul]
    simp [ofRatio, Format.round_zero_of_pos _ Format.double.one_pos]
  rw [hproduct]
  cases x.negative != count.negative <;> decide +kernel

theorem Balanced.perm {others : List Nat} (h : Balanced p n mass average s placed rest)
    (hperm : rest.Perm others) : Balanced p n mass average s placed others where
  fits := h.fits
  nodup := hperm.nodup_iff.1 h.nodup
  lt i hi := h.lt i (hperm.mem_iff.2 hi)
  length := hperm.length_eq ▸ h.length
  settled i hi hnot := h.settled i hi fun hmem => hnot (hperm.mem_iff.1 hmem)
  isWeight i hi := h.isWeight i (hperm.mem_iff.2 hi)
  units_eq_zero i hi := h.units_eq_zero i (hperm.mem_iff.2 hi)
  units_le i hi := h.units_le i (hperm.mem_iff.2 hi)
  mass_le := by
    rw [← (hperm.map fun i => (s.massAt i).units).sum_nat]
    exact h.mass_le

theorem Balanced.isSum_massAt (h : Balanced p n mass average s placed rest) {i : Nat} (hi : i ∈ rest) :
    (s.massAt i).IsSum := isSum_of_isWeight (h.isWeight i hi)

theorem Balanced.massAt_fill (h : Balanced p n mass average s placed (less :: more :: rest))
    (count : Binary64) (hn : n ≤ UInt32.size) (haverage : average.IsAmount)
    (hone : average.units ≤ Format.double.one)
    (hlight : (s.massAt less).units ≤ average.units) (hheavy : average.units < (s.massAt more).units) :
    p more ∧ ((s.fill count average less more).massAt more).IsAmount ∧
      ((s.fill count average less more).massAt more).units + average.units ≤
        (s.massAt more).units + (s.massAt less).units + slack ∧
      (s.massAt more).units + (s.massAt less).units ≤
        ((s.fill count average less more).massAt more).units + average.units + slack := by
  have hmem : more ∈ less :: more :: rest := List.mem_cons_of_mem _ List.mem_cons_self
  have hweight := h.isWeight more hmem
  have hbound := h.units_le more hmem
  have hlength := h.length
  rw [List.length_cons, List.length_cons] at hlength
  have hpos : (s.massAt more).units ≠ 0 := Nat.ne_of_gt (Nat.lt_of_le_of_lt (Nat.zero_le _) hheavy)
  have hallowed : p more := by
    by_contra hnot
    exact hpos (h.units_eq_zero more hmem hnot)
  have hamount : (s.massAt more).IsAmount :=
    ⟨Bool.eq_false_iff.2 fun hn => hpos ((isWeight_iff.1 hweight).2 hn), (isWeight_iff.1 hweight).1⟩
  have hspread : (placed + 1) * slack ≤ Format.double.one := by
    rw [one_eq]
    exact Nat.mul_le_mul_right _ (Nat.le_trans (by omega) (by decide : UInt32.size ≤ 2 ^ (50 : Nat)))
  rw [Nat.succ_mul] at hspread
  have hsum : (s.massAt more).units + (s.massAt less).units ≤ Format.double.units ceiling := by
    have hlimit := Nat.le_trans hlight hone
    rw [units_ceiling]
    omega
  rw [Sweep.massAt_fill (h.fits.length_mass.symm ▸ h.lt more hmem)]
  exact ⟨hallowed, add_sub_error double_fraction_pos ceiling_lt_top hamount
    (h.isWeight less List.mem_cons_self) haverage (Nat.le_of_lt hheavy) hsum⟩

/-- Filling a light column up with a heavy one settles the light one. -/
theorem Balanced.fill (h : Balanced p n mass average s placed (less :: more :: rest))
    (hn : n ≤ UInt32.size) (hcount : count.isFinite = true) (haverage : average.IsAmount)
    (hone : average.units ≤ Format.double.one) (hlight : (s.massAt less).units ≤ average.units)
    (hheavy : average.units < (s.massAt more).units) :
    Balanced p n mass average (s.fill count average less more) (placed + 1) (more :: rest) := by
  obtain ⟨hless, hnodup⟩ := List.nodup_cons.1 h.nodup
  have hmore := (List.nodup_cons.1 hnodup).1
  have hltLess := h.lt less List.mem_cons_self
  have hltMore := h.lt more (List.mem_cons_of_mem _ List.mem_cons_self)
  have hboundMore := h.units_le more (List.mem_cons_of_mem _ List.mem_cons_self)
  have hlength := h.length
  rw [List.length_cons, List.length_cons] at hlength
  obtain ⟨hallowed, hamount, habove, hbelow⟩ :=
    h.massAt_fill count hn haverage hone hlight hheavy
  have hother {i : Nat} (hi : i ∈ rest) :
      (s.fill count average less more).massAt i = s.massAt i :=
    massAt_fill_of_ne fun heq => hmore (heq ▸ hi)
  have hrest {i : Nat} (hi : i ∈ rest) : i ∈ less :: more :: rest :=
    List.mem_cons_of_mem _ (List.mem_cons_of_mem _ hi)
  refine ⟨h.fits.fill hltMore, hnodup, ?_, ?_, ?_, ?_, ?_, ?_, ?_⟩
  · exact fun i hi => h.lt i (List.mem_cons_of_mem _ hi)
  · rw [List.length_cons]
    omega
  · intro i hi hnot
    by_cases heq : less = i
    · subst heq
      refine settled_fill (h.fits.length_redirect.symm ▸ hltLess)
        (h.fits.length_acceptance.symm ▸ hltLess) (Nat.lt_of_lt_of_le hltMore hn) hallowed fun hp => ?_
      exact units_acceptance hcount (isFinite_of_isWeight (h.isWeight less List.mem_cons_self))
        (h.units_eq_zero less List.mem_cons_self hp)
    · refine settled_fill_of_ne heq (h.settled i hi fun hmem => ?_)
      rcases List.mem_cons.1 hmem with rfl | hmem
      · exact heq rfl
      · exact hnot hmem
  · refine List.forall_mem_cons.2 ⟨hamount.isWeight, fun i hi => ?_⟩
    rw [hother hi]
    exact h.isWeight i (hrest hi)
  · refine List.forall_mem_cons.2 ⟨fun hp => absurd hallowed hp, fun i hi => ?_⟩
    rw [hother hi]
    exact h.units_eq_zero i (hrest hi)
  · rw [Nat.succ_mul]
    refine List.forall_mem_cons.2 ⟨by omega, fun i hi => ?_⟩
    rw [hother hi]
    have := h.units_le i (hrest hi)
    omega
  · have hmass := h.mass_le
    have hsame : rest.map (fun i => ((s.fill count average less more).massAt i).units) =
        rest.map fun i => (s.massAt i).units :=
      List.map_congr_left fun i hi => congrArg units (hother hi)
    rw [List.map_cons, List.sum_cons, hsame, Nat.succ_mul]
    rw [List.map_cons, List.sum_cons, List.map_cons, List.sum_cons] at hmass
    omega

theorem foldl_accept (h : s.Fits n) (rest : List Nat) :
    (rest.foldl accept s).redirect = s.redirect ∧ ∀ i < n, (rest.foldl accept s).acceptance.getD i .zero =
      if i ∈ rest then .ofNat 1 else s.acceptance.getD i .zero := by
  induction rest generalizing s with
  | nil => exact ⟨rfl, fun _ _ => rfl⟩
  | cons j rest ih =>
    obtain ⟨hredirect, hacceptance⟩ := ih (h.accept j)
    refine ⟨hredirect, fun i hi => ?_⟩
    rw [List.foldl_cons, hacceptance i hi]
    by_cases hmem : i ∈ rest
    · rw [if_pos hmem, if_pos (List.mem_cons_of_mem _ hmem)]
    · rw [if_neg hmem, accept, List.getD_eq_getElem?_getD]
      by_cases heq : j = i
      · subst heq
        rw [List.getElem?_set_self (h.length_acceptance.symm ▸ hi), if_pos List.mem_cons_self]
        rfl
      · have hnot : i ∉ j :: rest := fun hcons => hmem ((List.mem_cons.1 hcons).resolve_left (Ne.symm heq))
        rw [List.getElem?_set_ne heq, if_neg hnot, ← List.getD_eq_getElem?_getD]

theorem Balanced.allowed (h : Balanced p n mass average s placed rest)
    (hside : (∀ i ∈ rest, average.units < (s.massAt i).units) ∨
      ∀ i ∈ rest, (s.massAt i).units ≤ average.units)
    (henough : (n - 1) * average.units + n * slack < mass) : ∀ i ∈ rest, p i := by
  intro i hi
  by_contra hnot
  have hzero := h.units_eq_zero i hi hnot
  rcases hside with hheavy | hlight
  · have := hheavy i hi
    omega
  · -- this column counts for nothing, the others for the average at most
    have hperm := List.perm_cons_erase hi
    have hothers : ((rest.erase i).map fun i => (s.massAt i).units).sum ≤
        (rest.erase i).length * average.units := by
      have hle := List.sum_le_card_nsmul ((rest.erase i).map fun i => (s.massAt i).units) average.units ?_
      · rwa [List.length_map] at hle
      · intro m hm
        obtain ⟨j, hj, rfl⟩ := List.mem_map.1 hm
        exact hlight j (List.mem_of_mem_erase hj)
    have hlength := h.length
    have hmass := h.mass_le
    rw [(hperm.map fun i => (s.massAt i).units).sum_nat, List.map_cons, List.sum_cons, hzero] at hmass
    rw [hperm.length_eq, List.length_cons] at hlength
    have hn : n - 1 = (rest.erase i).length + placed := by omega
    have hplaced : placed * slack ≤ n * slack := Nat.mul_le_mul_right _ (by omega)
    rw [hn, Nat.add_mul] at henough
    rw [Nat.mul_add] at hmass
    omega

section Run

variable (hn : n ≤ UInt32.size) (hcount : count.isFinite = true) (haverage : average.IsAmount)
  (hone : average.units ≤ Format.double.one)
include hn hcount haverage hone

theorem Balanced.step (h : Balanced p n mass average s placed (less :: small ++ more :: large))
    (hlight : ∀ i ∈ less :: small, (s.massAt i).units ≤ average.units)
    (hheavy : ∀ i ∈ more :: large, average.units < (s.massAt i).units) :
    Balanced p n mass average (s.fill count average less more) (placed + 1) (more :: (small ++ large)) ∧
      (∀ i ∈ small, ((s.fill count average less more).massAt i).units ≤ average.units) ∧
      ∀ i ∈ large, average.units < ((s.fill count average less more).massAt i).units := by
  have hbalanced := h.perm (List.perm_middle.cons less)
  have hfill := hbalanced.fill hn hcount haverage hone (hlight less List.mem_cons_self)
    (hheavy more List.mem_cons_self)
  have hother {i : Nat} (hi : i ∈ small ++ large) :
      (s.fill count average less more).massAt i = s.massAt i :=
    massAt_fill_of_ne fun heq => (List.nodup_cons.1 hfill.nodup).1 (heq ▸ hi)
  refine ⟨hfill, fun i hi => ?_, fun i hi => ?_⟩
  · rw [hother (List.mem_append_left large hi)]
    exact hlight i (List.mem_cons_of_mem _ hi)
  · rw [hother (List.mem_append_right small hi)]
    exact hheavy i (List.mem_cons_of_mem _ hi)

theorem Balanced.run (h : Balanced p n mass average s placed (small ++ large))
    (hlight : ∀ i ∈ small, (s.massAt i).units ≤ average.units)
    (hheavy : ∀ i ∈ large, average.units < (s.massAt i).units)
    (henough : (n - 1) * average.units + n * slack < mass) :
    ∀ i < n, (s.run count average small large).Settled p i ∨
      p i ∧ (s.run count average small large).acceptance.getD i .zero = .ofNat 1 := by
  fun_induction Sweep.run count average s small large generalizing placed with
  | case1 s less small more large s' hover =>
    rename_i ih
    obtain ⟨hbalanced, hlight, hheavy⟩ := h.step hn hcount haverage hone hlight hheavy
    have hmore := hbalanced.isSum_massAt List.mem_cons_self
    rw [isSum_of_isWeight haverage.isWeight |>.below_iff hmore] at hover
    exact ih (hbalanced.perm List.perm_middle.symm) hlight (List.forall_mem_cons.2 ⟨hover, hheavy⟩)
  | case2 s less small more large s' hunder =>
    rename_i ih
    obtain ⟨hbalanced, hlight, hheavy⟩ := h.step hn hcount haverage hone hlight hheavy
    have hmore := hbalanced.isSum_massAt List.mem_cons_self
    rw [isSum_of_isWeight haverage.isWeight |>.below_iff hmore, Nat.not_lt] at hunder
    exact ih hbalanced (List.forall_mem_cons.2 ⟨hunder, hlight⟩) hheavy
  | case3 s small large hnone =>
    have hside : (∀ i ∈ small ++ large, average.units < (s.massAt i).units) ∨
        ∀ i ∈ small ++ large, (s.massAt i).units ≤ average.units := by
      cases small with
      | nil => exact Or.inl hheavy
      | cons less small =>
        cases large with
        | nil => rw [List.append_nil]; exact Or.inr hlight
        | cons more large => exact absurd rfl (hnone less small more large rfl)
    have hallowed := h.allowed hside henough
    obtain ⟨hredirect, hacceptance⟩ := foldl_accept h.fits (small ++ large)
    intro i hi
    by_cases hmem : i ∈ small ++ large
    · exact Or.inr ⟨hallowed i hmem, (hacceptance i hi).trans (if_pos hmem)⟩
    · have hsettled := h.settled i hi hmem
      refine Or.inl ⟨?_, ?_⟩
      · rw [hredirect]
        exact hsettled.redirect
      · rw [hacceptance i hi, if_neg hmem]
        exact hsettled.acceptance

end Run

end Sweep

end WeightedStore.AliasTable
