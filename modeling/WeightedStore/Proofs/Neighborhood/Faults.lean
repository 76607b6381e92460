import WeightedStore.Proofs.Neighborhood.Built

/-!
Why groups are refused. A group is at fault if it holds a weight that is negative or not finite, or if its
running totals overflow. Groups of which none is at fault make a neighborhood, as long as 32 bits can say
where they end and how many they are. The error names a group at fault exactly if there is such a weight or
the first group overflows: the overflow of any other group is reported under the number of the first.
-/

namespace WeightedStore

open Floating

theorem Pool.exists_of_firstBad? {weights : List Binary32} {i : Nat} {w : Binary32}
    (h : firstBad? weights = some (i, w)) : ∃ before after, weights = before ++ w :: after ∧
      before.length = i ∧ (∀ v ∈ before, v.isWeight = true) ∧ w.isWeight = false := by
  obtain ⟨before, ⟨x, j⟩, after, hsplit, hbad, hbefore⟩ := List.findSome?_eq_some_iff.1 h
  have hplace : weights.zipIdx[before.length]? = some (x, j) := by
    rw [hsplit, List.getElem?_append_right (Nat.le_refl _), Nat.sub_self]
    rfl
  rw [List.getElem?_zipIdx, Nat.zero_add] at hplace
  obtain ⟨_, -, hpair⟩ := Option.map_eq_some_iff.1 hplace
  obtain ⟨rfl, rfl⟩ := Prod.mk.inj hpair
  dsimp only at hbad
  split at hbad
  · cases hbad
  rename_i hw
  obtain ⟨rfl, rfl⟩ := Prod.mk.inj (Option.some.inj hbad)
  refine ⟨before.map Prod.fst, after.map Prod.fst, ?_, List.length_map _, ?_, Bool.eq_false_iff.2 hw⟩
  · have hfirst := congrArg (List.map Prod.fst) hsplit
    rwa [List.zipIdx_map_fst, List.map_append, List.map_cons] at hfirst
  · refine List.forall_mem_map.2 fun v hv => ?_
    have hnone := hbefore v hv
    dsimp only at hnone
    split at hnone
    · assumption
    · cases hnone

namespace NeighborGroup

variable {pairs : List (UInt64 × Binary32)}

def HoldsBadWeight (pairs : List (UInt64 × Binary32)) : Prop :=
  ∃ w ∈ pairs.map Prod.snd, w.isFinite = false ∨ w.value < 0

def Overflows (pairs : List (UInt64 × Binary32)) : Prop :=
  ∃ t ∈ (ofPairs pairs).totals, t.isFinite = false

def AtFault (pairs : List (UInt64 × Binary32)) : Prop := HoldsBadWeight pairs ∨ Overflows pairs

theorem not_holdsBadWeight_iff :
    ¬HoldsBadWeight pairs ↔ ∀ w ∈ pairs.map Prod.snd, w.isWeight = true := by
  rw [HoldsBadWeight, ← not_forall_isWeight_iff, not_not]

theorem not_overflows_iff (hweights : ¬HoldsBadWeight pairs) :
    ¬Overflows pairs ↔ (ofPairs pairs).total.isWeight = true := by
  rw [not_holdsBadWeight_iff] at hweights
  constructor
  · intro hfinite
    have hlast : (ofPairs pairs).total.isFinite = true := by
      rcases List.mem_cons.1 (List.getLastD_mem_cons (l := (ofPairs pairs).totals) (a := zero)) with hzero | hmem
      · rw [total, hzero]
        exact isFinite_zero single_top_pos
      · by_contra hnot
        exact hfinite ⟨_, hmem, Bool.eq_false_iff.2 hnot⟩
    exact (rising_ofPairs hweights hlast).2.isWeight
  · rintro hweight ⟨t, ht, hinfinite⟩
    have hrising := (rising_ofPairs hweights (isFinite_of_isWeight hweight)).1
    rw [isFinite_of_isWeight (hrising.isWeight t ht)] at hinfinite
    cases hinfinite

end NeighborGroup

namespace Neighborhood

open NeighborGroup

variable {groups : List (List (UInt64 × Binary32))}

/-- With what error groups are refused that 32 bits can say the ends of. A weight is found before any total
is looked at, and is reported under the number of its group; whatever else is found is reported under the
number zero, a total with its group in the place of a position. -/
inductive Refused (groups : List (List (UInt64 × Binary32))) : NodeError → Prop
  | badWeight {before after : List (List (UInt64 × Binary32))} {group : List (UInt64 × Binary32)}
      {i : Nat} {w : Binary32} (hsplit : groups = before ++ group :: after)
      (hbefore : ∀ earlier ∈ before, ¬HoldsBadWeight earlier)
      (hfirst : Pool.firstBad? (group.map Prod.snd) = some (i, w)) :
      Refused groups (.invalidGroup before.length (.invalidWeight i w))
  | tooMany (hweights : ∀ group ∈ groups, ¬HoldsBadWeight group) (hcount : Offsets.limit ≤ groups.length) :
      Refused groups (.invalidGroup 0 (.unequalColumns (edgeTypesOf groups.length).length groups.length))
  | overflow {before after : List (List (UInt64 × Binary32))} {group : List (UInt64 × Binary32)}
      (hsplit : groups = before ++ group :: after) (hweights : ∀ group ∈ groups, ¬HoldsBadWeight group)
      (hcount : groups.length < Offsets.limit) (hbefore : ∀ earlier ∈ before, ¬Overflows earlier)
      (hgroup : Overflows group) :
      Refused groups (.invalidGroup 0 (.invalidWeight before.length (ofPairs group).total))

theorem holdsBadWeight_of_firstBad? {group : List (UInt64 × Binary32)} {i : Nat} {w : Binary32}
    (h : Pool.firstBad? (group.map Prod.snd) = some (i, w)) : HoldsBadWeight group := by
  by_contra hweights
  rw [(Pool.firstBad?_eq_none_iff _).2 (not_holdsBadWeight_iff.1 hweights)] at h
  cases h

theorem exists_of_refusal? {g start : Nat} {e : NodeError} (hfits : start + groups.flatten.length < UInt32.size)
    (h : refusal? g start groups = some e) : ∃ before group after i w, groups = before ++ group :: after ∧
      (∀ earlier ∈ before, ¬HoldsBadWeight earlier) ∧ Pool.firstBad? (group.map Prod.snd) = some (i, w) ∧
      e = .invalidGroup (g + before.length) (.invalidWeight i w) := by
  induction groups generalizing g start with
  | nil => cases h
  | cons group groups ih =>
    rw [List.flatten_cons, List.length_append, ← Nat.add_assoc] at hfits
    rw [refusal?] at h
    split at h
    · rename_i i w hbad
      obtain rfl := Option.some.inj h
      exact ⟨[], group, groups, i, w, rfl, List.forall_mem_nil _, hbad, rfl⟩
    · rename_i hgood
      rw [if_pos (Nat.lt_of_le_of_lt (Nat.le_add_right _ _) hfits)] at h
      obtain ⟨before, culprit, after, i, w, rfl, hbefore, hbad, rfl⟩ := ih hfits h
      refine ⟨group :: before, culprit, after, i, w, rfl, List.forall_mem_cons.2 ⟨?_, hbefore⟩, hbad, ?_⟩
      · exact not_holdsBadWeight_iff.2 ((Pool.firstBad?_eq_none_iff _).1 hgood)
      · rw [List.length_cons, Nat.add_right_comm, Nat.add_assoc]

theorem length_edgeTypesOf_eq_iff {count : Nat} :
    (edgeTypesOf count).length = count ↔ count < Offsets.limit := by
  refine ⟨fun h => (edgeTypesOf_eq_range h).2, fun h => ?_⟩
  rw [edgeTypesOf, List.length_range, Int32.toInt_ofNat_of_lt h, Int.toNat_natCast]

theorem exists_build_iff (hfits : groups.flatten.length < UInt32.size) :
    (∃ a, build groups = .ok a) ↔ (∀ group ∈ groups, ¬AtFault group) ∧ groups.length < Offsets.limit := by
  constructor
  · rintro ⟨a, h⟩
    obtain ⟨hrefusal, hcount, htotals, -, -⟩ := exists_of_build h
    refine ⟨fun group hgroup => ?_, hcount⟩
    have hweights := not_holdsBadWeight_iff.2 (((refusal?_eq_none_iff (by decide)).1 hrefusal).1 group hgroup)
    exact not_or.2 ⟨hweights, (not_overflows_iff hweights).2 (htotals group hgroup)⟩
  · rintro ⟨hsound, hcount⟩
    have hweights : ∀ group ∈ groups, ¬HoldsBadWeight group := fun group hgroup hbad =>
      hsound group hgroup (Or.inl hbad)
    have hrefusal : refusal? 0 0 groups = none := (refusal?_eq_none_iff (by decide)).2
      ⟨fun group hgroup => not_holdsBadWeight_iff.1 (hweights group hgroup), by rwa [Nat.zero_add]⟩
    have htotals : ∀ t ∈ (groups.map ofPairs).map NeighborGroup.total, t.isWeight = true := by
      rw [List.map_map]
      refine List.forall_mem_map.2 fun group hgroup => (not_overflows_iff (hweights group hgroup)).1 fun hover => ?_
      exact hsound group hgroup (Or.inr hover)
    obtain ⟨pool, hpool⟩ := (Pool.ofColumns_eq_ok_iff (edgeTypesOf (groups.map ofPairs).length) _).2
      ⟨by simpa only [List.length_map] using length_edgeTypesOf_eq_iff.2 hcount, htotals⟩
    refine ⟨⟨groups.map ofPairs, pool⟩, ?_⟩
    rw [build, hrefusal]
    dsimp only
    rw [hpool]

theorem refused_of_build {e : NodeError} (hfits : groups.flatten.length < UInt32.size)
    (h : build groups = .error e) : Refused groups e := by
  rw [build] at h
  split at h
  · rename_i hrefusal
    obtain rfl := Except.error.inj h
    obtain ⟨before, group, after, i, w, hsplit, hbefore, hfirst, rfl⟩ :=
      exists_of_refusal? ((Nat.zero_add _).symm ▸ hfits) hrefusal
    rw [Nat.zero_add]
    exact .badWeight hsplit hbefore hfirst
  rename_i hrefusal
  have hweights : ∀ group ∈ groups, ¬HoldsBadWeight group := fun group hgroup =>
    not_holdsBadWeight_iff.2 (((refusal?_eq_none_iff (by decide)).1 hrefusal).1 group hgroup)
  dsimp only at h
  split at h
  · cases h
  rename_i fault hpool
  obtain rfl := Except.error.inj h
  rw [Pool.ofColumns] at hpool
  split at hpool
  · rename_i hcount
    obtain rfl := Except.error.inj hpool
    simp only [List.length_map] at hcount ⊢
    exact .tooMany hweights (Nat.not_lt.1 (mt length_edgeTypesOf_eq_iff.2 hcount))
  rename_i hcount
  simp only [List.length_map, not_not, length_edgeTypesOf_eq_iff] at hcount
  split at hpool
  · rename_i k t hbad
    obtain rfl := Except.error.inj hpool
    obtain ⟨before, after, hsplit, rfl, hbefore, ht⟩ := Pool.exists_of_firstBad? hbad
    rw [List.map_map] at hsplit
    obtain ⟨front, rest, rfl, rfl, hrest⟩ := List.map_eq_append_iff.1 hsplit
    obtain ⟨group, after, rfl, rfl, rfl⟩ := List.map_eq_cons_iff.1 hrest
    rw [List.length_map]
    have hfine {g : List (UInt64 × Binary32)} (hg : g ∈ front ++ group :: after) :
        ¬Overflows g ↔ (ofPairs g).total.isWeight = true := not_overflows_iff (hweights g hg)
    refine .overflow rfl hweights hcount (fun earlier hearlier => ?_) ?_
    · exact (hfine (List.mem_append_left _ hearlier)).2 (hbefore _ (List.mem_map_of_mem hearlier))
    · by_contra hnot
      exact Bool.eq_false_iff.1 ht ((hfine (List.mem_append_right _ List.mem_cons_self)).1 hnot)
  · cases hpool

/-- The group that a refusal names is at fault, unless the fault lies in the totals of another one. -/
theorem Refused.exists_named {e : NodeError} (h : Refused groups e) : ∃ g fault, e = .invalidGroup g fault ∧
    ((∃ group, groups[g]? = some group ∧ AtFault group) ↔
      (∃ group ∈ groups, HoldsBadWeight group) ∨ ∃ group, groups[0]? = some group ∧ Overflows group) := by
  -- without a bad weight only totals are left to be at fault
  have hfirst (hweights : ∀ group ∈ groups, ¬HoldsBadWeight group) :
      (∃ group, groups[0]? = some group ∧ AtFault group) ↔
        (∃ group ∈ groups, HoldsBadWeight group) ∨ ∃ group, groups[0]? = some group ∧ Overflows group := by
    constructor
    · rintro ⟨group, hgroup, hbad | hover⟩
      · exact absurd hbad (hweights group (List.mem_of_getElem? hgroup))
      · exact Or.inr ⟨group, hgroup, hover⟩
    · rintro (⟨group, hgroup, hbad⟩ | ⟨group, hgroup, hover⟩)
      · exact absurd hbad (hweights group hgroup)
      · exact ⟨group, hgroup, Or.inr hover⟩
  cases h with
  | @badWeight before after group i w hsplit hbefore hbad =>
    subst hsplit
    have hholds := holdsBadWeight_of_firstBad? hbad
    refine ⟨_, _, rfl, iff_of_true ⟨group, ?_, Or.inl hholds⟩
      (Or.inl ⟨group, List.mem_append_right _ List.mem_cons_self, hholds⟩)⟩
    rw [List.getElem?_append_right (Nat.le_refl _), Nat.sub_self]
    rfl
  | tooMany hweights => exact ⟨_, _, rfl, hfirst hweights⟩
  | overflow _ hweights => exact ⟨_, _, rfl, hfirst hweights⟩

/-- Groups are refused exactly if one of them is at fault or they are more than 32 bits with a sign can say.
The error then tells what was found as `Refused` has it, and the group it names is at fault exactly if a
weight is negative or not finite or the first group overflows. -/
theorem build_refused_iff (hfits : groups.flatten.length < UInt32.size) :
    ((∃ e, build groups = .error e) ↔ (∃ group ∈ groups, AtFault group) ∨ Offsets.limit ≤ groups.length) ∧
      ∀ e, build groups = .error e → Refused groups e ∧ ∃ g fault, e = .invalidGroup g fault ∧
        ((∃ group, groups[g]? = some group ∧ AtFault group) ↔
          (∃ group ∈ groups, HoldsBadWeight group) ∨ ∃ group, groups[0]? = some group ∧ Overflows group) := by
  have hbuilt := exists_build_iff hfits
  constructor
  · cases hbuild : build groups with
    | ok a =>
      obtain ⟨hsound, hcount⟩ := hbuilt.1 ⟨a, hbuild⟩
      refine iff_of_false (fun ⟨_, he⟩ => nomatch he) ?_
      rintro (⟨group, hgroup, hfault⟩ | hmany)
      · exact hsound group hgroup hfault
      · exact absurd hcount (Nat.not_lt.2 hmany)
    | error e =>
      refine iff_of_true ⟨e, rfl⟩ ?_
      by_contra hnot
      rw [not_or, Nat.not_le] at hnot
      obtain ⟨a, ha⟩ := hbuilt.2 ⟨fun group hgroup hfault => hnot.1 ⟨group, hgroup, hfault⟩, hnot.2⟩
      rw [ha] at hbuild
      cases hbuild
  · intro e he
    have hrefused := refused_of_build hfits he
    exact ⟨hrefused, hrefused.exists_named⟩

theorem build_refused_iff_first_overflows :
    let most : Binary32 := .ofBits 0x7f7fffff
    let groups : List (List (UInt64 × Binary32)) := [[(2, most), (1, most)], [(1, most)]]
    groups.flatten.length < UInt32.size ∧ ∃ g fault, build groups = .error (.invalidGroup g fault) ∧
      ∃ group, groups[g]? = some group ∧ AtFault group := by
  intro most groups
  have hfits : groups.flatten.length < UInt32.size := by decide
  have hover : Overflows [(2, most), (1, most)] := by
    refine ⟨.infinity false, ?_, by decide⟩
    rw [ofPairs_pair (by decide)]
    decide
  obtain ⟨hrefused, hnamed⟩ := build_refused_iff hfits
  obtain ⟨e, he⟩ := hrefused.2 (Or.inl ⟨_, List.mem_cons_self, Or.inr hover⟩)
  obtain ⟨-, g, fault, rfl, hiff⟩ := hnamed e he
  exact ⟨hfits, g, fault, he, hiff.2 (Or.inr ⟨_, rfl, hover⟩)⟩

/-- An empty group is named for the totals of the group behind it. -/
theorem build_blames_empty_group :
    let most : Binary32 := .ofBits 0x7f7fffff
    let groups : List (List (UInt64 × Binary32)) := [[], [(2, most), (1, most)]]
    groups.flatten.length < UInt32.size ∧
      build groups = .error (.invalidGroup 0 (.invalidWeight 1 (.infinity false))) ∧
      ¬(∃ group, groups[0]? = some group ∧ AtFault group) ∧ AtFault [(2, most), (1, most)] := by
  intro most groups
  have hgroups : groups.map ofPairs = [⟨[]⟩, ⟨[(1, most), (2, .infinity false)]⟩] := by
    have hsecond := ofPairs_pair (show ¬((2, most) : UInt64 × Binary32).1 ≤ (1, most).1 by decide)
    rw [List.map_cons, List.map_singleton, ofPairs_nil, hsecond]
    decide
  refine ⟨by decide, ?_, ?_, Or.inr ⟨.infinity false, ?_, by decide⟩⟩
  · have hrefusal : refusal? 0 0 groups = none := by decide
    rw [build, hrefusal, hgroups]
    decide
  · rintro ⟨_, ⟨⟩, ⟨_, hmem, -⟩ | ⟨_, hmem, -⟩⟩
    · cases hmem
    · rw [ofPairs_nil] at hmem
      cases hmem
  · rw [ofPairs_pair (by decide)]
    decide

end Neighborhood

end WeightedStore
