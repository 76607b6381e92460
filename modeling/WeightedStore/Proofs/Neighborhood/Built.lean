import WeightedStore.Proofs.Neighborhood.Consistency
import WeightedStore.Proofs.Weighted.Totals

/-!
Neighborhoods that are built. Their groups stand in the order of ids, the totals of a group rise, and the
weight of a group is its last total. So they are sound, and their columns can be written.
-/

namespace WeightedStore

open Floating

namespace NeighborGroup

variable {pairs : List (UInt64 × Binary32)}

def InIdOrder (g : NeighborGroup) : Prop := (g.members.map Prod.fst).Pairwise (· ≤ ·)

theorem ids_ofPairs (pairs : List (UInt64 × Binary32)) :
    (ofPairs pairs).members.map Prod.fst =
      (pairs.mergeSort fun a b => a.1 ≤ b.1).map Prod.fst := by
  rw [ofPairs]
  refine List.map_fst_zip (Nat.le_of_eq ?_)
  rw [Running.length_totals, List.length_map, List.length_map]

theorem totals_ofPairs (pairs : List (UInt64 × Binary32)) :
    (ofPairs pairs).totals =
      Running.totals ((pairs.mergeSort fun a b => a.1 ≤ b.1).map Prod.snd) := by
  rw [ofPairs, totals]
  refine List.map_snd_zip (Nat.le_of_eq ?_)
  rw [Running.length_totals, List.length_map, List.length_map]

theorem length_members_ofPairs (pairs : List (UInt64 × Binary32)) :
    (ofPairs pairs).members.length = pairs.length := by
  have hids := congrArg List.length (ids_ofPairs pairs)
  rwa [List.length_map, List.length_map, List.length_mergeSort] at hids

theorem inIdOrder_ofPairs (pairs : List (UInt64 × Binary32)) : (ofPairs pairs).InIdOrder := by
  have hsorted : (pairs.mergeSort fun a b => a.1 ≤ b.1).Pairwise fun a b => decide (a.1 ≤ b.1) = true := by
    refine List.pairwise_mergeSort (fun a b c hab hbc => ?_) (fun a b => ?_) pairs
    · exact decide_eq_true (UInt64.le_trans (of_decide_eq_true hab) (of_decide_eq_true hbc))
    · rw [Bool.or_eq_true, decide_eq_true_eq, decide_eq_true_eq]
      exact UInt64.le_total a.1 b.1
  rw [InIdOrder, ids_ofPairs, List.pairwise_map]
  exact hsorted.imp of_decide_eq_true

theorem ofPairs_nil : ofPairs [] = ⟨[]⟩ := by
  rw [ofPairs, List.mergeSort_nil]
  rfl

theorem ofPairs_singleton (n : UInt64 × Binary32) : ofPairs [n] = ⟨[(n.1, zero + n.2)]⟩ := by
  rw [ofPairs, List.mergeSort_singleton]
  rfl

theorem ofPairs_pair {n m : UInt64 × Binary32} (h : ¬n.1 ≤ m.1) :
    ofPairs [n, m] = ⟨[(m.1, zero + m.2), (n.1, zero + m.2 + n.2)]⟩ := by
  have hsorted : ([n, m].mergeSort fun a b => a.1 ≤ b.1) = [m, n] := by
    simp [List.mergeSort, List.MergeSort.Internal.splitInTwo, h]
  rw [ofPairs, hsorted]
  rfl

theorem rising_ofPairs (hweights : ∀ w ∈ pairs.map Prod.snd, w.isWeight = true)
    (hfinite : (ofPairs pairs).total.isFinite = true) :
    (ofPairs pairs).Rising ∧ (ofPairs pairs).total.IsAmount := by
  have hsorted : ∀ w ∈ (pairs.mergeSort fun a b => a.1 ≤ b.1).map Prod.snd, w.isWeight = true := by
    intro w hw
    exact hweights w (((List.mergeSort_perm pairs _).map Prod.snd).mem_iff.1 hw)
  obtain ⟨htotals, hascending⟩ := Running.ascending_totalsFrom Running.isAmount_start.isTotal hsorted
  have heq : Running.totalsFrom zero ((pairs.mergeSort fun a b => a.1 ≤ b.1).map Prod.snd) =
      (ofPairs pairs).totals := (totals_ofPairs pairs).symm
  rw [heq] at htotals hascending
  have hlast : (zero :: (ofPairs pairs).totals).getLast (List.cons_ne_nil _ _) =
      (ofPairs pairs).total := List.getLast_eq_getLastD _
  have hle : ∀ t ∈ zero :: (ofPairs pairs).totals, t.word ≤ (ofPairs pairs).total.word := by
    intro t ht
    rw [← hlast]
    exact hascending.rel_getLast_of_rel_getLast_getLast ht (Nat.le_refl _)
  have hlt : (ofPairs pairs).total.word < Format.single.top := of_decide_eq_true hfinite
  have hamount : ∀ t ∈ zero :: (ofPairs pairs).totals, t.IsAmount := by
    intro t ht
    rcases List.mem_cons.1 ht with rfl | hmem
    · exact Running.isAmount_start
    · exact ⟨(htotals t hmem).negative, Nat.lt_of_le_of_lt (hle t ht) hlt⟩
  refine ⟨⟨fun t ht => (hamount t (List.mem_cons_of_mem _ ht)).isWeight, ?_⟩,
    hamount _ List.getLastD_mem_cons⟩
  refine (List.pairwise_cons.1 hascending).2.imp_of_mem fun hs ht hword => ?_
  exact ((htotals _ hs).atMost_iff (htotals _ ht)).2 hword

end NeighborGroup

namespace Neighborhood

variable {a : Neighborhood} {groups : List (List (UInt64 × Binary32))}

theorem totalsAgree_self {x : Binary32} (hx : x.IsAmount) : totalsAgree x x = true := by
  have hdifference : (x - x).abs = zero := by
    rw [sub_eq_ofWord hx hx (Nat.le_refl _), Nat.sub_self, Format.round_zero]
    rfl
  have hmax : x.abs.max x.abs = x := by
    have habs : x.abs = x := by
      rw [Floating.abs, ← hx.negative]
    rw [Floating.max, habs, ite_self]
  have htolerance : (ofNumeral false ⟨1, -4⟩ : Binary32).IsAmount := ⟨by decide, by decide⟩
  have hproduct := htolerance.mul hx
  rw [totalsAgree, hdifference, hmax, Bool.and_eq_true]
  refine ⟨decide_eq_true rfl, ?_⟩
  rw [Running.isAmount_start.isTotal.atMost_iff hproduct, word_zero]
  exact Nat.zero_le _

theorem refusal?_eq_none_iff {g start : Nat} (hstart : start < UInt32.size) :
    refusal? g start groups = none ↔
      (∀ group ∈ groups, ∀ w ∈ group.map Prod.snd, w.isWeight = true) ∧
        start + groups.flatten.length < UInt32.size := by
  induction groups generalizing g start with
  | nil => exact iff_of_true rfl ⟨nofun, hstart⟩
  | cons group groups ih =>
    rw [refusal?, List.forall_mem_cons, ← Pool.firstBad?_eq_none_iff, List.flatten_cons,
      List.length_append, ← Nat.add_assoc]
    cases hbad : Pool.firstBad? (group.map Prod.snd) with
    | some bad => exact iff_of_false nofun fun h => nomatch h.1.1
    | none =>
      dsimp only
      split
      · rename_i hstop
        rw [ih hstop, and_iff_right rfl]
      · rename_i hstop
        exact iff_of_false nofun fun h => hstop (Nat.lt_of_le_of_lt (Nat.le_add_right _ _) h.2)

theorem edgeTypesOf_eq_range {count : Nat} (h : (edgeTypesOf count).length = count) :
    edgeTypesOf count = List.range count ∧ count < Offsets.limit := by
  rw [edgeTypesOf, List.length_range] at h
  have hbound := (Int32.ofNat count).toInt_lt
  have hlimit : (Offsets.limit : Int) = 2 ^ 31 := rfl
  refine ⟨congrArg List.range h, ?_⟩
  omega

theorem exists_of_build (h : build groups = .ok a) :
    refusal? 0 0 groups = none ∧ groups.length < Offsets.limit ∧
      (∀ group ∈ groups, (NeighborGroup.ofPairs group).total.isWeight = true) ∧
      a.groups = groups.map NeighborGroup.ofPairs ∧
      a.pool = .ofWeighted ((List.range a.groupCount).zip (a.groups.map NeighborGroup.total)) := by
  rw [build] at h
  split at h
  · cases h
  rename_i hrefusal
  dsimp only at h
  split at h
  · rename_i pool hpool
    obtain rfl := Except.ok.inj h
    obtain ⟨hlength, hweights⟩ := (Pool.ofColumns_eq_ok_iff _ _).1 ⟨pool, hpool⟩
    obtain ⟨hrange, hlt⟩ := edgeTypesOf_eq_range (hlength.trans (List.length_map _))
    rw [List.length_map] at hlt
    have heq := Pool.eq_ofWeighted_of_ofColumns hpool
    rw [hrange] at heq
    refine ⟨hrefusal, hlt, fun group hgroup => ?_, rfl, heq⟩
    exact hweights _ (List.mem_map_of_mem (List.mem_map_of_mem hgroup))
  · cases h

theorem build_eq_ok (hweights : ∀ group ∈ groups, ∀ w ∈ group.map Prod.snd, w.isWeight = true)
    (hlength : groups.flatten.length < UInt32.size)
    (hgroups : groups.map NeighborGroup.ofPairs = a.groups)
    (hpool : Pool.ofColumns (edgeTypesOf a.groupCount) (a.groups.map NeighborGroup.total) = .ok a.pool) :
    build groups = .ok a := by
  have hrefusal : refusal? 0 0 groups = none :=
    (refusal?_eq_none_iff (by decide)).2 ⟨hweights, by rwa [Nat.zero_add]⟩
  rw [build, hrefusal]
  dsimp only
  rw [hgroups, ← groupCount, hpool]

inductive Built : Neighborhood → Prop
  | ofGroups {groups : List (List (UInt64 × Binary32))} {a : Neighborhood}
      (h : build groups = .ok a) : Built a
  | ofLists {ids : List (List UInt64)} {weights : List (List Binary32)} {a : Neighborhood}
      (h : ofLists ids weights = .ok a) : Built a

namespace Built

theorem exists_build (h : Built a) : ∃ groups, build groups = .ok a := by
  cases h with
  | ofGroups h => exact ⟨_, h⟩
  | ofLists h =>
    rw [Neighborhood.ofLists] at h
    split at h
    · cases h
    dsimp only at h
    split at h
    · cases h
    · exact ⟨_, h⟩

theorem inIdOrder (h : Built a) : ∀ group ∈ a.groups, group.InIdOrder := by
  obtain ⟨groups, hbuild⟩ := h.exists_build
  obtain ⟨-, -, -, hgroups, -⟩ := exists_of_build hbuild
  rw [hgroups]
  intro group hgroup
  obtain ⟨pairs, -, rfl⟩ := List.mem_map.1 hgroup
  exact NeighborGroup.inIdOrder_ofPairs pairs

theorem neighborCount_lt (h : Built a) : a.neighborCount < UInt32.size := by
  obtain ⟨groups, hbuild⟩ := h.exists_build
  obtain ⟨hrefusal, -, -, hgroups, -⟩ := exists_of_build hbuild
  have hlength := ((refusal?_eq_none_iff (by decide)).1 hrefusal).2
  have hcount : a.neighborCount = groups.flatten.length := by
    rw [neighborCount, hgroups, List.length_flatMap, List.map_map, List.length_flatten]
    refine congrArg List.sum (List.map_congr_left fun pairs _ => ?_)
    exact NeighborGroup.length_members_ofPairs pairs
  rwa [hcount, ← Nat.zero_add groups.flatten.length]

theorem groupCount_le (h : Built a) : a.groupCount ≤ Offsets.limit := by
  obtain ⟨groups, hbuild⟩ := h.exists_build
  obtain ⟨-, hlength, -, hgroups, -⟩ := exists_of_build hbuild
  rw [groupCount, hgroups, List.length_map]
  exact Nat.le_of_lt hlength

theorem sound (h : Built a) : a.Sound := by
  obtain ⟨groups, hbuild⟩ := h.exists_build
  obtain ⟨hrefusal, -, htotals, hgroups, hpool⟩ := exists_of_build hbuild
  have hweights := ((refusal?_eq_none_iff (by decide)).1 hrefusal).1
  have hstored : a.pool.weights = a.groups.map NeighborGroup.total := by
    rw [hpool]
    refine List.map_snd_zip ?_
    rw [List.length_range, List.length_map]
    exact Nat.le_refl _
  refine ⟨?_, ?_, ?_, fun g group hgroup => ?_⟩
  · rw [hstored, List.length_map, groupCount]
  · rw [hstored, hgroups]
    intro w hw
    obtain ⟨_, hmem, rfl⟩ := List.mem_map.1 hw
    obtain ⟨pairs, hpairs, rfl⟩ := List.mem_map.1 hmem
    exact htotals pairs hpairs
  · rw [pool_columns h.groupCount_le, hstored]
    exact hpool
  · have hweight : a.weightOf g = group.total := by
      rw [weightOf, hstored, List.getD_eq_getElem?_getD, List.getElem?_map, hgroup]
      rfl
    have hmem := List.mem_of_getElem? hgroup
    rw [hgroups] at hmem
    obtain ⟨pairs, hpairs, rfl⟩ := List.mem_map.1 hmem
    obtain ⟨hrising, htotal⟩ := NeighborGroup.rising_ofPairs (hweights pairs hpairs)
      (isFinite_of_isWeight (htotals pairs hpairs))
    rw [hweight]
    exact ⟨hrising, totalsAgree_self htotal⟩

end Built

end Neighborhood

end WeightedStore
