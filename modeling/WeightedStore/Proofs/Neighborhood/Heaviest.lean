import Mathlib
import WeightedStore.Neighborhood.Order
import WeightedStore.Proofs.Neighborhood.HeapOrder
import WeightedStore.Proofs.Neighborhood.Requests

/-!
The heaviest neighbors. What is kept while neighbors are met is a heap with the lightest at its root, and nothing
that was dropped is heavier. The weights of groups whose totals are finite are numbers, so that every two of them
can be compared.
-/

namespace WeightedStore

open Floating

theorem Running.isNaN_weights {ts : List Binary32} (h : ∀ t ∈ ts, t.isFinite = true) :
    ∀ w ∈ weights ts, w.isNaN = false := by
  cases ts with
  | nil => exact nofun
  | cons t ts =>
    refine List.forall_mem_cons.2 ⟨(isFinite_iff.1 (h t List.mem_cons_self)).1, fun w hw => ?_⟩
    rw [← List.map_uncurry_zip_eq_zipWith] at hw
    obtain ⟨⟨next, before⟩, hmem, rfl⟩ := List.mem_map.1 hw
    obtain ⟨hnext, hbefore⟩ := List.of_mem_zip hmem
    exact isNaN_sub (h next (List.mem_cons_of_mem _ hnext)) (h before hbefore)

namespace Neighborhood

variable {a : Neighborhood} {k : Nat} {n : Neighbor} {seen dropped neighbors : List Neighbor}
  {kept : Array Neighbor}

/-- What keeping the `k` heaviest of the neighbors met comes to: those kept and those dropped are all of
them, and none that was dropped is heavier than one that was kept. -/
structure Keeps (k : Nat) (seen : List Neighbor) (kept : Array Neighbor) (dropped : List Neighbor) : Prop where
  perm : (kept.toList ++ dropped).Perm seen
  size : kept.size = min k seen.length
  order : Heap.Ordered lightness kept
  lighter : ∀ m ∈ dropped, ∀ n ∈ kept.toList, m.weight.atMost n.weight = true

theorem Keeps.nil (k : Nat) : Keeps k [] #[] [] :=
  ⟨List.Perm.refl _, (Nat.min_zero k).symm, Heap.ordered_empty _, List.forall_mem_nil _⟩

theorem perm_toList_push (kept : Array Neighbor) (n : Neighbor) :
    (Heap.push lightness kept n).toList.Perm (n :: kept.toList) := by
  have hpush := Array.perm_iff_toList_perm.1 (Heap.perm_push lightness kept n)
  rw [Array.toList_push] at hpush
  exact hpush.trans (List.perm_append_singleton _ _)

theorem Keeps.push (h : Keeps k seen kept dropped) (hroom : kept.size < k) (n : Neighbor) :
    Keeps k (n :: seen) (Heap.push lightness kept n) [] := by
  have hlength := h.perm.length_eq
  have hkept := h.size
  rw [List.length_append, Array.length_toList] at hlength
  have hdropped : dropped = [] := List.length_eq_zero_iff.1 (by omega)
  have hseen : kept.toList.Perm seen := by simpa [hdropped] using h.perm
  have hpush := perm_toList_push kept n
  refine ⟨?_, ?_, h.order.push n, List.forall_mem_nil _⟩
  · rw [List.append_nil]
    exact hpush.trans (hseen.cons n)
  · rw [← Array.length_toList, hpush.length_eq, List.length_cons, List.length_cons, Array.length_toList]
    omega

theorem Keeps.drop (h : Keeps k seen kept dropped) (hfull : k ≤ kept.size)
    (hlighter : ∀ m ∈ kept.toList, n.weight.atMost m.weight = true) :
    Keeps k (n :: seen) kept (n :: dropped) := by
  have hkept := h.size
  refine ⟨List.perm_middle.trans (h.perm.cons n), ?_, h.order,
    List.forall_mem_cons.2 ⟨hlighter, h.lighter⟩⟩
  rw [List.length_cons]
  omega

theorem Keeps.replace (h : Keeps k seen kept dropped) (hfull : k ≤ kept.size) (hroot : 0 < kept.size)
    (hleast : ∀ m ∈ kept.toList, kept[0].weight.atMost m.weight = true)
    (hheavier : kept[0].weight.atMost n.weight = true) :
    Keeps k (n :: seen) (Heap.push lightness (Heap.pop lightness kept) n) (kept[0] :: dropped) := by
  have hpop := Heap.perm_pop lightness hroot
  have hpush := perm_toList_push (Heap.pop lightness kept) n
  have hkept := h.size
  have hsize := hpop.length_eq
  rw [List.length_cons, Array.length_toList, Array.length_toList] at hsize
  refine ⟨?_, ?_, h.order.pop.push n, ?_⟩
  · calc (Heap.push lightness (Heap.pop lightness kept) n).toList ++ kept[0] :: dropped
      _ |>.Perm (n :: ((Heap.pop lightness kept).toList ++ kept[0] :: dropped)) := hpush.append_right _
      _ |>.Perm (n :: (kept[0] :: (Heap.pop lightness kept).toList ++ dropped)) := List.perm_middle.cons n
      _ |>.Perm (n :: (kept.toList ++ dropped)) := (hpop.append_right dropped).cons n
      _ |>.Perm (n :: seen) := h.perm.cons n
  · rw [← Array.length_toList, hpush.length_eq, List.length_cons, List.length_cons, Array.length_toList]
    omega
  · have hstays {m : Neighbor} (hm : m ∈ (Heap.pop lightness kept).toList) : m ∈ kept.toList :=
      hpop.mem_iff.1 (List.mem_cons_of_mem _ hm)
    have hnew {m : Neighbor} (hm : m ∈ (Heap.push lightness (Heap.pop lightness kept) n).toList) :
        m = n ∨ m ∈ kept.toList :=
      (List.mem_cons.1 (hpush.mem_iff.1 hm)).imp_right hstays
    refine List.forall_mem_cons.2 ⟨fun m hm => ?_, fun m hm m' hm' => ?_⟩
    · rcases hnew hm with rfl | hm
      · exact hheavier
      · exact hleast m hm
    · rcases hnew hm' with rfl | hm'
      · exact atMost_trans (h.lighter m hm _ (Array.getElem_mem_toList hroot)) hheavier
      · exact h.lighter m hm m' hm'

theorem Keeps.step (h : Keeps k seen kept dropped) (hn : n.weight.isNaN = false)
    (hseen : ∀ m ∈ seen, m.weight.isNaN = false) :
    ∃ dropped, Keeps k (n :: seen) (keepHeaviest k kept n) dropped := by
  have hkept : ∀ m ∈ kept.toList, m.weight.isNaN = false := fun m hm =>
    hseen m (h.perm.mem_iff.1 (List.mem_append_left _ hm))
  rw [keepHeaviest]
  split
  · rename_i hroom
    exact ⟨[], h.push hroom n⟩
  · rename_i hfull
    have hfull := Nat.not_lt.1 hfull
    rcases Nat.eq_zero_or_pos kept.size with hempty | hroot
    · obtain rfl := Array.size_eq_zero_iff.1 hempty
      exact ⟨n :: dropped, h.drop hfull (List.forall_mem_nil _)⟩
    rw [Array.getElem?_eq_getElem hroot]
    have hleastNaN := hkept _ (Array.getElem_mem_toList hroot)
    have hleast : ∀ m ∈ kept.toList, kept[0].weight.atMost m.weight = true := fun m hm => by
      obtain ⟨i, hi, rfl⟩ := List.mem_iff_getElem.1 hm
      exact atMost_of_rank_le hleastNaN (hkept _ hm) (h.order.root_le hroot hi)
    dsimp only
    split
    · rename_i hbelow
      exact ⟨_, h.replace hfull hroot hleast (atMost_of_below hbelow)⟩
    · rename_i hbelow
      have hlighter : n.weight.atMost kept[0].weight = true :=
        atMost_of_not_below hleastNaN hn (Bool.not_eq_true _ ▸ hbelow)
      exact ⟨n :: dropped, h.drop hfull fun m hm => atMost_trans hlighter (hleast m hm)⟩

theorem Keeps.foldl (h : Keeps k seen kept dropped) (hseen : ∀ m ∈ seen, m.weight.isNaN = false)
    (hneighbors : ∀ m ∈ neighbors, m.weight.isNaN = false) :
    ∃ dropped, Keeps k (neighbors.reverse ++ seen) (neighbors.foldl (keepHeaviest k) kept) dropped := by
  induction neighbors generalizing seen kept dropped with
  | nil => exact ⟨dropped, h⟩
  | cons n neighbors ih =>
    obtain ⟨hn, hneighbors⟩ := List.forall_mem_cons.1 hneighbors
    obtain ⟨dropped', hstep⟩ := h.step hn hseen
    rw [List.foldl_cons, List.reverse_cons, List.append_assoc]
    exact ih hstep (List.forall_mem_cons.2 ⟨hn, hseen⟩) hneighbors

/-- Whether neighbors come from the heaviest down, as many of those there are as are asked for or all, and none
that is left is heavier than one of them. -/
structure Heaviest (neighbors : List Neighbor) (k : Nat) (top left : List Neighbor) : Prop where
  perm : (top ++ left).Perm neighbors
  length : top.length = min k neighbors.length
  descending : top.Pairwise fun m n => n.weight.atMost m.weight = true
  lighter : ∀ m ∈ left, ∀ n ∈ top, m.weight.atMost n.weight = true

theorem pairwise_rank_mergeSort (neighbors : List Neighbor) :
    (neighbors.mergeSort fun m n => n.weight.rank ≤ m.weight.rank).Pairwise fun m n =>
      n.weight.rank ≤ m.weight.rank := by
  refine (List.pairwise_mergeSort (fun a b c hab hbc => ?_) (fun a b => ?_) neighbors).imp of_decide_eq_true
  · exact decide_eq_true (Int.le_trans (of_decide_eq_true hbc) (of_decide_eq_true hab))
  · simpa using Int.le_total b.weight.rank a.weight.rank

theorem exists_heaviestOf (hnumbers : ∀ m ∈ neighbors, m.weight.isNaN = false)
    (hroom : k + 1 < Neighbor.tooMany) :
    ∃ top left, heaviestOf neighbors k = some top ∧ Heaviest neighbors k top left := by
  rw [heaviestOf]
  split
  · rename_i hzero
    subst hzero
    exact ⟨[], neighbors, rfl, .refl _, (Nat.zero_min _).symm, .nil, fun _ _ => List.forall_mem_nil _⟩
  rw [if_neg (Nat.not_le.2 hroom)]
  obtain ⟨left, hkeeps⟩ := (Keeps.nil k).foldl (List.forall_mem_nil _) hnumbers
  rw [List.append_nil] at hkeeps
  have hsorted := List.mergeSort_perm (neighbors.foldl (keepHeaviest k) #[]).toList fun m n =>
    decide (n.weight.rank ≤ m.weight.rank)
  have hperm := ((hsorted.append_right left).trans hkeeps.perm).trans (List.reverse_perm neighbors)
  refine ⟨_, left, rfl, hperm, ?_, ?_, fun m hm n hn => hkeeps.lighter m hm n (hsorted.mem_iff.1 hn)⟩
  · rw [List.length_mergeSort, Array.length_toList, hkeeps.size, List.length_reverse]
  · have hnumber {m : Neighbor} (hm : m ∈ _) : m.weight.isNaN = false :=
      hnumbers m (hperm.mem_iff.1 (List.mem_append_left left hm))
    exact (pairwise_rank_mergeSort _).imp_of_mem fun hm hn hle => atMost_of_rank_le (hnumber hn) (hnumber hm) hle

theorem Heaviest.of_perm {others top left : List Neighbor} (h : Heaviest neighbors k top left)
    (hperm : neighbors.Perm others) : Heaviest others k top left :=
  ⟨h.perm.trans hperm, hperm.length_eq ▸ h.length, h.descending, h.lighter⟩

theorem heaviestOf_eq_none (hmany : Neighbor.tooMany ≤ k + 1) (neighbors : List Neighbor) :
    heaviestOf neighbors k = none := by
  have hpos : k ≠ 0 := by
    rintro rfl
    exact absurd hmany (by decide)
  rw [heaviestOf, if_neg hpos, if_pos hmany]

/-- Of the two lighter neighbors the one is taken out that is at the root. -/
example : heaviestOf [⟨1, ofBits 0x3f800000, 0⟩, ⟨2, ofBits 0x3f800000, 0⟩, ⟨3, ofBits 0x40000000, 0⟩] 2 =
    some [⟨3, ofBits 0x40000000, 0⟩, ⟨2, ofBits 0x3f800000, 0⟩] := by cbv

theorem isNaN_weight_of_mem_full (h : a.Sound) {edgeTypes : List Int} :
    ∀ n ∈ a.full edgeTypes, n.weight.isNaN = false := by
  intro n hn
  obtain ⟨g, hg, hmem⟩ := List.mem_flatMap.1 hn
  have hrising := (h.holds g _ (getElem?_groups (mem_requested.1 hg).1)).rising
  have hfinite : ∀ t ∈ (a.groupAt g).totals, t.isFinite = true := fun t ht =>
    isFinite_of_isWeight (hrising.isWeight t ht)
  have hweight := List.mem_map_of_mem (f := Neighbor.weight) hmem
  rw [NeighborGroup.weights_neighbors] at hweight
  exact Running.isNaN_weights hfinite _ hweight

/-- The heaviest neighbors are refused exactly if the neighborhood does not have one of the edge types. Else
they are as many of the neighbors as are asked for, or all, from the heaviest down, and none that is left out
is heavier than one of them, as long as there is room for one more than are asked for. Beyond that nothing is
answered, even if there are few neighbors. -/
theorem heaviest_selects (h : a.Obtained) (edgeTypes : List Int) (k : Nat) :
    (∀ e, a.heaviest edgeTypes k = .error e ↔ a.Refuses edgeTypes e) ∧
    ((∀ t ∈ edgeTypes, a.HasType t) →
      (k + 1 < Neighbor.tooMany → ∃ top left, a.heaviest edgeTypes k = .ok (some top) ∧
        Heaviest (a.full edgeTypes) k top left) ∧
      (Neighbor.tooMany ≤ k + 1 → a.heaviest edgeTypes k = .ok none)) := by
  constructor
  · exact fun e => bind_selected_eq_error_iff _
  · intro hvalid
    have hperm : ((a.chosen edgeTypes).flatMap fun g => (a.groupAt g).neighbors g).Perm
        (a.full edgeTypes) := (perm_chosen_requested a edgeTypes).flatMap_right _
    have hnumbers : ∀ n ∈ (a.chosen edgeTypes).flatMap fun g => (a.groupAt g).neighbors g,
        n.weight.isNaN = false := fun n hn =>
      isNaN_weight_of_mem_full h.sound n (hperm.mem_iff.1 hn)
    have hheaviest : a.heaviest edgeTypes k =
        .ok (heaviestOf ((a.chosen edgeTypes).flatMap fun g => (a.groupAt g).neighbors g) k) := by
      rw [heaviest, selected_of_hasType hvalid]
      rfl
    rw [hheaviest]
    refine ⟨fun hroom => ?_, fun hmany => congrArg Except.ok (heaviestOf_eq_none hmany _)⟩
    obtain ⟨top, left, htop, hselects⟩ := exists_heaviestOf hnumbers hroom
    exact ⟨top, left, congrArg Except.ok htop, hselects.of_perm hperm⟩

theorem heaviest_selects_signed_zeros :
    let one : Binary32 := .ofBits 0x3f800000
    let minusZero : Binary32 := .ofBits 0x80000000
    let bytes : List UInt8 :=
      [7, 0, 0, 0, 0, 0, 0, 0, 0, 0, 0, 0, 0, 0, 128, 63,
        2, 0, 0, 0, 0, 0, 0, 0, 1, 0, 0, 0, 2, 0, 0, 0, 0, 0, 128, 63, 0, 0, 128, 63,
        2, 0, 0, 0, 2, 0, 0, 0, 5, 0, 0, 0,
        5, 0, 0, 0, 5, 0, 0, 0, 0, 0, 0, 0, 9, 0, 0, 0, 0, 0, 0, 0, 4, 0, 0, 0, 0, 0, 0, 0,
        6, 0, 0, 0, 0, 0, 0, 0, 8, 0, 0, 0, 0, 0, 0, 0,
        5, 0, 0, 0, 0, 0, 0, 128, 0, 0, 128, 63, 0, 0, 0, 0, 0, 0, 128, 63, 0, 0, 128, 63,
        0, 0, 0, 0, 0, 0, 0, 0, 0, 0, 0, 0, 0, 0, 0, 0, 0, 0, 0, 0,
        0, 0, 0, 0, 0, 0, 0, 0, 0, 0, 0, 0, 0, 0, 0, 0, 0, 0, 0, 0, 0, 0, 0, 0]
    ∃ n : Node, Node.decode bytes = .ok n ∧
      n.outgoing.full [1, 0] =
        [⟨4, .zero, 1⟩, ⟨6, one, 1⟩, ⟨8, .zero, 1⟩, ⟨5, minusZero, 0⟩, ⟨9, one, 0⟩] ∧
      n.outgoing.heaviest [2] 0 = .error (.invalidEdgeType 2 2) ∧
      n.outgoing.Refuses [2] (.invalidEdgeType 2 2) ∧
      n.outgoing.heaviest [1, 0] (UInt64.size - 2) = .ok none ∧
      ∃ left, n.outgoing.heaviest [1, 0] 3 = .ok (some [⟨9, one, 0⟩, ⟨6, one, 1⟩, ⟨4, .zero, 1⟩]) ∧
        Heaviest (n.outgoing.full [1, 0]) 3 [⟨9, one, 0⟩, ⟨6, one, 1⟩, ⟨4, .zero, 1⟩] left := by
  intro one minusZero bytes
  let n : Node := ⟨7, 0, one,
    ⟨[⟨[(5, minusZero), (9, one)]⟩, ⟨[(4, .zero), (6, one), (8, one)]⟩],
      .ofWeighted [(0, one), (1, one)]⟩, ⟨[], .ofWeighted []⟩, .empty⟩
  have hfeatures : n.features.Sound := ⟨by decide, by decide, by decide⟩
  have hincoming : n.incoming.Sound := sound_of_no_group
  have houtgoing : n.outgoing.Sound := ⟨rfl, by decide, rfl, holds_iff.1 (by decide +kernel)⟩
  have hbytes : n.encode = .ok bytes := by decide +kernel
  have hdecode : Node.decode bytes = .ok n :=
    Node.decode_eq_ok_iff.2 ⟨hbytes, houtgoing, hincoming, hfeatures⟩
  have hobtained : n.outgoing.Obtained := .read hdecode .outgoing
  have hrefused : n.outgoing.heaviest [2] 0 = .error (.invalidEdgeType 2 2) := by decide
  have hkept : (([0, 1].flatMap fun g => (n.outgoing.groupAt g).neighbors g).foldl (keepHeaviest 3) #[]) =
      #[⟨4, .zero, 1⟩, ⟨9, one, 0⟩, ⟨6, one, 1⟩] := by decide +kernel
  have hsorted : ([⟨4, .zero, 1⟩, ⟨9, one, 0⟩, ⟨6, one, 1⟩].mergeSort fun m n : Neighbor =>
      n.weight.rank ≤ m.weight.rank) = [⟨9, one, 0⟩, ⟨6, one, 1⟩, ⟨4, .zero, 1⟩] := by
    cbv
  have htop : n.outgoing.heaviest [1, 0] 3 = .ok (some [⟨9, one, 0⟩, ⟨6, one, 1⟩, ⟨4, .zero, 1⟩]) := by
    calc n.outgoing.heaviest [1, 0] 3
      _ = .ok (heaviestOf ([0, 1].flatMap fun g => (n.outgoing.groupAt g).neighbors g) 3) := rfl
      _ = .ok (some [⟨9, one, 0⟩, ⟨6, one, 1⟩, ⟨4, .zero, 1⟩]) := by
        rw [heaviestOf, if_neg (by decide), if_neg (by decide), hkept, hsorted]
  have hvalid : ∀ t ∈ ([1, 0] : List Int), n.outgoing.HasType t := by decide
  obtain ⟨top, left, hheaviest, hselects⟩ := ((heaviest_selects hobtained [1, 0] 3).2 hvalid).1 (by decide)
  obtain rfl := Option.some.inj (Except.ok.inj (htop.symm.trans hheaviest))
  exact ⟨n, hdecode, by decide +kernel, hrefused, ((heaviest_selects hobtained [2] 0).1 _).1 hrefused,
    ((heaviest_selects hobtained [1, 0] (UInt64.size - 2)).2 hvalid).2 (by decide), left, htop, hselects⟩

/-- One neighbor, and room asked for as many as can be counted. -/
theorem heaviest_without_room :
    let one : Binary32 := .ofBits 0x3f800000
    ∃ a, build [[(7, one)]] = .ok a ∧ (∀ t ∈ [(0 : Int)], a.HasType t) ∧ a.full [0] = [⟨7, one, 0⟩] ∧
      a.heaviest [0] (UInt64.size - 2) = .ok none := by
  intro one
  let a : Neighborhood := ⟨[⟨[(7, one)]⟩], .ofWeighted [(0, one)]⟩
  have hgroups : [[(7, one)]].map NeighborGroup.ofPairs = a.groups := by
    rw [List.map_cons, NeighborGroup.ofPairs_singleton]
    decide +kernel
  have hbuild : build [[(7, one)]] = .ok a := build_eq_ok (by decide) (by decide) hgroups rfl
  exact ⟨a, hbuild, by decide, by decide +kernel, rfl⟩

end Neighborhood

end WeightedStore
