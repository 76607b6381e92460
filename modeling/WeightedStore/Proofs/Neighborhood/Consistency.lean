import WeightedStore.Neighborhood.Columns
import WeightedStore.Proofs.Binary.Comparison
import WeightedStore.Proofs.Node.Offsets

/-!
Columns that describe a neighborhood. The checks pass exactly those columns that fit together and hold,
for each group, totals that rise and come near the weight of the group; what they describe lies in just
these columns.
-/

namespace WeightedStore

open Floating

theorem single_top_pos : 0 < Format.single.top := by decide

theorem isChain_cons_iff_getElem? {α : Type} {r : α → α → Prop} {x : α} {xs : List α} :
    (x :: xs).IsChain r ↔
      ∀ (i : Nat) (s t : α), (x :: xs)[i]? = some s → xs[i]? = some t → r s t := by
  induction xs generalizing x with
  | nil => simp
  | cons y xs ih =>
    rw [List.isChain_cons_cons, ih]
    constructor
    · rintro ⟨hxy, h⟩ (_ | i) s t hs ht
      · obtain rfl : x = s := by simpa using hs
        obtain rfl : y = t := by simpa using ht
        exact hxy
      · exact h i s t hs ht
    · intro h
      exact ⟨h 0 x y rfl rfl, fun i s t hs ht => h (i + 1) s t hs ht⟩

namespace NeighborGroup

variable {g : NeighborGroup}

structure Rising (g : NeighborGroup) : Prop where
  isWeight : ∀ t ∈ g.totals, t.isWeight = true
  ascending : g.totals.Pairwise fun s t => s.atMost t = true

theorem rising_iff_values :
    g.Rising ↔ (∀ t ∈ g.totals, t.isFinite = true) ∧
      (zero :: g.totals).IsChain fun s t => s.value ≤ t.value := by
  rw [← List.isChain_map Floating.value, List.isChain_iff_pairwise, List.map_cons, List.pairwise_cons,
    List.pairwise_map, List.forall_mem_map, value_zero]
  constructor
  · intro h
    have hfinite : ∀ t ∈ g.totals, t.isFinite = true := fun t ht =>
      isFinite_of_isWeight (h.isWeight t ht)
    refine ⟨hfinite, fun t ht => ?_, h.ascending.imp_of_mem fun hs ht hle => ?_⟩
    · exact ((isWeight_iff_value single_top_pos).1 (h.isWeight t ht)).2
    · exact (atMost_iff (hfinite _ hs) (hfinite _ ht)).1 hle
  · rintro ⟨hfinite, hpositive, hascending⟩
    refine ⟨fun t ht => ?_, hascending.imp_of_mem fun hs ht hle => ?_⟩
    · exact (isWeight_iff_value single_top_pos).2 ⟨hfinite t ht, hpositive t ht⟩
    · exact (atMost_iff (hfinite _ hs) (hfinite _ ht)).2 hle

theorem firstFall?_eq_none_iff_places :
    g.firstFall? = none ↔ ∀ (i : Nat) (s t : Binary32), (zero :: g.totals)[i]? = some s →
      g.totals[i]? = some t → t.isFinite = true ∧ t.below s = false := by
  have hplace (i : Nat) : i < g.totals.length ↔
      ∃ s t, (zero :: g.totals)[i]? = some s ∧ g.totals[i]? = some t := by
    constructor
    · intro hi
      have hlt : i < (zero :: g.totals).length := Nat.lt_succ_of_lt hi
      exact ⟨_, _, List.getElem?_eq_getElem hlt, List.getElem?_eq_getElem hi⟩
    · rintro ⟨-, t, -, ht⟩
      exact (List.getElem?_eq_some_iff.1 ht).1
  simp only [firstFall?, List.find?_eq_none, List.mem_range, Running.upTo, Running.upTo?,
    List.getD_eq_getElem?_getD, hplace]
  constructor
  · intro h i s t hs ht
    simpa [hs, ht] using h i ⟨s, t, hs, ht⟩
  · rintro h i ⟨s, t, hs, ht⟩
    simpa [hs, ht] using h i s t hs ht

theorem firstFall?_eq_none_iff : g.firstFall? = none ↔ g.Rising := by
  rw [firstFall?_eq_none_iff_places, rising_iff_values, isChain_cons_iff_getElem?]
  have hcompare {t s : Binary32} (ht : t.isFinite = true) (hs : s ∈ zero :: g.totals)
      (hfinite : ∀ t ∈ g.totals, t.isFinite = true) : t.below s = false ↔ s.value ≤ t.value := by
    rcases List.mem_cons.1 hs with rfl | hs
    · exact below_eq_false_iff ht (isFinite_zero single_top_pos)
    · exact below_eq_false_iff ht (hfinite s hs)
  constructor
  · intro h
    have hfinite : ∀ t ∈ g.totals, t.isFinite = true := fun t ht => by
      obtain ⟨i, hi⟩ := List.mem_iff_getElem?.1 ht
      have hlt : i < (zero :: g.totals).length :=
        Nat.lt_succ_of_lt (List.getElem?_eq_some_iff.1 hi).1
      exact (h i _ t (List.getElem?_eq_getElem hlt) hi).1
    refine ⟨hfinite, fun i s t hs ht => ?_⟩
    obtain ⟨htfinite, hbelow⟩ := h i s t hs ht
    exact (hcompare htfinite (List.mem_of_getElem? hs) hfinite).1 hbelow
  · rintro ⟨hfinite, h⟩ i s t hs ht
    have htfinite := hfinite t (List.mem_of_getElem? ht)
    exact ⟨htfinite, (hcompare htfinite (List.mem_of_getElem? hs) hfinite).2 (h i s t hs ht)⟩

end NeighborGroup

namespace Neighborhood

variable {a : Neighborhood} {c : Columns} {pool : Pool Nat}

structure Holds (weight : Binary32) (group : NeighborGroup) : Prop where
  rising : group.Rising
  agree : totalsAgree weight group.total = true

theorem groupFault?_eq_none_iff {start g : Nat} {group : NeighborGroup} :
    groupFault? pool start g group = none ↔ Holds (pool.weights.getD g .zero) group := by
  rw [groupFault?]
  cases h : group.firstFall? with
  | some i =>
    refine iff_of_false nofun fun hholds => ?_
    rw [NeighborGroup.firstFall?_eq_none_iff.2 hholds.rising] at h
    cases h
  | none =>
    have hrising := NeighborGroup.firstFall?_eq_none_iff.1 h
    dsimp only
    split
    · rename_i hagree
      exact iff_of_true rfl ⟨hrising, hagree⟩
    · rename_i hagree
      exact iff_of_false nofun fun hholds => hagree hholds.agree

theorem groupsFault?_eq_none_iff {start g : Nat} {groups : List NeighborGroup} :
    groupsFault? pool start g groups = none ↔
      ∀ i group, groups[i]? = some group → Holds (pool.weights.getD (g + i) .zero) group := by
  induction groups generalizing start g with
  | nil => simp [groupsFault?]
  | cons first groups ih =>
    have hshift (i : Nat) : g + (i + 1) = g + 1 + i := by omega
    rw [groupsFault?, Option.or_eq_none_iff, groupFault?_eq_none_iff, ih]
    constructor
    · rintro ⟨hfirst, h⟩ (_ | i) group hgroup
      · obtain rfl : first = group := by simpa using hgroup
        exact hfirst
      · rw [hshift]
        exact h i group hgroup
    · intro h
      refine ⟨h 0 first rfl, fun i group hgroup => ?_⟩
      rw [← hshift]
      exact h (i + 1) group hgroup

theorem holds_iff {groups : List NeighborGroup} :
    groupsFault? pool 0 0 groups = none ↔
      ∀ g group, groups[g]? = some group → Holds (pool.weights.getD g .zero) group :=
  groupsFault?_eq_none_iff.trans (by simp only [Nat.zero_add])

/-- Whether columns lie side by side: the groups are numbered from zero on, as 32 bits have it, and their ends
ascend up to the number of neighbors, of which each has a total. -/
structure Columns.Fitting (c : Columns) : Prop where
  length_weights : c.weights.length = c.ids.length
  length_ends : c.ends.length = c.ids.length
  ids : c.ids = (List.range c.ids.length).map Int32.ofNat
  ends : (c.ends.map UInt32.toNat).Pairwise (· ≤ ·)
  last : (c.ends.map UInt32.toNat).getLastD 0 = c.neighbors.length
  length_totals : c.totals.length = c.neighbors.length

def Columns.groups (c : Columns) : List NeighborGroup :=
  (Offsets.split (c.ends.map UInt32.toNat) (c.neighbors.zip c.totals)).map NeighborGroup.mk

theorem find?_misplaced_eq_none_iff {ids : List Int32} :
    (ids.zipIdx.find? fun (t, g) => t ≠ Int32.ofNat g) = none ↔
      ids = (List.range ids.length).map Int32.ofNat := by
  rw [List.find?_eq_none]
  constructor
  · intro h
    refine List.ext_getElem (by simp) fun i hi _ => ?_
    have hmem : (ids[i], i) ∈ ids.zipIdx :=
      List.mk_mem_zipIdx_iff_getElem?.2 (List.getElem?_eq_getElem hi)
    simpa using h _ hmem
  · rintro h ⟨t, g⟩ hmem
    have hg := List.mk_mem_zipIdx_iff_getElem?.1 hmem
    have hlt := (List.getElem?_eq_some_iff.1 hg).1
    rw [h, List.getElem?_map, List.getElem?_range hlt] at hg
    simpa using (Option.some.inj hg).symm

theorem any_descends_eq_false_iff {ends : List Nat} :
    ((ends.zip ends.tail).any fun (e, next) => next < e) = false ↔ ends.Pairwise (· ≤ ·) := by
  rw [← List.isChain_iff_pairwise]
  induction ends with
  | nil => simp
  | cons e ends ih =>
    cases ends with
    | nil => simp
    | cons next rest =>
      rw [List.tail_cons, List.zip_cons_cons, List.any_cons, Bool.or_eq_false_iff,
        List.isChain_cons_cons]
      exact and_congr (by simp) ih

theorem fitting_of_ofColumns (hweights : c.weights.length = c.ids.length)
    (h : ofColumns c pool = .ok a) : c.Fitting := by
  unfold ofColumns at h
  dsimp only at h
  split at h
  · cases h
  rename_i hends
  split at h
  · cases h
  rename_i hids
  split at h
  · cases h
  rename_i hdescends
  split at h
  · cases h
  rename_i hlengths
  rw [not_not, List.length_map] at hends
  rw [Bool.not_eq_true] at hdescends
  rw [not_or, not_not, not_not] at hlengths
  exact ⟨hweights, hends, find?_misplaced_eq_none_iff.1 hids, any_descends_eq_false_iff.1 hdescends,
    hlengths.1, hlengths.2.symm⟩

theorem ofColumns_of_fitting (h : c.Fitting) :
    ofColumns c pool = match groupsFault? pool 0 0 c.groups with
      | some fault => .error fault
      | none => .ok ⟨c.groups, pool⟩ := by
  rw [ofColumns]
  dsimp only
  rw [if_neg (not_not.2 ((List.length_map _).trans h.length_ends)),
    find?_misplaced_eq_none_iff.2 h.ids]
  dsimp only
  rw [any_descends_eq_false_iff.2 h.ends, if_neg Bool.false_ne_true,
    if_neg (not_or.2 ⟨not_not.2 h.last, not_not.2 h.length_totals.symm⟩)]
  rfl

/-- Columns are taken for a neighborhood exactly if they fit and their groups hold. -/
theorem ofColumns_eq_ok_iff (hweights : c.weights.length = c.ids.length) :
    ofColumns c pool = .ok a ↔ c.Fitting ∧
      (∀ g group, c.groups[g]? = some group → Holds (pool.weights.getD g .zero) group) ∧
        a = ⟨c.groups, pool⟩ := by
  rw [← holds_iff]
  by_cases hfitting : c.Fitting
  · rw [ofColumns_of_fitting hfitting, and_iff_right hfitting]
    cases groupsFault? pool 0 0 c.groups with
    | some fault => simp
    | none => simp [eq_comm]
  · exact iff_of_false (fun h => hfitting (fitting_of_ofColumns hweights h)) fun h => hfitting h.1

theorem Columns.Fitting.length_groups (h : c.Fitting) : c.groups.length = c.ids.length := by
  rw [Columns.groups, List.length_map, Offsets.split, Offsets.length_splitFrom, List.length_map,
    h.length_ends]

theorem columns_groups (h : c.Fitting) (hpool : pool.weights = c.weights) :
    (⟨c.groups, pool⟩ : Neighborhood).columns = c := by
  have hchain : (0 :: c.ends.map UInt32.toNat).IsChain (· ≤ ·) :=
    List.isChain_iff_pairwise.2 (List.pairwise_cons.2 ⟨fun _ _ => Nat.zero_le _, h.ends⟩)
  have hlast : (c.ends.map UInt32.toNat).getLastD 0 = 0 + (c.neighbors.zip c.totals).length := by
    rw [h.last, List.length_zip, h.length_totals, Nat.min_self, Nat.zero_add]
  have hmembers : c.groups.map NeighborGroup.members =
      Offsets.split (c.ends.map UInt32.toNat) (c.neighbors.zip c.totals) := by
    rw [Columns.groups, List.map_map]
    exact List.map_id _
  have hflatten : (c.groups.map NeighborGroup.members).flatten = c.neighbors.zip c.totals := by
    rw [hmembers]
    exact Offsets.flatten_splitFrom hchain hlast
  have hids : (List.range c.groups.length).map Int32.ofNat = c.ids := by
    rw [h.length_groups]
    exact h.ids.symm
  have hends : (Offsets.ends (c.groups.map NeighborGroup.members)).map UInt32.ofNat = c.ends := by
    rw [hmembers, Offsets.ends, Offsets.split, Offsets.endsFrom_splitFrom hchain hlast, List.map_map]
    simp [Function.comp_def]
  have hneighbors : (c.groups.flatMap fun g => g.members.map Prod.fst) = c.neighbors := by
    rw [← List.map_fst_zip (Nat.le_of_eq h.length_totals.symm), ← hflatten, List.map_flatten,
      List.map_map, List.flatMap_def]
    rfl
  have htotals : c.groups.flatMap NeighborGroup.totals = c.totals := by
    rw [← List.map_snd_zip (Nat.le_of_eq h.length_totals), ← hflatten, List.map_flatten,
      List.map_map, List.flatMap_def]
    rfl
  rw [columns, groupCount, hids, hends, hneighbors, htotals, hpool]

structure Sound (a : Neighborhood) : Prop where
  length_weights : a.pool.weights.length = a.groupCount
  isWeight : ∀ w ∈ a.pool.weights, w.isWeight = true
  pool_eq : a.pool = a.columns.pool
  holds : ∀ g group, a.groups[g]? = some group → Holds (a.weightOf g) group

theorem sound_of_no_group : (⟨[], .ofWeighted []⟩ : Neighborhood).Sound :=
  ⟨rfl, nofun, rfl, nofun⟩

theorem neighbors_eq (a : Neighborhood) :
    a.columns.neighbors = (a.groups.map NeighborGroup.members).flatten.map Prod.fst := by
  rw [List.map_flatten, List.map_map, columns, List.flatMap_def]
  rfl

theorem totals_eq (a : Neighborhood) :
    a.columns.totals = (a.groups.map NeighborGroup.members).flatten.map Prod.snd := by
  rw [List.map_flatten, List.map_map, columns, List.flatMap_def]
  rfl

theorem members_flatten (a : Neighborhood) :
    (a.groups.map NeighborGroup.members).flatten = a.columns.neighbors.zip a.columns.totals := by
  rw [neighbors_eq, totals_eq, List.zip_map']
  exact (List.map_id _).symm

theorem length_ids (a : Neighborhood) : a.columns.ids.length = a.groupCount := by
  simp [columns]

theorem length_ends (a : Neighborhood) : a.columns.ends.length = a.groupCount := by
  simp [columns, Offsets.ends, groupCount]

theorem length_neighbors (a : Neighborhood) : a.columns.neighbors.length = a.neighborCount := by
  simp [columns, neighborCount, List.length_flatMap]

theorem length_totals (a : Neighborhood) : a.columns.totals.length = a.neighborCount := by
  simp [columns, neighborCount, List.length_flatMap, NeighborGroup.totals]

theorem toNat_ends (h : a.neighborCount < UInt32.size) :
    a.columns.ends.map UInt32.toNat = Offsets.ends (a.groups.map NeighborGroup.members) := by
  rw [columns, List.map_map]
  refine (List.map_congr_left fun stop hstop => ?_).trans (List.map_id _)
  have hle := Offsets.le_of_mem_endsFrom hstop
  rw [← List.flatMap_def, Nat.zero_add] at hle
  exact UInt32.toNat_ofNat_of_lt' (Nat.lt_of_le_of_lt hle h)

theorem fitting_columns (hweights : a.pool.weights.length = a.groupCount)
    (hneighbors : a.neighborCount < UInt32.size) : a.columns.Fitting ∧ a.columns.groups = a.groups := by
  have hends := toNat_ends hneighbors
  have hchain := Offsets.isChain_endsFrom 0 (a.groups.map NeighborGroup.members)
  refine ⟨⟨?_, ?_, ?_, ?_, ?_, ?_⟩, ?_⟩
  · rw [length_ids]
    exact hweights
  · rw [length_ids]
    exact length_ends a
  · rw [length_ids, columns]
  · rw [hends]
    exact (List.pairwise_cons.1 (List.isChain_iff_pairwise.1 hchain)).2
  · rw [hends, Offsets.ends, Offsets.getLastD_endsFrom, length_neighbors, Nat.zero_add,
      ← List.flatMap_def, neighborCount]
  · rw [length_totals, length_neighbors]
  · rw [Columns.groups, hends, ← members_flatten, Offsets.ends, Offsets.split,
      Offsets.splitFrom_endsFrom, List.map_map]
    exact List.map_id _

section Numbers

theorem placeOfNumber_ofNat {g : Nat} (hg : g < Offsets.limit) : placeOfNumber (Int32.ofNat g) = g := by
  have hsize : g < 2 ^ (31 : Nat) := hg
  have hsigned : (Int32.ofNat g).toInt64 = Int64.ofNat g := by
    rw [← Int64.toInt_inj, Int32.toInt_toInt64, Int32.toInt_ofNat_of_lt hsize,
      Int64.toInt_ofNat_of_lt (Nat.lt_trans hsize (by decide))]
  rw [placeOfNumber, hsigned, Int64.toUInt64_ofNat']
  exact UInt64.toNat_ofNat_of_lt' (Nat.lt_trans hsize (by decide))

theorem pool_columns (hcount : a.groupCount ≤ Offsets.limit) :
    a.columns.pool = .ofWeighted ((List.range a.groupCount).zip a.pool.weights) := by
  have hplaces : a.columns.ids.map placeOfNumber = List.range a.groupCount := by
    rw [columns, List.map_map]
    refine (List.map_congr_left fun g hg => ?_).trans (List.map_id _)
    exact placeOfNumber_ofNat (Nat.lt_of_lt_of_le (List.mem_range.1 hg) hcount)
  rw [Columns.pool, hplaces]
  rfl

end Numbers

theorem sound_of_ofColumns (hweights : c.weights.length = c.ids.length)
    (hvalid : ∀ w ∈ c.weights, w.isWeight = true) (h : ofColumns c c.pool = .ok a) :
    a.Sound ∧ a.columns = c := by
  obtain ⟨hfitting, hholds, rfl⟩ := (ofColumns_eq_ok_iff hweights).1 h
  have hpool : c.pool.weights = c.weights := by
    rw [Columns.pool, Pool.ofWeighted]
    exact List.map_snd_zip (by rw [hweights, List.length_map])
  have hcolumns := columns_groups hfitting hpool
  refine ⟨⟨?_, ?_, ?_, hholds⟩, hcolumns⟩
  · rw [hpool, hweights]
    exact hfitting.length_groups.symm
  · rwa [hpool]
  · rw [hcolumns]

theorem Sound.ofColumns_columns (h : a.Sound) (hneighbors : a.neighborCount < UInt32.size) :
    ofColumns a.columns a.columns.pool = .ok a := by
  obtain ⟨hfitting, hgroups⟩ := fitting_columns h.length_weights hneighbors
  refine (ofColumns_eq_ok_iff hfitting.length_weights).2 ⟨hfitting, ?_, ?_⟩
  · rw [hgroups, ← h.pool_eq]
    exact h.holds
  · rw [hgroups, ← h.pool_eq]

end Neighborhood

end WeightedStore
