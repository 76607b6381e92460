import Mathlib.Data.List.Basic
import WeightedStore.Node.Record
import WeightedStore.Proofs.Node.Offsets

/-!
Columns of features as they are stored. The offsets and values that are taken for a column are those
that ascend from zero to the number of values, and the column is stored as just these again. A column
that comes from lists has no more values than its offsets can count, and is read back from its store.
-/

namespace WeightedStore

variable {α : Type}

namespace FeatureColumn

theorem firstFall?_eq_none_iff {previous : Int} {offsets : List Int} :
    firstFall? previous offsets = none ↔ (previous :: offsets).IsChain (· ≤ ·) := by
  induction offsets generalizing previous with
  | nil => simp [firstFall?]
  | cons stop rest ih =>
    rw [firstFall?, List.isChain_cons_cons, ← ih]
    split
    · rename_i hfall
      exact iff_of_false nofun fun h => Int.not_le.2 hfall h.1
    · rename_i hrise
      exact (and_iff_right (Int.not_lt.1 hrise)).symm

def Sound (c : FeatureColumn α) : Prop := c.values.length < Offsets.limit

instance (c : FeatureColumn α) : Decidable c.Sound :=
  inferInstanceAs (Decidable (c.values.length < Offsets.limit))

theorem length_offsets_stored (c : FeatureColumn α) : c.stored.offsets.length = c.count := by
  rw [stored, List.length_map, offsets, Offsets.ends, Offsets.length_endsFrom, count]

end FeatureColumn

namespace StoredColumn

variable {c : StoredColumn α} {f : FeatureColumn α}

structure Fitting (c : StoredColumn α) : Prop where
  ascend : (0 :: c.offsets.map Int32.toInt).IsChain (· ≤ ·)
  last : (c.offsets.map Int32.toInt).getLastD 0 = c.values.length

def ends (c : StoredColumn α) : List Nat := (c.offsets.map Int32.toInt).map Int.toNat

theorem read_eq_ok_iff_fitting :
    c.read = .ok f ↔ c.Fitting ∧ f = ⟨Offsets.split c.ends c.values⟩ := by
  rw [read, FeatureColumn.ofParts]
  cases hfall : FeatureColumn.firstFall? 0 (c.offsets.map Int32.toInt) with
  | some fall =>
    refine iff_of_false nofun fun h => ?_
    rw [FeatureColumn.firstFall?_eq_none_iff.2 h.1.ascend] at hfall
    cases hfall
  | none =>
    have hascend := FeatureColumn.firstFall?_eq_none_iff.1 hfall
    dsimp only
    split
    · rename_i hlast
      exact iff_of_false nofun fun h => hlast h.1.last
    · rename_i hlast
      rw [not_not] at hlast
      rw [Except.ok.injEq, eq_comm]
      exact (and_iff_right ⟨hascend, hlast⟩).symm

theorem Fitting.nonneg (h : c.Fitting) : ∀ o ∈ c.offsets.map Int32.toInt, 0 ≤ o :=
  (List.pairwise_cons.1 (List.isChain_iff_pairwise.1 h.ascend)).1

theorem Fitting.isChain_ends (h : c.Fitting) : (0 :: c.ends).IsChain (· ≤ ·) := by
  have hmap := (List.isChain_map Int.toNat).2
    (h.ascend.imp fun x y (hle : x ≤ y) => Int.toNat_le_toNat hle)
  rwa [List.map_cons, Int.toNat_zero] at hmap

theorem Fitting.getLastD_ends (h : c.Fitting) : c.ends.getLastD 0 = 0 + c.values.length := by
  have hlast : c.ends.getLastD (Int.toNat 0) = ((c.offsets.map Int32.toInt).getLastD 0).toNat :=
    List.getLastD_map
  rw [h.last] at hlast
  rw [Nat.zero_add]
  exact hlast

theorem Fitting.length_values_lt (h : c.Fitting) : c.values.length < Offsets.limit := by
  have hmem : (c.values.length : Int) ∈ 0 :: c.offsets.map Int32.toInt :=
    h.last ▸ List.getLastD_mem_cons
  rcases List.mem_cons.1 hmem with hzero | hmem
  · rw [Int.ofNat.inj hzero]
    decide
  · obtain ⟨o, -, ho⟩ := List.mem_map.1 hmem
    have hbound : o.toInt < (Offsets.limit : Int) := o.toInt_lt
    rw [ho] at hbound
    exact Int.ofNat_lt.1 hbound

theorem ofNat_ends (h : c.Fitting) : c.ends.map Int32.ofNat = c.offsets := by
  rw [ends, List.map_map, List.map_map]
  refine (List.map_congr_left fun o ho => ?_).trans (List.map_id _)
  have hnonneg := h.nonneg o.toInt (List.mem_map_of_mem ho)
  rw [Function.comp_apply, Function.comp_apply, ← Int32.ofInt_eq_ofNat, Int.toNat_of_nonneg hnonneg]
  exact Int32.ofInt_toInt o

theorem read_eq_ok_iff : c.read = .ok f ↔ f.stored = c ∧ f.Sound := by
  rw [read_eq_ok_iff_fitting]
  constructor
  · rintro ⟨hfitting, rfl⟩
    have hvalues := Offsets.flatten_splitFrom hfitting.isChain_ends hfitting.getLastD_ends
    have hends := Offsets.endsFrom_splitFrom hfitting.isChain_ends hfitting.getLastD_ends
    refine ⟨?_, ?_⟩
    · rw [FeatureColumn.stored, FeatureColumn.offsets, FeatureColumn.values, Offsets.split,
        Offsets.ends, hvalues, hends, ofNat_ends hfitting]
    · rw [FeatureColumn.Sound, FeatureColumn.values, Offsets.split, hvalues]
      exact hfitting.length_values_lt
  · rintro ⟨rfl, hsound⟩
    have hoffsets : f.stored.offsets.map Int32.toInt = f.offsets.map Int.ofNat := by
      rw [FeatureColumn.stored, List.map_map]
      refine List.map_congr_left fun stop hstop => Int32.toInt_ofNat_of_lt ?_
      have hle := Offsets.le_of_mem_endsFrom hstop
      rw [Nat.zero_add] at hle
      exact Nat.lt_of_le_of_lt hle hsound
    have hends : f.stored.ends = f.offsets := by
      rw [ends, hoffsets, List.map_map]
      exact List.map_id _
    refine ⟨⟨?_, ?_⟩, ?_⟩
    · rw [hoffsets]
      have hchain := Offsets.isChain_endsFrom 0 f.lists
      have hmap := (List.isChain_map Int.ofNat).2 (hchain.imp fun _ _ hle => Int.ofNat_le.2 hle)
      rwa [List.map_cons] at hmap
    · have hlast := Offsets.getLastD_endsFrom 0 f.lists
      rw [Nat.zero_add] at hlast
      rw [hoffsets]
      have hmap : (f.offsets.map Int.ofNat).getLastD (Int.ofNat 0) = Int.ofNat (f.offsets.getLastD 0) :=
        List.getLastD_map
      exact hmap.trans (congrArg Int.ofNat hlast)
    · have hsplit := Offsets.splitFrom_endsFrom 0 f.lists
      rw [hends]
      exact congrArg FeatureColumn.mk hsplit.symm

end StoredColumn

end WeightedStore
