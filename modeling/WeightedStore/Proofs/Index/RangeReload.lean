import WeightedStore.Proofs.Index.RangeTotals
import WeightedStore.Proofs.Index.RoundTrip

/-!
Storing a built range index. The file holds the weights that are taken back from the totals, and they
are added up again when it is read. This gives the same totals where they are finite, the last one apart,
and the same bytes in any case.
-/

namespace WeightedStore.RangeIndex

section Rows

variable {ι α : Type}

theorem ids_weightedRows (index : RangeIndex ι α) : index.weightedRows.map (·.id) = index.ids := by
  rw [ids_eq_map_columns, ← columns_weightedRows, List.map_map]
  rfl

theorem values_weightedRows (index : RangeIndex ι α) :
    index.weightedRows.map (·.value) = index.values := by
  rw [values_eq_map_columns, ← columns_weightedRows, List.map_map]
  rfl

variable [Attribute α] {index : RangeIndex ι α}

/-- Rows that stand in order stay as they are; only their totals are added up anew. -/
theorem ofRows_weightedRows (h : Ordered index.values) (stamp : Stamp) :
    (ofRows index.name stamp index.weightedRows).ids = index.ids ∧
      (ofRows index.name stamp index.weightedRows).values = index.values ∧
      (ofRows index.name stamp index.weightedRows).totals = Running.totals index.weights := by
  rw [← values_weightedRows] at h
  have hordered : Attribute.OrderedBy (·.value) index.weightedRows := List.pairwise_map.1 h
  have hsorted : sortByValue index.weightedRows = index.weightedRows :=
    Attribute.sortBy_of_orderedBy hordered
  rw [ids_ofRows, values_ofRows, totals_ofRows, hsorted]
  exact ⟨ids_weightedRows index, values_weightedRows index,
    congrArg Running.totals (weights_weightedRows index)⟩

end Rows

variable {ι : Type} [Identifier ι] {t : ValueType} {index : RangeIndex ι t.Carrier}

/-- A built index is written if the length fields do for it. What is written is read as an index with
the same ids and values that writes the same bytes again. It has the same totals exactly if all of them
but the last are finite. -/
theorem serialize_reload (h : index.Built) :
    (index.Fits → ∃ bytes, index.serialize = .ok bytes) ∧
      ∀ bytes, index.serialize = .ok bytes → ∀ stamp, ∃ back,
        deserialize index.name stamp bytes = .ok back ∧ back.name = index.name ∧
        back.ids = index.ids ∧ back.values = index.values ∧ back.weights = index.weights ∧
        back.serialize = .ok bytes ∧
        (back.totals = index.totals ↔ ∀ total ∈ index.totals.dropLast, total.isFinite = true) := by
  constructor
  · intro hfits
    obtain ⟨bytes, hbytes⟩ := exists_encode hfits
    exact ⟨bytes, serialize_eq_ok_iff.2 hbytes⟩
  · intro bytes hbytes stamp
    rw [serialize_eq_ok_iff] at hbytes
    obtain ⟨ws, hws, htotals⟩ := h.sumsWeights
    obtain ⟨hids, hvalues, hsums⟩ := ofRows_weightedRows h.ordered stamp
    -- whatever the totals have become, the same weights are taken back from them
    have hweights : (ofRows index.name stamp index.weightedRows).weights = index.weights := by
      rw [weights, hsums, weights, htotals, Running.weights_totals_weights hws]
    have hencode : (ofRows index.name stamp index.weightedRows).encode = index.encode := by
      rw [encode, encode, hids, hvalues, hweights]
    refine ⟨_, deserialize_of_encode hbytes stamp, rfl, hids, hvalues, hweights, ?_, ?_⟩
    · exact serialize_eq_ok_iff.2 (hencode.trans hbytes)
    · rw [hsums, weights, htotals]
      exact Running.totals_weights_iff hws

theorem serialize_reload_rounded :
    let weight (bits : Nat) : Binary32 := .ofBits bits
    ∃ (index back : RangeIndex UInt32 ValueType.uint32.Carrier) (bytes : List UInt8),
      build "price" ⟨1, 0⟩ [1, 2, 3] [(1 : UInt32), (2 : UInt32), (3 : UInt32)]
        [weight 0x4b800000, weight 0x3f800000, weight 0x40400000] = .ok index ∧
      index.weights = [weight 0x4b800000, .zero, weight 0x40800000] ∧
      index.serialize = .ok bytes ∧ deserialize "price" ⟨2, 0⟩ bytes = .ok back ∧
      back.serialize = .ok bytes ∧ back.totals = index.totals := by
  intro weight
  let rows : List (WeightedRow UInt32 ValueType.uint32.Carrier) :=
    [⟨1, (1 : UInt32), weight 0x4b800000⟩, ⟨2, (2 : UInt32), weight 0x3f800000⟩,
      ⟨3, (3 : UInt32), weight 0x40400000⟩]
  have hbuild : build "price" ⟨1, 0⟩ [1, 2, 3] [(1 : UInt32), (2 : UInt32), (3 : UInt32)]
      [weight 0x4b800000, weight 0x3f800000, weight 0x40400000] =
        .ok (ofRows "price" ⟨1, 0⟩ rows) := rfl
  have hsorted : sortByValue rows = rows := Attribute.sortBy_of_orderedBy (by decide)
  have htotals : (ofRows "price" ⟨1, 0⟩ rows).totals =
      [weight 0x4b800000, weight 0x4b800000, weight 0x4b800002] := by
    rw [totals_ofRows, hsorted]
    decide
  have hfits : (ofRows "price" ⟨1, 0⟩ rows).Fits := by
    refine ⟨?_, fun _ _ => trivial⟩
    rw [← length_values, values_ofRows, hsorted]
    decide
  have hbuilt : (ofRows "price" ⟨1, 0⟩ rows).Built := ⟨_, _, _, hbuild⟩
  obtain ⟨hwritten, hreload⟩ := serialize_reload hbuilt
  obtain ⟨bytes, hbytes⟩ := hwritten hfits
  obtain ⟨back, hback, -, -, -, -, hagain, hsame⟩ := hreload bytes hbytes ⟨2, 0⟩
  refine ⟨_, back, bytes, hbuild, ?_, hbytes, hback, hagain, hsame.2 ?_⟩
  · rw [weights, htotals]
    decide
  · rw [htotals]
    decide

/-- Three weights that are each the largest there is. -/
theorem serialize_reload_overflow :
    let largest : Binary32 := .ofBits 0x7f7fffff
    ∃ (index back : RangeIndex UInt32 ValueType.uint32.Carrier) (bytes : List UInt8),
      build "price" ⟨1, 0⟩ [1, 2, 3] [(1 : UInt32), (2 : UInt32), (3 : UInt32)]
        [largest, largest, largest] = .ok index ∧
      index.serialize = .ok bytes ∧ deserialize "price" ⟨2, 0⟩ bytes = .ok back ∧
      index.totals = [largest, .infinity false, .infinity false] ∧
      back.totals = [largest, .infinity false, .nan true] ∧ back.totals ≠ index.totals := by
  intro largest
  let rows : List (WeightedRow UInt32 ValueType.uint32.Carrier) :=
    [⟨1, (1 : UInt32), largest⟩, ⟨2, (2 : UInt32), largest⟩, ⟨3, (3 : UInt32), largest⟩]
  have hbuild : build "price" ⟨1, 0⟩ [1, 2, 3] [(1 : UInt32), (2 : UInt32), (3 : UInt32)]
      [largest, largest, largest] = .ok (ofRows "price" ⟨1, 0⟩ rows) := rfl
  have hsorted : sortByValue rows = rows := Attribute.sortBy_of_orderedBy (by decide)
  have htotals : (ofRows "price" ⟨1, 0⟩ rows).totals =
      [largest, .infinity false, .infinity false] := by
    rw [totals_ofRows, hsorted]
    decide
  have hfits : (ofRows "price" ⟨1, 0⟩ rows).Fits := by
    refine ⟨?_, fun _ _ => trivial⟩
    rw [← length_values, values_ofRows, hsorted]
    decide
  obtain ⟨bytes, hbytes⟩ := exists_encode hfits
  obtain ⟨-, -, hsums⟩ := ofRows_weightedRows (ordered_ofRows "price" ⟨1, 0⟩ rows) ⟨2, 0⟩
  rw [weights, htotals] at hsums
  refine ⟨_, _, bytes, hbuild, serialize_eq_ok_iff.2 hbytes, deserialize_of_encode hbytes ⟨2, 0⟩,
    htotals, hsums.trans (by decide), ?_⟩
  rw [hsums, htotals]
  decide

end WeightedStore.RangeIndex
