import WeightedStore.Proofs.Index.Records

/-!
Segments one after the other. Of a hash or a range index they are read as what their indexes make when
the second is merged into the first: a hash index in all its buckets, a range index in its ids and
values. The records of hash-range segments may not share a key, so that these stay out here.
-/

namespace WeightedStore

variable {ι : Type} [Identifier ι] {t : ValueType} {name : String} {a b : List UInt8}

theorem HashIndex.takesIn_append_of_merge {α : Type} [Attribute α] {left right merged : HashIndex ι α}
    {bs cs : List (α × Pool ι)} (hl : (empty name).TakesIn bs left)
    (hr : (empty name).TakesIn cs right) (hm : left.TakesIn right.buckets merged) :
    (empty name).TakesIn (bs ++ cs) merged := by
  refine ⟨hm.name.trans hl.name, hm.wellFormed, fun v => ?_⟩
  have hleft : left.get? v = joined (bucketsOf v bs) := hl.get? v
  have hright : right.get? v = joined (bucketsOf v cs) := hr.get? v
  rw [hm.get?, hr.wellFormed.bucketsOf_buckets, hleft, hright, joined_append_joined,
    bucketsOf_append]
  rfl

theorem HashIndex.exists_deserialize_append {left right : HashIndex ι t.Carrier}
    (hl : deserialize name a = .ok left) (hr : deserialize name b = .ok right) :
    ∃ both, deserialize name (a ++ b) = .ok both ∧ left.merge right = .ok both := by
  obtain ⟨front, hfront, ha, htakesFront⟩ := exists_records_of_deserialize hl
  obtain ⟨back, hback, hb, htakesBack⟩ := exists_records_of_deserialize hr
  obtain ⟨both, hboth, htakes⟩ := exists_deserialize_of_records name
    (List.forall_mem_append.2 ⟨hfront, hback⟩) (Encoding.join_map_append ha hb)
  obtain ⟨merged, hmerged, -, htakesMerged⟩ := exists_merge htakesFront.wellFormed
    htakesBack.wellFormed (htakesBack.name.trans htakesFront.name.symm)
  rw [List.map_append] at htakes
  have hsame : both = merged := htakes.eq_of_bucketsOf_eq
    (takesIn_append_of_merge htakesFront htakesBack htakesMerged) fun _ => rfl
  exact ⟨both, hboth, hsame ▸ hmerged⟩

theorem RangeIndex.exists_deserialize_append {s₁ s₂ : Stamp} {left right : RangeIndex ι t.Carrier}
    (hl : deserialize name s₁ a = .ok left) (hr : deserialize name s₂ b = .ok right)
    (s₃ s₄ : Stamp) :
    ∃ both merged, deserialize name s₃ (a ++ b) = .ok both ∧ left.merge s₄ right = .ok merged ∧
      both.name = merged.name ∧ both.ids = merged.ids ∧ both.values = merged.values := by
  obtain ⟨front, hfront, ha, hleft⟩ := exists_records_of_deserialize hl
  obtain ⟨back, hback, hb, hright⟩ := exists_records_of_deserialize hr
  have hboth := deserialize_of_records name s₃
    (List.forall_mem_append.2 ⟨hfront, hback⟩) (Encoding.join_map_append ha hb)
  have hname : right.name = left.name := by
    rw [hleft, hright]
    rfl
  have hmerged : left.merge s₄ right = .ok (left.concat s₄ [right]) :=
    mergeAll_eq_ok (List.forall_mem_singleton.2 hname) s₄
  have hcolumns : (ofRows name s₃ ((front ++ back).flatMap Record.rows)).columns =
      (left.concat s₄ [right]).columns := by
    rw [columns_concat, hleft, hright, List.flatMap_singleton, columns_ofRows, columns_ofRows,
      columns_ofRows, List.flatMap_append, List.map_append]
    exact (Attribute.sortBy_append_sorted Prod.snd _ _).symm
  exact ⟨_, _, hboth, hmerged, by rw [hleft]; rfl, ids_values_eq_of_columns hcolumns⟩

namespace Index

/-- Segments that are read each on its own are read one after the other. A hash index is then what
merging the second index into the first gives; a range index has the ids and values of that. -/
theorem deserialize_append_merges (ι : Type) [Identifier ι] (t : ValueType) (name : String)
    (a b : List UInt8) :
    (∀ left right : HashIndex ι t.Carrier,
      HashIndex.deserialize name a = .ok left → HashIndex.deserialize name b = .ok right →
      ∃ both, HashIndex.deserialize name (a ++ b) = .ok both ∧ left.merge right = .ok both) ∧
    ∀ (s₁ s₂ s₃ s₄ : Stamp) (left right : RangeIndex ι t.Carrier),
      RangeIndex.deserialize name s₁ a = .ok left → RangeIndex.deserialize name s₂ b = .ok right →
      ∃ both merged, RangeIndex.deserialize name s₃ (a ++ b) = .ok both ∧
        left.merge s₄ right = .ok merged ∧
        both.name = merged.name ∧ both.ids = merged.ids ∧ both.values = merged.values :=
  ⟨fun _ _ hl hr => HashIndex.exists_deserialize_append hl hr,
    fun _ _ s₃ s₄ _ _ hl hr => RangeIndex.exists_deserialize_append hl hr s₃ s₄⟩

theorem deserialize_append_merges_shared_value :
    let weight : List UInt8 := [1, 0, 0, 0, 0, 0, 128, 63]
    let bucket (id : UInt8) : List UInt8 := [1, 0, 0, 0, 107, 1, 0, 0, 0, id, 0, 0, 0] ++ weight
    let row (id : UInt8) : List UInt8 :=
      [1, 0, 0, 0, id, 0, 0, 0, 1, 0, 0, 0, 1, 0, 0, 0, 107] ++ weight
    (∃ left right both : HashIndex UInt32 ValueType.string.Carrier,
      HashIndex.deserialize "h" (bucket 3) = .ok left ∧
      HashIndex.deserialize "h" (bucket 1) = .ok right ∧
      HashIndex.deserialize "h" (bucket 3 ++ bucket 1) = .ok both ∧ left.merge right = .ok both) ∧
    ∃ left right both merged : RangeIndex UInt32 ValueType.string.Carrier,
      RangeIndex.deserialize "r" ⟨1, 0⟩ (row 3) = .ok left ∧
      RangeIndex.deserialize "r" ⟨2, 0⟩ (row 1) = .ok right ∧
      RangeIndex.deserialize "r" ⟨3, 0⟩ (row 3 ++ row 1) = .ok both ∧
      left.merge ⟨4, 0⟩ right = .ok merged ∧ both.ids = merged.ids ∧ both.values = merged.values := by
  intro weight bucket row
  let one : Binary32 := .ofWord false 0x3f800000
  have hone : one.isWeight = true := by decide
  let bucketOf (id : UInt32) : HashIndex.Record UInt32 ValueType.string.Carrier := ⟨"k", [id], [one]⟩
  let rowOf (id : UInt32) : RangeIndex.Record UInt32 ValueType.string.Carrier := ⟨[id], ["k"], [one]⟩
  have hbucket (id : UInt32) : ∀ r ∈ [bucketOf id], r.WellFormed :=
    List.forall_mem_singleton.2 ⟨rfl, List.forall_mem_singleton.2 hone⟩
  have hrow (id : UInt32) : ∀ r ∈ [rowOf id], r.WellFormed := List.forall_mem_singleton.2 ⟨rfl, rfl⟩
  obtain ⟨left, hl, -⟩ := HashIndex.exists_deserialize_of_records "h" (hbucket 3)
    (by decide +kernel : Encoding.join ([bucketOf 3].map HashIndex.Record.encode) = .ok (bucket 3))
  obtain ⟨right, hr, -⟩ := HashIndex.exists_deserialize_of_records "h" (hbucket 1)
    (by decide +kernel : Encoding.join ([bucketOf 1].map HashIndex.Record.encode) = .ok (bucket 1))
  have hl' := RangeIndex.deserialize_of_records "r" ⟨1, 0⟩ (hrow 3)
    (by decide +kernel : Encoding.join ([rowOf 3].map RangeIndex.Record.encode) = .ok (row 3))
  have hr' := RangeIndex.deserialize_of_records "r" ⟨2, 0⟩ (hrow 1)
    (by decide +kernel : Encoding.join ([rowOf 1].map RangeIndex.Record.encode) = .ok (row 1))
  constructor
  · obtain ⟨both, hboth, hmerged⟩ :=
      (deserialize_append_merges UInt32 .string "h" (bucket 3) (bucket 1)).1 left right hl hr
    exact ⟨left, right, both, hl, hr, hboth, hmerged⟩
  · obtain ⟨both, merged, hboth, hmerged, -, hcolumns⟩ :=
      (deserialize_append_merges UInt32 .string "r" (row 3) (row 1)).2 ⟨1, 0⟩ ⟨2, 0⟩ ⟨3, 0⟩ ⟨4, 0⟩
        _ _ hl' hr'
    exact ⟨_, _, both, merged, hl', hr', hboth, hmerged, hcolumns⟩

end Index

end WeightedStore
