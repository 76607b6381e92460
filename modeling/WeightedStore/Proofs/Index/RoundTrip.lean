import WeightedStore.Proofs.Index.Segments

/-!
Storing an index and reading it back. Every index whose columns and strings are not too long for
their length fields can be written, in as many bytes as were counted for it, and is read back with the
same keys, ids and values. A hash index is read back as it was.
-/

namespace WeightedStore

namespace HashIndex

section Record

variable {ι α : Type} {e : α × Pool ι}

def recordOf (e : α × Pool ι) : Record ι α := ⟨e.1, e.2.items, e.2.weights⟩

theorem wellFormed_recordOf (h : Sound e.2) : (recordOf e).WellFormed where
  length_eq := by rw [recordOf, h.items_eq, h.weights_eq, List.length_map, List.length_map]
  weights := by
    rw [recordOf, h.weights_eq]
    exact List.forall_mem_map.2 h.weights

theorem entry_recordOf (h : Sound e.2) : (recordOf e).entry = e := Prod.ext rfl h.pooled.symm

end Record

variable {ι : Type} [Identifier ι] {t : ValueType} {index : HashIndex ι t.Carrier}

theorem exists_encode_recordOf {e : t.Carrier × Pool ι} (h : Sound e.2) (hvalue : t.Fits e.1)
    (hlength : e.2.items.length < UInt32.size) : ∃ bytes, (recordOf e).encode = .ok bytes := by
  have hweights : e.2.weights.length < UInt32.size := (wellFormed_recordOf h).length_eq ▸ hlength
  exact Encoding.exists_join (List.forall_mem_cons.2 ⟨Attribute.exists_encode hvalue,
    List.forall_mem_cons.2 ⟨Identifier.exists_encodeColumn hlength,
      List.forall_mem_singleton.2 (Bytes.exists_encodeScalars hweights)⟩⟩)

theorem length_of_encode_recordOf {e : t.Carrier × Pool ι} (h : Sound e.2) {bytes : List UInt8}
    (hbytes : (recordOf e).encode = .ok bytes) : bytes.length = encodedSize e.1 e.2 := by
  obtain ⟨_, _, _, hvalue, hids, hweights, rfl⟩ := Encoding.join_triple_eq_ok_iff.1 hbytes
  rw [List.length_append, List.length_append, Attribute.length_of_encode hvalue,
    Identifier.length_of_encodeColumn hids, Bytes.length_of_encodeScalars hweights,
    ← (wellFormed_recordOf h).length_eq, ← Nat.add_assoc]
  rfl

def Fits (index : HashIndex ι t.Carrier) : Prop :=
  ∀ e ∈ index.buckets, t.Fits e.1 ∧ e.2.items.length < UInt32.size

theorem joined_toList (bucket : Option (Pool ι)) : joined bucket.toList = bucket := by
  cases bucket <;> rfl

theorem exists_serialize (h : index.WellFormed) (hfits : index.Fits) :
    ∃ bytes, index.serialize = .ok bytes ∧ bytes.length = index.serializedSize ∧
      deserialize index.name bytes = .ok index := by
  obtain ⟨bytes, hbytes⟩ : ∃ bytes,
      Encoding.join (index.buckets.map fun e => (recordOf e).encode) = .ok bytes :=
    Encoding.exists_join <| List.forall_mem_map.2 fun e he =>
      exists_encode_recordOf (h.sound e he) (hfits e he).1 (hfits e he).2
  have hrecords : Encoding.join ((index.buckets.map recordOf).map Record.encode) = .ok bytes := by
    rw [List.map_map]
    exact hbytes
  have hentries : (index.buckets.map recordOf).map Record.entry = index.buckets := by
    rw [List.map_map]
    exact (List.map_congr_left fun e he => entry_recordOf (h.sound e he)).trans (List.map_id _)
  obtain ⟨back, hback, htakes⟩ := exists_deserialize_of_records index.name
    (List.forall_mem_map.2 fun e he => wellFormed_recordOf (h.sound e he)) hrecords
  have hsame : back = index := htakes.wellFormed.eq_of_get?_eq h htakes.name fun v => by
    have hget := htakes.get? v
    rw [hentries, h.bucketsOf_buckets] at hget
    exact hget.trans (joined_toList _)
  refine ⟨bytes, ?_, ?_, hsame ▸ hback⟩
  · rw [serialize]
    exact congrArg (Except.mapError (StoreError.corrupt index.name)) hbytes
  · exact Encoding.length_of_join_map
      (fun e he _ => length_of_encode_recordOf (h.sound e he)) hbytes

end HashIndex

namespace RangeIndex

variable {ι : Type}

def record {α : Type} (index : RangeIndex ι α) : Record ι α :=
  ⟨index.ids, index.values, index.weights⟩

theorem wellFormed_record {α : Type} (index : RangeIndex ι α) : index.record.WellFormed where
  values := (List.length_map _).trans index.length_values.symm
  weights := (List.length_map _).trans index.length_weights.symm

theorem columns_ofRows_record {α : Type} [Attribute α] {index : RangeIndex ι α}
    (h : Ordered index.values) (name : String) (stamp : Stamp) :
    (ofRows name stamp index.record.rows).columns = index.columns := by
  rw [columns_ofRows]
  exact (congrArg _ (columns_weightedRows index)).trans (sortBy_columns h)

variable [Identifier ι] {t : ValueType} {index : RangeIndex ι t.Carrier}

def Fits (index : RangeIndex ι t.Carrier) : Prop :=
  index.rowCount < UInt32.size ∧ ∀ v ∈ index.values, t.Fits v

theorem exists_encode (hfits : index.Fits) : ∃ bytes, index.encode = .ok bytes := by
  obtain ⟨hrows, hvalues⟩ := hfits
  have hids : index.ids.length < UInt32.size := by rwa [ids, List.length_map]
  have hlength : index.values.length < UInt32.size := by rwa [RangeIndex.values, List.length_map]
  have hweights : index.weights.length < UInt32.size := by rwa [length_weights]
  exact Encoding.exists_join (List.forall_mem_cons.2 ⟨Identifier.exists_encodeColumn hids,
    List.forall_mem_cons.2 ⟨Attribute.exists_encodeColumn hlength hvalues,
      List.forall_mem_singleton.2 (Bytes.exists_encodeScalars hweights)⟩⟩)

theorem length_of_encode {bytes : List UInt8} (h : index.encode = .ok bytes) :
    bytes.length = index.encodedSize := by
  obtain ⟨_, _, _, hids, hvalues, hweights, rfl⟩ := Encoding.join_triple_eq_ok_iff.1 h
  rw [List.length_append, List.length_append, Identifier.length_of_encodeColumn hids,
    Attribute.length_of_encodeColumn hvalues, Bytes.length_of_encodeScalars hweights,
    length_weights, ids, List.length_map, ← Nat.add_assoc]
  rfl

theorem serialize_eq_ok_iff {bytes : List UInt8} :
    index.serialize = .ok bytes ↔ index.encode = .ok bytes := mapError_eq_ok_iff

theorem deserialize_of_encode {bytes : List UInt8} (h : index.encode = .ok bytes) (stamp : Stamp) :
    deserialize index.name stamp bytes = .ok (ofRows index.name stamp index.weightedRows) := by
  have hbytes : Encoding.join ([index.record].map Record.encode) = .ok bytes :=
    Encoding.join_cons_eq_ok_iff.2 ⟨bytes, [], h, rfl, (List.append_nil bytes).symm⟩
  have hread := deserialize_of_records index.name stamp
    (List.forall_mem_singleton.2 index.wellFormed_record) hbytes
  rwa [List.flatMap_singleton] at hread

theorem exists_serialize (h : Ordered index.values) (hfits : index.Fits) (stamp : Stamp) :
    ∃ bytes back, index.serialize = .ok bytes ∧ bytes.length = index.encodedSize ∧
      deserialize index.name stamp bytes = .ok back ∧ back.name = index.name ∧
      back.columns = index.columns := by
  obtain ⟨bytes, hbytes⟩ := exists_encode hfits
  exact ⟨bytes, _, serialize_eq_ok_iff.2 hbytes, length_of_encode hbytes,
    deserialize_of_encode hbytes stamp, rfl, columns_ofRows_record h index.name stamp⟩

end RangeIndex

namespace HashRangeIndex

def columns {ι α : Type} (index : HashRangeIndex ι α) : List (ι × List ι × List α) :=
  index.ranges.map fun e => (e.1, e.2.ids, e.2.values)

theorem rowCount_eq_length_columns {ι α : Type} (index : HashRangeIndex ι α) :
    index.rowCount = (index.columns.flatMap fun e => e.2.1).length := by
  simp [rowCount, columns, RangeIndex.ids, List.length_flatMap, List.flatMap_map]

variable {ι : Type} [Identifier ι] {t : ValueType} {index back : HashRangeIndex ι t.Carrier}

theorem keys_eq_map_columns (index : HashRangeIndex ι t.Carrier) :
    index.keys = index.columns.map fun e => Attribute.text e.1 := by
  rw [columns, List.map_map]
  rfl

def Fits (index : HashRangeIndex ι t.Carrier) : Prop := ∀ e ∈ index.ranges, e.2.Fits

def recordOf {α : Type} (e : ι × RangeIndex ι α) : Record ι α := ⟨e.1, e.2.record⟩

theorem exists_encode_recordOf {e : ι × RangeIndex ι t.Carrier} (hfits : e.2.Fits) :
    ∃ bytes, (recordOf e).encode = .ok bytes :=
  Encoding.exists_join (List.forall_mem_cons.2
    ⟨⟨_, rfl⟩, List.forall_mem_singleton.2 (RangeIndex.exists_encode hfits)⟩)

theorem length_of_encode_recordOf {e : ι × RangeIndex ι t.Carrier} {bytes : List UInt8}
    (h : (recordOf e).encode = .ok bytes) :
    bytes.length = (Identifier.scalar ι).width + e.2.encodedSize := by
  obtain ⟨_, _, hkey, hcolumns, rfl⟩ := Encoding.join_cons_eq_ok_iff.1 h
  obtain ⟨_, _, hrange, hnil, rfl⟩ := Encoding.join_cons_eq_ok_iff.1 hcolumns
  obtain rfl := Encoding.join_nil_eq_ok_iff.1 hnil
  obtain rfl := Except.ok.inj hkey
  rw [List.length_append, List.append_nil, RangeIndex.length_of_encode hrange, encodeKey,
    Scalar.length_encode]

theorem columns_eq_of_perm (h : index.WellFormed) (hascending : Keyed.Ascending back.ranges)
    {name : String} {operation : Nat}
    (hperm : back.ranges.Perm ((index.ranges.map recordOf).map (Record.entry name operation))) :
    back.columns = index.columns := by
  have hentries : ((index.ranges.map recordOf).map (Record.entry name operation)).map
      (fun e => (e.1, e.2.ids, e.2.values)) = index.columns := by
    rw [List.map_map, List.map_map]
    refine List.map_congr_left fun e he => ?_
    obtain ⟨hids, hvalues⟩ := RangeIndex.ids_values_eq_of_columns
      (RangeIndex.columns_ofRows_record (h.ordered e he) (rangeName name e.1) (stampOf operation e.1))
    exact Prod.ext rfl (Prod.ext hids hvalues)
  have hcolumns : back.columns.Perm index.columns := hentries ▸ hperm.map _
  have hback : Keyed.Ascending back.columns := List.pairwise_map.2 hascending
  exact hback.eq_of_perm (List.pairwise_map.2 h.ascending) hcolumns

theorem exists_serialize (h : index.WellFormed) (hfits : index.Fits) (operation : Nat) :
    ∃ bytes back, index.serialize = .ok bytes ∧ bytes.length = index.serializedSize ∧
      deserialize index.name operation bytes = .ok back ∧ back.name = index.name ∧
      back.columns = index.columns := by
  obtain ⟨bytes, hbytes⟩ : ∃ bytes,
      Encoding.join (index.ranges.map fun e => (recordOf e).encode) = .ok bytes :=
    Encoding.exists_join <| List.forall_mem_map.2 fun e he => exists_encode_recordOf (hfits e he)
  have hrecords : Encoding.join ((index.ranges.map recordOf).map Record.encode) = .ok bytes := by
    rw [List.map_map]
    exact hbytes
  have hkeys : ((index.ranges.map recordOf).map Record.key).Nodup := by
    rw [List.map_map]
    exact h.ascending.nodup_keys
  obtain ⟨back, hback, hname, hascending, hperm⟩ := exists_deserialize_of_records index.name
    operation (List.forall_mem_map.2 fun e _ => e.2.wellFormed_record) hkeys hrecords
  refine ⟨bytes, back, ?_, ?_, hback, hname, columns_eq_of_perm h hascending hperm⟩
  · exact congrArg (Except.mapError (StoreError.corrupt index.name)) hbytes
  · exact Encoding.length_of_join_map (fun _ _ _ => length_of_encode_recordOf) hbytes

end HashRangeIndex

namespace Index

variable {ι : Type} [Identifier ι] {t : ValueType} {index : Index ι t.Carrier}

def Fits : Index ι t.Carrier → Prop
  | hash index => index.Fits
  | range index => index.Fits
  | hashRange index => index.Fits

/-- Whether two indexes have the same ids and values in the same order, under each key where there are
keys. Hash indexes then have to be the same altogether. -/
def SameColumns {α : Type} : Index ι α → Index ι α → Prop
  | hash a, hash b => a = b
  | range a, range b => a.ids = b.ids ∧ a.values = b.values
  | hashRange a, hashRange b => a.columns = b.columns
  | _, _ => False

/-- An index that came about in any way can be stored if the length fields do for it. The bytes are
those that were counted, and are read under the same name as an index with the same keys and columns;
a hash index comes back as it was, and gives the same bytes again. -/
theorem serialize_reads_back (hi : index.Reached) (hfits : index.Fits) (operation : Nat) :
    ∃ bytes back, index.serialize = .ok bytes ∧ bytes.length = index.serializedSize ∧
      deserialize index.kind index.name operation bytes = .ok back ∧
      back.name = index.name ∧ back.keys = index.keys ∧ back.rowCount = index.rowCount ∧
      back.SameColumns index ∧ (index.kind = .hash → back = index ∧ back.serialize = .ok bytes) := by
  have h := hi.wellFormed
  cases index with
  | hash index =>
    obtain ⟨bytes, hbytes, hlength, hback⟩ := HashIndex.exists_serialize h hfits
    refine ⟨bytes, .hash index, hbytes, hlength, ?_, rfl, rfl, rfl, rfl, fun _ => ⟨rfl, hbytes⟩⟩
    exact congrArg (hash <$> ·) hback
  | range index =>
    obtain ⟨bytes, back, hbytes, hlength, hback, hname, hcolumns⟩ :=
      RangeIndex.exists_serialize h hfits ⟨operation, 0⟩
    have hsame := RangeIndex.ids_values_eq_of_columns hcolumns
    have hcount : back.rowCount = index.rowCount := by
      rw [← back.length_values, hsame.2, index.length_values]
    exact ⟨bytes, .range back, hbytes, hlength, congrArg (range <$> ·) hback, hname, rfl, hcount,
      hsame, nofun⟩
  | hashRange index =>
    obtain ⟨bytes, back, hbytes, hlength, hback, hname, hcolumns⟩ :=
      HashRangeIndex.exists_serialize h hfits operation
    have hkeys : back.keys = index.keys := by
      rw [back.keys_eq_map_columns, hcolumns, index.keys_eq_map_columns]
    have hcount : back.rowCount = index.rowCount := by
      rw [back.rowCount_eq_length_columns, hcolumns, index.rowCount_eq_length_columns]
    exact ⟨bytes, .hashRange back, hbytes, hlength, congrArg (hashRange <$> ·) hback, hname, hkeys,
      hcount, hcolumns, nofun⟩

theorem serialize_reads_back_payload :
    let nan : Binary32 := .ofBits 0x7fc00001
    let one : Binary32 := .ofWord false 0x3f800000
    let index : Index UInt64 ValueType.float.Carrier :=
      .hash ⟨"size", [(nan, .ofWeighted [(7, one), (3, .zero)])]⟩
    index.Reached ∧ index.Fits ∧ ∃ bytes, index.serialize = .ok bytes ∧ bytes.length = 36 ∧
      deserialize .hash "size" 5 bytes = .ok index := by
  intro nan one index
  have hadd : (HashIndex.empty "size").add nan [7, 3] [one, .zero] =
      .ok ⟨"size", [(nan, .ofWeighted [((7 : UInt64), one), (3, .zero)])]⟩ := rfl
  have hi : index.Reached := .addBucket (.empty .hash "size" 0) hadd
  have hfits : index.Fits := List.forall_mem_singleton.2 ⟨trivial, by decide⟩
  obtain ⟨bytes, back, hbytes, hlength, hback, -, -, -, -, hsame⟩ := serialize_reads_back hi hfits 5
  obtain ⟨rfl, -⟩ := hsame rfl
  exact ⟨hi, hfits, bytes, hbytes, hlength, hback⟩

end Index

end WeightedStore
