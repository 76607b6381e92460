import WeightedStore.Index.Basic
import WeightedStore.Proofs.Attribute.Storage
import WeightedStore.Proofs.Index.HashOrder
import WeightedStore.Proofs.Index.RangeMerge

/-!
The records that indexes are stored in: buckets, rows in three columns, and such rows under a key. The
reader of each kind of record reads exactly the well-formed ones, as they are written. So an index is
read where such records fill the bytes, and is then what its kind makes of them.
-/

namespace WeightedStore

namespace HashIndex

structure Record (ι α : Type) where
  value : α
  ids : List ι
  weights : List Binary32

namespace Record

variable {ι α : Type}

structure WellFormed (r : Record ι α) : Prop where
  length_eq : r.ids.length = r.weights.length
  weights : ∀ w ∈ r.weights, w.isWeight = true

def encode [Identifier ι] [Attribute α] (r : Record ι α) : Encoding :=
  .join [Attribute.encode r.value, Identifier.encodeColumn r.ids,
    Bytes.encodeScalars .binary32 r.weights]

def entry (r : Record ι α) : α × Pool ι := (r.value, .ofWeighted (r.ids.zip r.weights))

theorem encode_ne_nil [Identifier ι] [Attribute α] (r : Record ι α) : r.encode ≠ .ok [] := fun h =>
  Bytes.encodeScalars_ne_nil .binary32 r.weights (Encoding.eq_ok_nil_of_mem h (by simp))

end Record

variable {ι : Type}

theorem reads_bucket {α : Type} (value : α) (ids : List ι) (weights : List Binary32) :
    Decoder.Reads (match Pool.ofColumns ids weights with
      | .ok bucket => return (value, bucket)
      | .error fault => throw fault : Decoder (α × Pool ι)) fun rest e =>
        rest = [] ∧ (Record.mk value ids weights).WellFormed ∧
          (Record.mk value ids weights).entry = e := by
  by_cases h : (Record.mk value ids weights).WellFormed
  · rw [Pool.ofColumns_eq_ok h.length_eq h.weights]
    refine (Decoder.reads_pure _).congr fun rest e => and_congr_right fun _ => ?_
    rw [and_iff_right h, eq_comm]
    rfl
  · cases hbucket : Pool.ofColumns ids weights with
    | ok bucket =>
      obtain ⟨hlength, hweights⟩ := (Pool.ofColumns_eq_ok_iff ids weights).1 ⟨bucket, hbucket⟩
      exact absurd ⟨hlength, hweights⟩ h
    | error fault => exact (Decoder.reads_throw fault).congr fun rest e => by simp [h]

variable [Identifier ι] {t : ValueType}

theorem reads_bucketDecoder :
    Decoder.Reads (bucketDecoder : Decoder (t.Carrier × Pool ι))
      (Decoder.through Record.WellFormed Record.encode Record.entry) := by
  refine (Decoder.reads_fields (Attribute.reads_decoder t) Identifier.reads_columnDecoder
    (Decoder.reads_scalars .binary32) reads_bucket).congr fun bytes e => ?_
  constructor
  · rintro ⟨value, ids, weights, hbytes, hr, rfl⟩
    exact ⟨⟨value, ids, weights⟩, hr, hbytes, rfl⟩
  · rintro ⟨r, hr, hbytes, rfl⟩
    exact ⟨r.value, r.ids, r.weights, hbytes, hr, rfl⟩

variable {bytes : List UInt8}

theorem exists_deserialize_of_records (name : String) {records : List (Record ι t.Carrier)}
    (h : ∀ r ∈ records, r.WellFormed)
    (hbytes : Encoding.join (records.map Record.encode) = .ok bytes) :
    ∃ index : HashIndex ι t.Carrier, deserialize name bytes = .ok index ∧
      (empty name).TakesIn (records.map Record.entry) index := by
  obtain ⟨index, htakes, hread⟩ := exists_deserialize (ι := ι) (α := t.Carrier) name bytes
  have hrecords := (Decoder.records_eq_iff reads_bucketDecoder Record.encode_ne_nil).2
    ⟨records, h, hbytes, rfl⟩
  rw [hrecords] at htakes hread
  exact ⟨index, hread, htakes⟩

theorem exists_records_of_deserialize {name : String} {index : HashIndex ι t.Carrier}
    (h : deserialize name bytes = .ok index) :
    ∃ records : List (Record ι t.Carrier), (∀ r ∈ records, r.WellFormed) ∧
      Encoding.join (records.map Record.encode) = .ok bytes ∧
      (empty name).TakesIn (records.map Record.entry) index := by
  obtain ⟨taken, htakes, hread⟩ := exists_deserialize (ι := ι) (α := t.Carrier) name bytes
  rw [h] at hread
  cases hrecords : Decoder.records (bucketDecoder : Decoder (t.Carrier × Pool ι)) bytes with
  | mk entries fault? =>
    rw [hrecords] at htakes hread
    cases fault? with
    | some fault => cases hread
    | none =>
      obtain ⟨records, hwellFormed, hbytes, rfl⟩ :=
        (Decoder.records_eq_iff reads_bucketDecoder Record.encode_ne_nil).1 hrecords
      obtain rfl := Except.ok.inj hread
      exact ⟨records, hwellFormed, hbytes, htakes⟩

end HashIndex

namespace RangeIndex

structure Record (ι α : Type) where
  ids : List ι
  values : List α
  weights : List Binary32

namespace Record

variable {ι α : Type}

structure WellFormed (r : Record ι α) : Prop where
  values : r.ids.length = r.values.length
  weights : r.ids.length = r.weights.length

def encode [Identifier ι] [Attribute α] (r : Record ι α) : Encoding :=
  .join [Identifier.encodeColumn r.ids, Attribute.encodeColumn r.values,
    Bytes.encodeScalars .binary32 r.weights]

def rows (r : Record ι α) : List (WeightedRow ι α) := zipRows r.ids r.values r.weights

theorem encode_ne_nil [Identifier ι] [Attribute α] (r : Record ι α) : r.encode ≠ .ok [] := fun h =>
  Bytes.encodeScalars_ne_nil .binary32 r.weights (Encoding.eq_ok_nil_of_mem h (by simp))

end Record

variable {ι : Type}

/-- Whether an index has exactly the given rows: in one stable sort by value, with the running totals
of their weights. -/
structure Lists {α : Type} [Attribute α] (index : RangeIndex ι α) (name : String)
    (rows : List (WeightedRow ι α)) : Prop where
  name : index.name = name
  ids : index.ids = (Attribute.sortBy (·.value) rows).map (·.id)
  values : index.values = (Attribute.sortBy (·.value) rows).map (·.value)
  totals : index.totals = Running.totals ((Attribute.sortBy (·.value) rows).map (·.weight))

theorem lists_ofRows {α : Type} [Attribute α] (name : String) (stamp : Stamp)
    (rows : List (WeightedRow ι α)) : (ofRows name stamp rows).Lists name rows :=
  ⟨rfl, ids_ofRows name stamp rows, values_ofRows name stamp rows, totals_ofRows name stamp rows⟩

theorem reads_rows {α : Type} (ids : List ι) (values : List α) (weights : List Binary32) :
    Decoder.Reads (do
      if ids.length ≠ values.length ∨ ids.length ≠ weights.length then
        throw (.unequalColumns ids.length (max values.length weights.length))
      return zipRows ids values weights : Decoder (List (WeightedRow ι α))) fun rest rows =>
        rest = [] ∧ (Record.mk ids values weights).WellFormed ∧
          (Record.mk ids values weights).rows = rows := by
  by_cases h : (Record.mk ids values weights).WellFormed
  · rw [if_neg (not_or.2 ⟨not_not.2 h.values, not_not.2 h.weights⟩)]
    refine (Decoder.reads_pure _).congr fun rest rows => and_congr_right fun _ => ?_
    rw [and_iff_right h, eq_comm]
    rfl
  · have hne : ids.length ≠ values.length ∨ ids.length ≠ weights.length := by
      by_contra heq
      rw [not_or, not_not, not_not] at heq
      exact h ⟨heq.1, heq.2⟩
    rw [if_pos hne]
    exact (Decoder.reads_throw _).congr fun rest rows => by simp [h]

variable [Identifier ι] {t : ValueType}

theorem reads_rowsDecoder :
    Decoder.Reads (rowsDecoder : Decoder (List (WeightedRow ι t.Carrier)))
      (Decoder.through Record.WellFormed Record.encode Record.rows) := by
  refine (Decoder.reads_fields Identifier.reads_columnDecoder (Attribute.reads_columnDecoder t)
    (Decoder.reads_scalars .binary32) reads_rows).congr fun bytes rows => ?_
  constructor
  · rintro ⟨ids, values, weights, hbytes, hr, rfl⟩
    exact ⟨⟨ids, values, weights⟩, hr, hbytes, rfl⟩
  · rintro ⟨r, hr, hbytes, rfl⟩
    exact ⟨r.ids, r.values, r.weights, hbytes, hr, rfl⟩

variable {bytes : List UInt8}

theorem deserialize_of_records (name : String) (stamp : Stamp) {records : List (Record ι t.Carrier)}
    (h : ∀ r ∈ records, r.WellFormed)
    (hbytes : Encoding.join (records.map Record.encode) = .ok bytes) :
    deserialize name stamp bytes = .ok (ofRows name stamp (records.flatMap Record.rows)) := by
  have hrecords := (Decoder.records_eq_iff reads_rowsDecoder Record.encode_ne_nil).2
    ⟨records, h, hbytes, rfl⟩
  rw [deserialize, Decoder.allRecords, hrecords]
  rfl

theorem exists_records_of_deserialize {name : String} {stamp : Stamp}
    {index : RangeIndex ι t.Carrier} (h : deserialize name stamp bytes = .ok index) :
    ∃ records : List (Record ι t.Carrier), (∀ r ∈ records, r.WellFormed) ∧
      Encoding.join (records.map Record.encode) = .ok bytes ∧
      index = ofRows name stamp (records.flatMap Record.rows) := by
  rw [deserialize, Decoder.allRecords] at h
  cases hrecords : Decoder.records (rowsDecoder : Decoder (List (WeightedRow ι t.Carrier))) bytes with
  | mk rows fault? =>
    rw [hrecords] at h
    cases fault? with
    | some fault => cases h
    | none =>
      obtain ⟨records, hwellFormed, hbytes, rfl⟩ :=
        (Decoder.records_eq_iff reads_rowsDecoder Record.encode_ne_nil).1 hrecords
      exact ⟨records, hwellFormed, hbytes, (Except.ok.inj h).symm⟩

end RangeIndex

namespace HashRangeIndex

structure Record (ι α : Type) where
  key : ι
  columns : RangeIndex.Record ι α

namespace Record

variable {ι α : Type} [Identifier ι] [Attribute α]

def encode (r : Record ι α) : Encoding := .join [.ok (encodeKey r.key), r.columns.encode]

def entry (name : String) (operation : Nat) (r : Record ι α) : ι × RangeIndex ι α :=
  (r.key, .ofRows (rangeName name r.key) (stampOf operation r.key) r.columns.rows)

theorem encode_ne_nil (r : Record ι α) : r.encode ≠ .ok [] := fun h =>
  r.columns.encode_ne_nil (Encoding.eq_ok_nil_of_mem h (by simp))

end Record

theorem get?_put {ι α : Type} [Identifier ι] {index : HashRangeIndex ι α} {key k : ι}
    {range : RangeIndex ι α} :
    (index.put key range).get? k = if key = k then some range else index.get? k := by
  by_cases h : key = k
  · subst h
    rw [if_pos rfl]
    exact Keyed.get?_put_self _ _ _
  · rw [if_neg h]
    exact Keyed.get?_put_of_ne h _ _

variable {ι : Type} [Identifier ι] {t : ValueType}

theorem reads_recordDecoder :
    Decoder.Reads (recordDecoder : Decoder (ι × List (WeightedRow ι t.Carrier)))
      (Decoder.through (fun r : Record ι t.Carrier => r.columns.WellFormed) Record.encode
        fun r => (r.key, r.columns.rows)) := by
  refine ((Decoder.reads_scalar_encode (Identifier.scalar ι)).bind fun key =>
    RangeIndex.reads_rowsDecoder.make fun rows => Decoder.reads_pure _).congr fun bytes out => ?_
  constructor
  · rintro ⟨key, front, back, hkey, ⟨_, ⟨r, hr, hback, rfl⟩, rfl⟩, rfl⟩
    refine ⟨⟨Identifier.ofScalar key, r⟩, hr, ?_, rfl⟩
    refine Encoding.join_cons_eq_ok_iff.2 ⟨front, back, ?_, ?_, rfl⟩
    · rw [encodeKey, Identifier.toScalar_ofScalar]
      exact hkey
    · exact Encoding.join_cons_eq_ok_iff.2 ⟨back, [], hback, rfl, (List.append_nil back).symm⟩
  · rintro ⟨r, hr, hbytes, rfl⟩
    obtain ⟨front, _, hkey, hcolumns, rfl⟩ := Encoding.join_cons_eq_ok_iff.1 hbytes
    obtain ⟨back, _, hback, hnil, rfl⟩ := Encoding.join_cons_eq_ok_iff.1 hcolumns
    obtain rfl := Encoding.join_nil_eq_ok_iff.1 hnil
    refine ⟨Identifier.toScalar r.key, front, back ++ [], hkey,
      ⟨r.columns.rows, ⟨r.columns, hr, ?_, rfl⟩, ?_⟩, rfl⟩
    · rw [List.append_nil]
      exact hback
    · rw [Identifier.ofScalar_toScalar]

section Insert

variable {operation : Nat} {index out : HashRangeIndex ι t.Carrier}
  {records : List (Record ι t.Carrier)}

theorem ascending_empty (name : String) :
    Keyed.Ascending (empty name : HashRangeIndex ι t.Carrier).ranges := List.Pairwise.nil

theorem exists_insertRecords (hi : Keyed.Ascending index.ranges)
    (hnew : ∀ r ∈ records, index.get? r.key = none) (hkeys : (records.map Record.key).Nodup) :
    ∃ out, insertRecords operation index (records.map fun r => (r.key, r.columns.rows)) = .ok out ∧
      out.name = index.name ∧ Keyed.Ascending out.ranges ∧
      out.ranges.Perm (index.ranges ++ records.map (Record.entry index.name operation)) := by
  induction records generalizing index with
  | nil => exact ⟨index, rfl, rfl, hi, by rw [List.map_nil, List.append_nil]⟩
  | cons r records ih =>
    obtain ⟨hr, hnew⟩ := List.forall_mem_cons.1 hnew
    obtain ⟨hkey, hkeys⟩ := List.nodup_cons.1 hkeys
    have hnext : ∀ q ∈ records, (index.put r.key (r.entry index.name operation).2).get? q.key = none :=
      fun q hq => by
        have hne : r.key ≠ q.key := fun heq => hkey (List.mem_map.2 ⟨q, hq, heq.symm⟩)
        rw [get?_put, if_neg hne, hnew q hq]
    obtain ⟨out, hout, hname, hascending, hperm⟩ := ih (Keyed.ascending_put hi) hnext hkeys
    refine ⟨out, ?_, hname, hascending, hperm.trans ?_⟩
    · rw [List.map_cons, insertRecords, insert, hr]
      exact hout
    · have hput : (Keyed.put r.key (r.entry index.name operation).2 index.ranges).Perm
          (r.entry index.name operation :: index.ranges) := Keyed.perm_put hr
      exact (hput.append_right _).trans List.perm_middle.symm

theorem nodup_of_insertRecords
    (h : insertRecords operation index (records.map fun r => (r.key, r.columns.rows)) = .ok out) :
    (∀ r ∈ records, index.get? r.key = none) ∧ (records.map Record.key).Nodup := by
  induction records generalizing index with
  | nil => exact ⟨nofun, List.nodup_nil⟩
  | cons r records ih =>
    rw [List.map_cons, insertRecords, insert] at h
    cases hr : index.get? r.key with
    | some _ =>
      rw [hr] at h
      cases h
    | none =>
      rw [hr] at h
      obtain ⟨hnew, hkeys⟩ := ih h
      refine ⟨List.forall_mem_cons.2 ⟨hr, fun q hq => ?_⟩, List.nodup_cons.2 ⟨fun hmem => ?_, hkeys⟩⟩
      · have hq := hnew q hq
        rw [get?_put] at hq
        split at hq
        · cases hq
        · exact hq
      · obtain ⟨q, hq, hkey⟩ := List.mem_map.1 hmem
        have hq := hnew q hq
        rw [get?_put, if_pos hkey.symm] at hq
        cases hq

end Insert

variable {bytes : List UInt8}

theorem exists_deserialize_of_records (name : String) (operation : Nat)
    {records : List (Record ι t.Carrier)} (h : ∀ r ∈ records, r.columns.WellFormed)
    (hkeys : (records.map Record.key).Nodup)
    (hbytes : Encoding.join (records.map Record.encode) = .ok bytes) :
    ∃ index : HashRangeIndex ι t.Carrier, deserialize name operation bytes = .ok index ∧
      index.name = name ∧ Keyed.Ascending index.ranges ∧
      index.ranges.Perm (records.map (Record.entry name operation)) := by
  have hrecords := (Decoder.records_eq_iff reads_recordDecoder Record.encode_ne_nil).2
    ⟨records, h, hbytes, rfl⟩
  obtain ⟨index, hindex, hname, hascending, hperm⟩ :=
    exists_insertRecords (ascending_empty name) (fun _ _ => rfl) hkeys
  refine ⟨index, ?_, hname, hascending, hperm⟩
  rw [deserialize, hrecords]
  dsimp only
  rw [hindex]
  rfl

theorem exists_records_of_deserialize {name : String} {operation : Nat}
    {index : HashRangeIndex ι t.Carrier} (h : deserialize name operation bytes = .ok index) :
    ∃ records : List (Record ι t.Carrier), (∀ r ∈ records, r.columns.WellFormed) ∧
      (records.map Record.key).Nodup ∧ Encoding.join (records.map Record.encode) = .ok bytes := by
  rw [deserialize] at h
  cases hrecords : Decoder.records
      (recordDecoder : Decoder (ι × List (WeightedRow ι t.Carrier))) bytes with
  | mk read fault? =>
    rw [hrecords] at h
    dsimp only at h
    cases hout : insertRecords operation (empty name : HashRangeIndex ι t.Carrier) read with
    | error e =>
      rw [hout] at h
      cases h
    | ok out =>
      rw [hout] at h
      cases fault? with
      | some fault => cases h
      | none =>
        obtain ⟨records, hwellFormed, hbytes, rfl⟩ :=
          (Decoder.records_eq_iff reads_recordDecoder Record.encode_ne_nil).1 hrecords
        exact ⟨records, hwellFormed, (nodup_of_insertRecords hout).2, hbytes⟩

end HashRangeIndex

end WeightedStore
