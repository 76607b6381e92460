import WeightedStore.Proofs.Index.Invariants
import WeightedStore.Proofs.Index.Records

/-!
The segments that indexes are stored in. Bytes are read as an index if and only if they are the
records of a well-formed segment of its kind, and then the index holds the rows of those records and
no others. All else is refused.
-/

namespace WeightedStore

/-- The records that a segment consists of, by the kind of index. -/
inductive Segment (ι α : Type)
  | hash (records : List (HashIndex.Record ι α))
  | range (records : List (RangeIndex.Record ι α))
  | hashRange (records : List (HashRangeIndex.Record ι α))

namespace Segment

variable {ι α : Type}

def kind : Segment ι α → IndexKind
  | hash _ => .hash
  | range _ => .range
  | hashRange _ => .hashRange

/-- Whether the columns of each record are equally long. The weights of a bucket must be weights, and
the keys of ranges must differ. -/
def WellFormed : Segment ι α → Prop
  | hash records => ∀ r ∈ records, r.WellFormed
  | range records => ∀ r ∈ records, r.WellFormed
  | hashRange records => (∀ r ∈ records, r.columns.WellFormed) ∧ (records.map (·.key)).Nodup

variable [Identifier ι] [Attribute α]

def encode : Segment ι α → Encoding
  | hash records => .join (records.map HashIndex.Record.encode)
  | range records => .join (records.map RangeIndex.Record.encode)
  | hashRange records => .join (records.map HashRangeIndex.Record.encode)

/-- Whether an index holds the rows of the records and no others. Buckets of one value are joined in
the order of the records. -/
def Fills (name : String) : Segment ι α → Index ι α → Prop
  | hash records, .hash index =>
    (HashIndex.empty name).TakesIn (records.map HashIndex.Record.entry) index
  | range records, .range index => index.Lists name (records.flatMap RangeIndex.Record.rows)
  | hashRange records, .hashRange index =>
    index.name = name ∧ Keyed.Ascending index.ranges ∧
      (∀ key, (index.get? key).isSome = true ↔ key ∈ records.map (·.key)) ∧
      ∀ r ∈ records, ∃ range, index.get? r.key = some range ∧
        range.Lists (HashRangeIndex.rangeName name r.key) r.columns.rows
  | _, _ => False

end Segment

namespace Index

variable {ι : Type} [Identifier ι] {t : ValueType}

theorem exists_deserialize_of_encode {s : Segment ι t.Carrier} (hs : s.WellFormed)
    {bytes : List UInt8} (hbytes : s.encode = .ok bytes) (name : String) (operation : Nat) :
    ∃ index, deserialize s.kind name operation bytes = .ok index ∧ s.Fills name index := by
  cases s with
  | hash records =>
    obtain ⟨index, hindex, htakes⟩ := HashIndex.exists_deserialize_of_records name hs hbytes
    exact ⟨.hash index, by rw [Segment.kind, deserialize, hindex]; rfl, htakes⟩
  | range records =>
    have hindex := RangeIndex.deserialize_of_records name ⟨operation, 0⟩ hs hbytes
    exact ⟨.range _, by rw [Segment.kind, deserialize, hindex]; rfl, RangeIndex.lists_ofRows _ _ _⟩
  | hashRange records =>
    obtain ⟨hwellFormed, hkeys⟩ := hs
    obtain ⟨index, hindex, hname, hascending, hperm⟩ :=
      HashRangeIndex.exists_deserialize_of_records name operation hwellFormed hkeys hbytes
    refine ⟨.hashRange index, by rw [Segment.kind, deserialize, hindex]; rfl, hname, hascending,
      fun key => ?_, fun r hr => ?_⟩
    · rw [HashRangeIndex.get?, Keyed.isSome_get?_iff, (hperm.map Prod.fst).mem_iff, List.map_map]
      rfl
    · refine ⟨_, hascending.get?_eq_some_iff.2 (hperm.mem_iff.2 (List.mem_map_of_mem hr)), ?_⟩
      exact RangeIndex.lists_ofRows _ _ _

theorem exists_encode_of_deserialize {kind : IndexKind} {name : String} {operation : Nat}
    {bytes : List UInt8} {index : Index ι t.Carrier}
    (h : deserialize kind name operation bytes = .ok index) :
    ∃ s : Segment ι t.Carrier, s.kind = kind ∧ s.WellFormed ∧ s.encode = .ok bytes := by
  cases kind with
  | hash =>
    obtain ⟨i, hi, -⟩ := exists_of_map_eq_ok h
    obtain ⟨records, hs, hbytes, -⟩ := HashIndex.exists_records_of_deserialize hi
    exact ⟨.hash records, rfl, hs, hbytes⟩
  | range =>
    obtain ⟨i, hi, -⟩ := exists_of_map_eq_ok h
    obtain ⟨records, hs, hbytes, -⟩ := RangeIndex.exists_records_of_deserialize hi
    exact ⟨.range records, rfl, hs, hbytes⟩
  | hashRange =>
    obtain ⟨i, hi, -⟩ := exists_of_map_eq_ok h
    obtain ⟨records, hs, hkeys, hbytes⟩ := HashRangeIndex.exists_records_of_deserialize hi
    exact ⟨.hashRange records, rfl, ⟨hs, hkeys⟩, hbytes⟩

/-- Bytes are read as an index if they are the records of a well-formed segment of its kind, and the
index then holds the rows of those records. All other bytes are refused. -/
theorem deserialize_iff_segment (kind : IndexKind) (name : String) (operation : Nat)
    (bytes : List UInt8) :
    ((∃ index : Index ι t.Carrier, deserialize kind name operation bytes = .ok index) ↔
      ∃ s : Segment ι t.Carrier, s.kind = kind ∧ s.WellFormed ∧ s.encode = .ok bytes) ∧
    ((∃ e, (deserialize kind name operation bytes : Except StoreError (Index ι t.Carrier)) =
        .error e) ↔
      ¬∃ s : Segment ι t.Carrier, s.kind = kind ∧ s.WellFormed ∧ s.encode = .ok bytes) ∧
    ∀ s : Segment ι t.Carrier, s.kind = kind → s.WellFormed → s.encode = .ok bytes →
      ∃ index, deserialize kind name operation bytes = .ok index ∧ s.Fills name index := by
  have hread (s : Segment ι t.Carrier) (hkind : s.kind = kind) (hs : s.WellFormed)
      (hbytes : s.encode = .ok bytes) :
      ∃ index, deserialize kind name operation bytes = .ok index ∧ s.Fills name index :=
    hkind ▸ exists_deserialize_of_encode hs hbytes name operation
  have haccepted : (∃ index : Index ι t.Carrier, deserialize kind name operation bytes = .ok index) ↔
      ∃ s : Segment ι t.Carrier, s.kind = kind ∧ s.WellFormed ∧ s.encode = .ok bytes := by
    constructor
    · rintro ⟨index, hindex⟩
      exact exists_encode_of_deserialize hindex
    · rintro ⟨s, hkind, hs, hbytes⟩
      obtain ⟨index, hindex, -⟩ := hread s hkind hs hbytes
      exact ⟨index, hindex⟩
  refine ⟨haccepted, ?_, hread⟩
  rw [← haccepted]
  cases (deserialize kind name operation bytes : Except StoreError (Index ι t.Carrier)) <;> simp

theorem deserialize_iff_segment_repeated_value :
    let one : Binary32 := .ofWord false 0x3f800000
    let s : Segment UInt32 ValueType.string.Carrier :=
      .hash [⟨"k", [3], [one]⟩, ⟨"k", [1, 3], [.zero, .zero]⟩]
    let bytes : List UInt8 :=
      [1, 0, 0, 0, 107, 1, 0, 0, 0, 3, 0, 0, 0, 1, 0, 0, 0, 0, 0, 128, 63,
        1, 0, 0, 0, 107, 2, 0, 0, 0, 1, 0, 0, 0, 3, 0, 0, 0, 2, 0, 0, 0, 0, 0, 0, 0, 0, 0, 0, 0]
    s.kind = .hash ∧ s.WellFormed ∧ s.encode = .ok bytes ∧
      ∃ index : HashIndex UInt32 ValueType.string.Carrier,
        deserialize .hash "h" 0 bytes = .ok (.hash index) ∧
        index.get? "k" = some (.ofWeighted [(1, .zero), (3, one)]) := by
  intro one s bytes
  have hs : s.WellFormed := List.forall_mem_cons.2 ⟨⟨rfl, by decide⟩,
    List.forall_mem_singleton.2 ⟨rfl, by decide⟩⟩
  have hbytes : s.encode = .ok bytes := by decide +kernel
  obtain ⟨index, hindex, hfills⟩ := (deserialize_iff_segment .hash "h" 0 bytes).2.2 s rfl hs hbytes
  cases index with
  | hash index =>
    have hpairs : HashIndex.byId [((3 : UInt32), one), (1, .zero), (3, .zero)] =
        [(1, .zero), (3, one)] := by cbv
    have hjoined : HashIndex.joined [Pool.ofWeighted [((3 : UInt32), one)],
        .ofWeighted [(1, .zero), (3, .zero)]] = some (.ofWeighted [(1, .zero), (3, one)]) :=
      congrArg (fun pairs => some (Pool.ofWeighted pairs)) hpairs
    exact ⟨rfl, hs, hbytes, index, hindex, (hfills.get? "k").trans hjoined⟩
  | range _ => cases hfills
  | hashRange _ => cases hfills

end Index

end WeightedStore
