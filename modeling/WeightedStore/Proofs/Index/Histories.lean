import WeightedStore.Proofs.Index.Contributions

/-!
Histories of hash-range indexes. Every such index that comes about has contributions, which it holds:
those of its own rows and records, and those of the indexes that were merged in under its name.
-/

namespace WeightedStore

namespace HashRangeIndex

section Gathered

variable {ι : Type} [Identifier ι] {t : ValueType}

/-- The hash-range indexes that come about, each with all that was contributed to it: the rows that
were added and those in the records that were read, and what was contributed to indexes that were merged
in, if they had the same name. -/
inductive Gathered : HashRangeIndex ι t.Carrier → List (Contribution ι t.Carrier) → Prop
  | empty (name : String) : Gathered (.empty name) []
  | add {operation : Nat} {index added : HashRangeIndex ι t.Carrier} {key : ι} {ids : List ι}
      {values : List t.Carrier} {weights : List Binary32} {cs : List (Contribution ι t.Carrier)} :
      Gathered index cs → add operation index key ids values weights = .ok added →
      Gathered added (cs ++ [(key, ids.zip values)])
  | deserialize {name : String} {operation : Nat} {bytes : List UInt8}
      {records : List (Record ι t.Carrier)} {index : HashRangeIndex ι t.Carrier} :
      (∀ r ∈ records, r.columns.WellFormed) →
      Encoding.join (records.map Record.encode) = .ok bytes →
      deserialize name operation bytes = .ok index →
      Gathered index (records.map Record.contribution)
  | mergeInto {operation : Nat} {index other : HashRangeIndex ι t.Carrier}
      {cs ds : List (Contribution ι t.Carrier)} :
      Gathered index cs → Gathered other ds →
      Gathered (mergeInto operation index other).1 (if other.name = index.name then cs ++ ds else cs)
  | mergeAll {operation : Nat} {index merged : HashRangeIndex ι t.Carrier}
      {refused : Option StoreError} {cs : List (Contribution ι t.Carrier)}
      {parts : List (HashRangeIndex ι t.Carrier × List (Contribution ι t.Carrier))} :
      Gathered index cs → (∀ part ∈ parts, Gathered part.1 part.2) →
      Index.mergeAll operation (.hashRange index) ((parts.map Prod.fst).map .hashRange) =
        (.hashRange merged, refused) →
      Gathered merged (cs ++ mergedContributions index.name parts)

variable {index other : HashRangeIndex ι t.Carrier} {cs ds : List (Contribution ι t.Carrier)}

theorem holds_deserialize {name : String} {operation : Nat} {bytes : List UInt8}
    {records : List (Record ι t.Carrier)} (hrecords : ∀ r ∈ records, r.columns.WellFormed)
    (hbytes : Encoding.join (records.map Record.encode) = .ok bytes)
    (h : deserialize name operation bytes = .ok index) :
    index.Holds (records.map Record.contribution) := by
  have hread := (Decoder.records_eq_iff reads_recordDecoder Record.encode_ne_nil).2
    ⟨records, hrecords, hbytes, rfl⟩
  rw [deserialize, hread] at h
  obtain ⟨out, hinsert, hout⟩ := exists_of_bind_eq_ok h
  obtain rfl := Except.ok.inj hout
  exact (holds_empty name).insertRecords hrecords hinsert

theorem Gathered.holds (h : index.Gathered cs) : index.Holds cs := by
  induction h with
  | empty name => exact holds_empty name
  | add _ hadd ih => exact ih.add hadd
  | deserialize hrecords hbytes hread => exact holds_deserialize hrecords hbytes hread
  | @mergeInto operation index other cs ds _ _ ih ihother =>
    by_cases hname : other.name = index.name
    · obtain ⟨merged, hmerged, -, hholds, -⟩ := ih.exists_mergeInto ihother hname operation
      rw [hmerged, if_pos hname]
      exact hholds
    · rw [HashRangeIndex.mergeInto, if_pos (Ne.symm hname), if_neg hname]
      exact ih
  | @mergeAll operation index merged refused cs parts _ _ hmerged ih ihparts =>
    have hholds := ih.mergeEach ihparts operation
    rw [mergeAll_hashRange] at hmerged
    obtain rfl := Index.hashRange.inj (congrArg Prod.fst hmerged)
    exact hholds

end Gathered

end HashRangeIndex

namespace Index

variable {ι : Type} [Identifier ι] {t : ValueType} {index other : Index ι t.Carrier}

def Traced : Index ι t.Carrier → Prop
  | hashRange index => ∃ cs, index.Gathered cs
  | _ => True

theorem traced_of_deserialize {kind : IndexKind} {name : String} {operation : Nat}
    {bytes : List UInt8} (h : deserialize kind name operation bytes = .ok index) : index.Traced := by
  cases kind with
  | hash =>
    obtain ⟨i, -, rfl⟩ := exists_of_map_eq_ok h
    trivial
  | range =>
    obtain ⟨i, -, rfl⟩ := exists_of_map_eq_ok h
    trivial
  | hashRange =>
    obtain ⟨i, hi, rfl⟩ := exists_of_map_eq_ok h
    obtain ⟨records, hrecords, -, hbytes⟩ := HashRangeIndex.exists_records_of_deserialize hi
    exact ⟨_, .deserialize hrecords hbytes hi⟩

theorem Traced.mergeInto (h : index.Traced) (ho : other.Traced) (operation : Nat) :
    (mergeInto operation index other).1.Traced := by
  cases index with
  | hash a => cases other <;> trivial
  | range a =>
    cases other with
    | hash b => trivial
    | range b =>
      rw [Index.mergeInto]
      split <;> trivial
    | hashRange b => trivial
  | hashRange a =>
    cases other with
    | hash b => exact h
    | range b => exact h
    | hashRange b =>
      obtain ⟨cs, hcs⟩ := h
      obtain ⟨ds, hds⟩ := ho
      exact ⟨_, .mergeInto hcs hds⟩

theorem Traced.mergeAll (h : index.Traced) {others : List (Index ι t.Carrier)}
    (ho : ∀ other ∈ others, other.Traced) (operation : Nat) :
    (mergeAll operation index others).1.Traced := by
  have heach : (Index.mergeEach operation index others).1.Traced :=
    Steps.run_fst (p := Traced) (fun _ _ hs hx => hs.mergeInto hx operation) h ho
  cases index with
  | hash _ => exact heach
  | hashRange _ => exact heach
  | range a =>
    cases hranges : others.mapM asRange? with
    | none =>
      simp only [Index.mergeAll, hranges]
      exact heach
    | some ranges =>
      simp only [Index.mergeAll, hranges]
      split <;> trivial

theorem Reached.traced (h : index.Reached) : index.Traced := by
  induction h with
  | empty kind name operation =>
    cases kind with
    | hash => trivial
    | range => trivial
    | hashRange => exact ⟨[], .empty name⟩
  | addBucket => trivial
  | build => trivial
  | addRange _ hadd ih =>
    obtain ⟨cs, hcs⟩ := ih
    exact ⟨_, .add hcs hadd⟩
  | deserialize h => exact traced_of_deserialize h
  | @mergeInto operation _ _ _ _ ih ihother => exact ih.mergeInto ihother operation
  | @mergeAll operation _ _ _ _ ih ihothers => exact ih.mergeAll ihothers operation

end Index

end WeightedStore
