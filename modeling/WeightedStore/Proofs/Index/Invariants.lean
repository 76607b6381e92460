import WeightedStore.Index.Basic
import WeightedStore.Proofs.Index.HashOrder
import WeightedStore.Proofs.Index.RangeSearch

/-!
What holds of every index of any kind, however it came about: the values of hash indexes and the keys
of hash-range indexes ascend, the rows of ranges stand in the order of their values, and buckets
passed the check of their columns.
-/

namespace WeightedStore

variable {ι α : Type} [Attribute α]

theorem RangeIndex.ordered_of_mergeAll {stamp : Stamp} {index merged : RangeIndex ι α}
    {others : List (RangeIndex ι α)} (h : index.mergeAll stamp others = .ok merged) :
    Ordered merged.values := by
  rw [eq_concat_of_mergeAll h]
  exact ordered_ofRows _ _ _

variable [Identifier ι]

theorem HashIndex.WellFormed.mergeInto {index other : HashIndex ι α} (h : index.WellFormed)
    (ho : other.WellFormed) : (index.mergeInto other).1.WellFormed := by
  by_cases hname : other.name = index.name
  · obtain ⟨merged, -, hmerged, htakes⟩ := exists_merge h ho hname
    rw [hmerged]
    exact htakes.wellFormed
  · rw [HashIndex.mergeInto, if_pos (Ne.symm hname)]
    exact h

namespace HashRangeIndex

structure WellFormed (index : HashRangeIndex ι α) : Prop where
  ascending : Keyed.Ascending index.ranges
  ordered : ∀ e ∈ index.ranges, RangeIndex.Ordered e.2.values

theorem wellFormed_empty (name : String) : (empty name : HashRangeIndex ι α).WellFormed :=
  ⟨List.Pairwise.nil, nofun⟩

namespace WellFormed

variable {index other out : HashRangeIndex ι α} {range : RangeIndex ι α}

theorem put (h : index.WellFormed) (key : ι) (hrange : RangeIndex.Ordered range.values) :
    (index.put key range).WellFormed :=
  ⟨Keyed.ascending_put h.ascending, fun e he => (Keyed.mem_put he).elim
    (fun heq => heq ▸ hrange) (h.ordered e)⟩

theorem insert {key : ι} (h : index.WellFormed) (hrange : RangeIndex.Ordered range.values)
    (hinsert : index.insert key range = .ok out) : out.WellFormed := by
  rw [HashRangeIndex.insert] at hinsert
  split at hinsert
  · cases hinsert
  · exact Except.ok.inj hinsert ▸ h.put key hrange

theorem add {operation : Nat} {key : ι} {ids : List ι} {values : List α} {weights : List Binary32}
    (h : index.WellFormed) (hadd : HashRangeIndex.add operation index key ids values weights = .ok out) :
    out.WellFormed := by
  rw [HashRangeIndex.add] at hadd
  split at hadd
  · cases hadd
  · obtain ⟨range, hbuild, hinsert⟩ := exists_of_bind_eq_ok hadd
    exact h.insert (RangeIndex.Reached.build hbuild).ordered hinsert

theorem insertRecords {operation : Nat} {records : List (ι × List (WeightedRow ι α))}
    (h : index.WellFormed) (hinsert : HashRangeIndex.insertRecords operation index records = .ok out) :
    out.WellFormed := by
  induction records generalizing index with
  | nil => exact Except.ok.inj hinsert ▸ h
  | cons record records ih =>
    obtain ⟨next, hnext, hrecords⟩ := exists_of_bind_eq_ok hinsert
    exact ih (h.insert (RangeIndex.ordered_ofRows _ _ _) hnext) hrecords

theorem deserialize {name : String} {operation : Nat} {bytes : List UInt8}
    (h : HashRangeIndex.deserialize name operation bytes = .ok index) : index.WellFormed := by
  rw [HashRangeIndex.deserialize] at h
  generalize Decoder.records (recordDecoder : Decoder (ι × List (WeightedRow ι α))) bytes = read at h
  obtain ⟨records, fault?⟩ := read
  obtain ⟨out, hinsert, hout⟩ := exists_of_bind_eq_ok h
  cases fault? with
  | some fault => cases hout
  | none => exact Except.ok.inj hout ▸ (wellFormed_empty name).insertRecords hinsert

theorem absorb (h : index.WellFormed) (operation : Nat) {e : ι × RangeIndex ι α}
    (he : RangeIndex.Ordered e.2.values) :
    (HashRangeIndex.absorb operation index e).1.WellFormed := by
  obtain ⟨key, range⟩ := e
  rw [HashRangeIndex.absorb]
  split
  · exact h.put key he
  · split
    · rename_i merged hmerged
      exact h.put key (RangeIndex.ordered_of_mergeAll hmerged)
    · exact h

theorem mergeInto (h : index.WellFormed) (ho : other.WellFormed) (operation : Nat) :
    (HashRangeIndex.mergeInto operation index other).1.WellFormed := by
  rw [HashRangeIndex.mergeInto]
  split
  · exact h
  · exact Steps.run_fst (p := HashRangeIndex.WellFormed)
      (q := fun e => RangeIndex.Ordered e.2.values) (fun _ _ hs he => hs.absorb operation he) h ho.ordered

end WellFormed

end HashRangeIndex

namespace Index

/-- The indexes that come about: new ones, what is added to such, built and read ones, and what is
merged of such. A merge that is refused leaves what it had merged before. -/
inductive Reached : Index ι α → Prop
  | empty (kind : IndexKind) (name : String) (operation : Nat) : Reached (.empty kind name operation)
  | addBucket {index added : HashIndex ι α} {value : α} {ids : List ι} {weights : List Binary32} :
      Reached (.hash index) → index.add value ids weights = .ok added → Reached (.hash added)
  | build {name : String} {stamp : Stamp} {ids : List ι} {values : List α}
      {weights : List Binary32} {index : RangeIndex ι α} :
      RangeIndex.build name stamp ids values weights = .ok index → Reached (.range index)
  | addRange {operation : Nat} {index added : HashRangeIndex ι α} {key : ι} {ids : List ι}
      {values : List α} {weights : List Binary32} :
      Reached (.hashRange index) →
      HashRangeIndex.add operation index key ids values weights = .ok added →
      Reached (.hashRange added)
  | deserialize {kind : IndexKind} {name : String} {operation : Nat} {bytes : List UInt8}
      {index : Index ι α} : deserialize kind name operation bytes = .ok index → Reached index
  | mergeInto {operation : Nat} {index other : Index ι α} :
      Reached index → Reached other → Reached (mergeInto operation index other).1
  | mergeAll {operation : Nat} {index : Index ι α} {others : List (Index ι α)} :
      Reached index → (∀ other ∈ others, Reached other) →
      Reached (mergeAll operation index others).1

def WellFormed : Index ι α → Prop
  | hash index => index.WellFormed
  | range index => RangeIndex.Ordered index.values
  | hashRange index => index.WellFormed

variable {index other : Index ι α}

theorem wellFormed_empty (kind : IndexKind) (name : String) (operation : Nat) :
    (empty kind name operation : Index ι α).WellFormed := by
  cases kind with
  | hash => exact HashIndex.wellFormed_empty name
  | range => exact List.Pairwise.nil
  | hashRange => exact HashRangeIndex.wellFormed_empty name

theorem wellFormed_of_deserialize {kind : IndexKind} {name : String} {operation : Nat}
    {bytes : List UInt8} (h : deserialize kind name operation bytes = .ok index) :
    index.WellFormed := by
  cases kind with
  | hash =>
    obtain ⟨i, hi, rfl⟩ := exists_of_map_eq_ok h
    exact (HashIndex.Reached.deserialize hi).wellFormed
  | range =>
    obtain ⟨i, hi, rfl⟩ := exists_of_map_eq_ok h
    exact (RangeIndex.Reached.deserialize hi).ordered
  | hashRange =>
    obtain ⟨i, hi, rfl⟩ := exists_of_map_eq_ok h
    exact HashRangeIndex.WellFormed.deserialize hi

theorem WellFormed.mergeInto (h : index.WellFormed) (ho : other.WellFormed) (operation : Nat) :
    (mergeInto operation index other).1.WellFormed := by
  cases index with
  | hash a =>
    cases other with
    | hash b => exact HashIndex.WellFormed.mergeInto h ho
    | range b => exact h
    | hashRange b => exact h
  | range a =>
    cases other with
    | hash b => exact h
    | range b =>
      rw [Index.mergeInto]
      split
      · rename_i merged hmerged
        exact RangeIndex.ordered_of_mergeAll hmerged
      · exact h
    | hashRange b => exact h
  | hashRange a =>
    cases other with
    | hash b => exact h
    | range b => exact h
    | hashRange b => exact HashRangeIndex.WellFormed.mergeInto h ho operation

theorem WellFormed.mergeAll (h : index.WellFormed) {others : List (Index ι α)}
    (ho : ∀ other ∈ others, other.WellFormed) (operation : Nat) :
    (mergeAll operation index others).1.WellFormed := by
  have heach : (Index.mergeEach operation index others).1.WellFormed :=
    Steps.run_fst (p := WellFormed) (fun _ _ hs hx => hs.mergeInto hx operation) h ho
  cases index with
  | hash _ => exact heach
  | hashRange _ => exact heach
  | range a =>
    cases hranges : others.mapM asRange? with
    | none =>
      simp only [Index.mergeAll, hranges]
      exact heach
    | some ranges =>
      simp only [Index.mergeAll, hranges]
      split
      · rename_i merged hmerged
        exact RangeIndex.ordered_of_mergeAll hmerged
      · exact h

theorem Reached.wellFormed (h : index.Reached) : index.WellFormed := by
  induction h with
  | empty kind name operation => exact wellFormed_empty kind name operation
  | addBucket _ hadd ih => exact HashIndex.WellFormed.add ih hadd
  | build hbuild => exact (RangeIndex.Reached.build hbuild).ordered
  | addRange _ hadd ih => exact HashRangeIndex.WellFormed.add ih hadd
  | deserialize h => exact wellFormed_of_deserialize h
  | @mergeInto operation _ _ _ _ ih ihother => exact WellFormed.mergeInto ih ihother operation
  | @mergeAll operation _ _ _ _ ih ihothers => exact WellFormed.mergeAll ih ihothers operation

end Index

end WeightedStore
