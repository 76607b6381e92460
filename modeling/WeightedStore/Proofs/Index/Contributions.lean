import WeightedStore.Proofs.Index.Invariants
import WeightedStore.Proofs.Index.Records

/-!
What is contributed to the keys of a hash-range index. Whatever comes in, by rows that are added, by
records that are read or by other indexes that are merged in, a key has a range exactly if something was
contributed to it. This range has the name that belongs to the key, and the rows contributed to the key
alone, in one stable sort by value. As the names agree, no merge under one name is refused.
-/

namespace WeightedStore

namespace RangeIndex

variable {ι α : Type} [Attribute α]

theorem columns_of_build {name : String} {stamp : Stamp} {ids : List ι} {values : List α}
    {weights : List Binary32} {index : RangeIndex ι α}
    (h : build name stamp ids values weights = .ok index) :
    index.name = name ∧ index.columns = Attribute.sortBy Prod.snd (ids.zip values) := by
  obtain ⟨⟨hvalues, hweights⟩, -, rfl⟩ := build_eq_ok_iff.1 h
  refine ⟨rfl, ?_⟩
  rw [columns_ofRows, columns_zipRows (by omega)]

theorem Record.WellFormed.columns_ofRows {r : Record ι α} (h : r.WellFormed) (name : String)
    (stamp : Stamp) :
    (ofRows name stamp r.rows).columns = Attribute.sortBy Prod.snd (r.ids.zip r.values) := by
  have hvalues := h.values
  have hweights := h.weights
  rw [RangeIndex.columns_ofRows, Record.rows, columns_zipRows (by omega)]

end RangeIndex

namespace HashRangeIndex

variable {ι α : Type} [Identifier ι] [Attribute α]

section TakesIn

def joined (stamp : Stamp) :
    Option (RangeIndex ι α) → Option (RangeIndex ι α) → Option (RangeIndex ι α)
  | none, range? => range?
  | some present, none => some present
  | some present, some range => some (present.concat stamp [range])

structure TakesIn (operation : Nat) (index : HashRangeIndex ι α) (entries : List (ι × RangeIndex ι α))
    (taken : HashRangeIndex ι α) : Prop where
  name : taken.name = index.name
  ascending : Keyed.Ascending taken.ranges
  get? : ∀ key, taken.get? key =
    joined (stampOf operation key) (index.get? key) (Keyed.get? key entries)

variable {operation : Nat} {index taken taken' : HashRangeIndex ι α} {key : ι}
  {range : RangeIndex ι α} {entries entries' : List (ι × RangeIndex ι α)}

theorem exists_absorb (operation : Nat)
    (hname : ∀ present, index.get? key = some present → range.name = present.name) :
    ∃ laid, absorb operation index (key, range) = (index.put key laid, none) ∧
      joined (stampOf operation key) (index.get? key) (some range) = some laid := by
  rw [absorb]
  cases hget : index.get? key with
  | none => exact ⟨range, rfl, rfl⟩
  | some present =>
    have hmerge := RangeIndex.mergeAll_eq_ok (List.forall_mem_singleton.2 (hname present hget))
      (stampOf operation key)
    refine ⟨present.concat (stampOf operation key) [range], ?_, rfl⟩
    dsimp only
    rw [RangeIndex.merge, hmerge]

theorem exists_absorbAll (operation : Nat) (hi : Keyed.Ascending index.ranges)
    (hkeys : (entries.map Prod.fst).Nodup)
    (hnames : ∀ e ∈ entries, ∀ present, index.get? e.1 = some present → e.2.name = present.name) :
    ∃ taken, Steps.run (absorb operation) index entries = (taken, none) ∧
      index.TakesIn operation entries taken := by
  induction entries generalizing index with
  | nil =>
    refine ⟨index, rfl, rfl, hi, fun key => ?_⟩
    cases index.get? key <;> rfl
  | cons e entries ih =>
    obtain ⟨key, range⟩ := e
    obtain ⟨hnew, hkeys⟩ := List.nodup_cons.1 hkeys
    obtain ⟨hname, hnames⟩ := List.forall_mem_cons.1 hnames
    obtain ⟨laid, habsorb, hlaid⟩ := exists_absorb operation hname
    -- the other keys still have the ranges they had
    have hrest : ∀ e ∈ entries, ∀ present, (index.put key laid).get? e.1 = some present →
        e.2.name = present.name := fun e he => by
      have hother : key ≠ e.1 := by
        rintro rfl
        exact hnew (List.mem_map.2 ⟨_, he, rfl⟩)
      rw [get?_put, if_neg hother]
      exact hnames e he
    obtain ⟨taken, htaken, htakes⟩ := ih (Keyed.ascending_put hi) hkeys hrest
    refine ⟨taken, ?_, htakes.name, htakes.ascending, fun k => ?_⟩
    · rw [Steps.run, habsorb]
      exact htaken
    · rw [htakes.get?]
      by_cases hk : key = k
      · subst hk
        have hnone : Keyed.get? key entries = none := Keyed.get?_eq_none_iff.2 hnew
        rw [get?_put, if_pos rfl, hnone, Keyed.get?_cons_self, hlaid]
        rfl
      · rw [get?_put, if_neg hk, Keyed.get?_cons_of_ne hk]

theorem TakesIn.eq_of_perm (h : index.TakesIn operation entries taken)
    (h' : index.TakesIn operation entries' taken') (hkeys : (entries.map Prod.fst).Nodup)
    (hperm : entries'.Perm entries) : taken' = taken := by
  have hranges : taken'.ranges = taken.ranges :=
    h'.ascending.eq_of_get?_eq h.ascending fun key => by
      have hget := h.get? key
      rw [← Keyed.get?_eq_of_perm hkeys hperm, ← h'.get?] at hget
      exact hget.symm
  obtain ⟨name, ranges⟩ := taken
  obtain ⟨name', ranges'⟩ := taken'
  obtain rfl : ranges' = ranges := hranges
  obtain rfl : name' = name := h'.name.trans h.name.symm
  rfl

end TakesIn

section Holds

abbrev Contribution (ι α : Type) := ι × List (ι × α)

/-- The lists of rows that were contributed to a key, in the order of the contributions. -/
def contributed (key : ι) (cs : List (Contribution ι α)) : List (List (ι × α)) :=
  (Attribute.run Prod.fst key cs).map Prod.snd

omit [Attribute α] in
theorem contributed_append (key : ι) (cs ds : List (Contribution ι α)) :
    contributed key (cs ++ ds) = contributed key cs ++ contributed key ds := by
  rw [contributed, Attribute.run_append, List.map_append]
  rfl

def Keeps (name : String) (key : ι) (rows : List (List (ι × α))) : Option (RangeIndex ι α) → Prop
  | none => rows = []
  | some range => rows ≠ [] ∧ range.name = rangeName name key ∧
      range.columns = Attribute.sortBy Prod.snd rows.flatten

structure Holds (index : HashRangeIndex ι α) (cs : List (Contribution ι α)) : Prop where
  ascending : Keyed.Ascending index.ranges
  keeps : ∀ key, Keeps index.name key (contributed key cs) (index.get? key)

variable {name : String} {key : ι} {rows rows' : List (List (ι × α))}
  {range? range?' : Option (RangeIndex ι α)} {index other : HashRangeIndex ι α}
  {range : RangeIndex ι α} {cs ds : List (Contribution ι α)} {operation : Nat}

theorem Keeps.joined (h : Keeps name key rows range?) (h' : Keeps name key rows' range?')
    (stamp : Stamp) : Keeps name key (rows ++ rows') (joined stamp range? range?') := by
  cases range? with
  | none =>
    obtain rfl : rows = [] := h
    exact h'
  | some present =>
    obtain ⟨hne, hname, hcolumns⟩ := h
    cases range?' with
    | none =>
      obtain rfl : rows' = [] := h'
      rw [List.append_nil]
      exact ⟨hne, hname, hcolumns⟩
    | some range =>
      obtain ⟨-, -, hcolumns'⟩ := h'
      refine ⟨List.append_ne_nil_of_left_ne_nil hne _, hname, ?_⟩
      -- sorting sorted parts is sorting all of their rows at once
      rw [RangeIndex.columns_concat, List.flatMap_singleton, hcolumns, hcolumns',
        Attribute.sortBy_append_sorted, List.flatten_append]

theorem holds_empty (name : String) : (empty name : HashRangeIndex ι α).Holds [] :=
  ⟨List.Pairwise.nil, fun _ => rfl⟩

theorem Holds.insert (h : index.Holds cs) {rows : List (ι × α)} {out : HashRangeIndex ι α}
    (hname : range.name = rangeName index.name key)
    (hcolumns : range.columns = Attribute.sortBy Prod.snd rows)
    (hinsert : index.insert key range = .ok out) :
    out.name = index.name ∧ out.Holds (cs ++ [(key, rows)]) := by
  rw [HashRangeIndex.insert] at hinsert
  split at hinsert
  · cases hinsert
  · rename_i hnew
    obtain rfl := Except.ok.inj hinsert
    refine ⟨rfl, Keyed.ascending_put h.ascending, fun k => ?_⟩
    have hkeeps := h.keeps k
    rw [contributed_append]
    by_cases hk : key = k
    · subst hk
      rw [Option.isSome_iff_ne_none, not_not] at hnew
      rw [hnew] at hkeeps
      have hnil : contributed key cs = [] := hkeeps
      have hone : contributed key [(key, rows)] = [rows] := by simp [contributed, Attribute.run]
      rw [get?_put, if_pos rfl, hnil, hone]
      exact ⟨List.cons_ne_nil _ _, hname, by simpa using hcolumns⟩
    · have hnone : contributed k [(key, rows)] = [] := by simp [contributed, Attribute.run, hk]
      rw [get?_put, if_neg hk, hnone, List.append_nil]
      exact hkeeps

theorem Holds.exists_mergeInto (h : index.Holds cs) (ho : other.Holds ds)
    (hname : other.name = index.name) (operation : Nat) :
    ∃ merged, mergeInto operation index other = (merged, none) ∧ merged.name = index.name ∧
      merged.Holds (cs ++ ds) ∧
      ∀ entries, entries.Perm other.ranges →
        Steps.run (absorb operation) index entries = (merged, none) := by
  have hnames : ∀ e ∈ other.ranges, ∀ present, index.get? e.1 = some present →
      e.2.name = present.name := fun e he present hpresent => by
    have hkeeps := h.keeps e.1
    have hother := ho.keeps e.1
    have he : other.get? e.1 = some e.2 := ho.ascending.get?_eq_some_iff.2 he
    rw [hpresent] at hkeeps
    rw [he, hname] at hother
    -- both are named for the key under the one name
    exact hother.2.1.trans hkeeps.2.1.symm
  obtain ⟨merged, hmerged, htakes⟩ := exists_absorbAll operation h.ascending ho.ascending.nodup_keys hnames
  refine ⟨merged, ?_, htakes.name, ⟨htakes.ascending, fun key => ?_⟩, fun entries hperm => ?_⟩
  · rw [mergeInto, if_neg (by simp [hname])]
    exact hmerged
  · have hother := ho.keeps key
    rw [hname] at hother
    rw [htakes.name, htakes.get?, contributed_append]
    exact (h.keeps key).joined hother _
  · have hkeys : (entries.map Prod.fst).Nodup := (hperm.map Prod.fst).nodup_iff.2 ho.ascending.nodup_keys
    obtain ⟨merged', hmerged', htakes'⟩ := exists_absorbAll operation h.ascending hkeys
      fun e he => hnames e (hperm.mem_iff.1 he)
    rw [hmerged', htakes.eq_of_perm htakes' ho.ascending.nodup_keys hperm]

theorem Holds.add (h : index.Holds cs) {ids : List ι} {values : List α} {weights : List Binary32}
    {added : HashRangeIndex ι α}
    (hadd : HashRangeIndex.add operation index key ids values weights = .ok added) :
    added.Holds (cs ++ [(key, ids.zip values)]) := by
  rw [HashRangeIndex.add] at hadd
  split at hadd
  · cases hadd
  · obtain ⟨range, hbuild, hinsert⟩ := exists_of_bind_eq_ok hadd
    obtain ⟨hname, hcolumns⟩ := RangeIndex.columns_of_build hbuild
    exact (h.insert hname hcolumns hinsert).2

def Record.contribution (r : Record ι α) : Contribution ι α :=
  (r.key, r.columns.ids.zip r.columns.values)

theorem Holds.insertRecords (h : index.Holds cs) {records : List (Record ι α)}
    (hrecords : ∀ r ∈ records, r.columns.WellFormed) {out : HashRangeIndex ι α}
    (hinsert : insertRecords operation index (records.map fun r => (r.key, r.columns.rows)) =
      .ok out) : out.Holds (cs ++ records.map Record.contribution) := by
  induction records generalizing index cs with
  | nil =>
    obtain rfl := Except.ok.inj hinsert
    rw [List.map_nil, List.append_nil]
    exact h
  | cons r records ih =>
    obtain ⟨hr, hrecords⟩ := List.forall_mem_cons.1 hrecords
    obtain ⟨next, hnext, hinsert⟩ := exists_of_bind_eq_ok hinsert
    obtain ⟨-, hholds⟩ := h.insert rfl (hr.columns_ofRows _ _) hnext
    have hout := ih hholds hrecords hinsert
    rwa [List.append_assoc] at hout

/-- What comes in where others are merged in turn, up to the first of another name. -/
def mergedContributions (name : String)
    (parts : List (HashRangeIndex ι α × List (Contribution ι α))) : List (Contribution ι α) :=
  (parts.takeWhile fun part => part.1.name = name).flatMap Prod.snd

theorem Holds.mergeEach (h : index.Holds cs)
    {parts : List (HashRangeIndex ι α × List (Contribution ι α))}
    (hparts : ∀ part ∈ parts, part.1.Holds part.2) (operation : Nat) :
    (Steps.run (mergeInto operation) index (parts.map Prod.fst)).1.Holds
      (cs ++ mergedContributions index.name parts) := by
  rw [mergedContributions]
  induction parts generalizing index cs with
  | nil =>
    rw [List.takeWhile_nil, List.flatMap_nil, List.append_nil]
    exact h
  | cons part parts ih =>
    obtain ⟨hpart, hparts⟩ := List.forall_mem_cons.1 hparts
    rw [List.map_cons, Steps.run]
    by_cases hname : part.1.name = index.name
    · obtain ⟨merged, hmerged, hmergedName, hholds, -⟩ := h.exists_mergeInto hpart hname operation
      rw [hmerged, List.takeWhile_cons_of_pos (by simpa using hname), List.flatMap_cons,
        ← List.append_assoc, ← hmergedName]
      exact ih hholds hparts
    · rw [mergeInto, if_pos (Ne.symm hname), List.takeWhile_cons_of_neg (by simpa using hname),
        List.flatMap_nil, List.append_nil]
      exact h

theorem mergeAll_hashRange (operation : Nat) (index : HashRangeIndex ι α)
    (others : List (HashRangeIndex ι α)) :
    Index.mergeAll operation (.hashRange index) (others.map .hashRange) =
      (Steps.run (mergeInto operation) index others).map .hashRange id := by
  have heach : Index.mergeAll operation (.hashRange index) (others.map .hashRange) =
      Index.mergeEach operation (.hashRange index) (others.map .hashRange) := by
    rw [Index.mergeAll]
    intro a ranges hrange
    cases hrange
  have hstep (a b : HashRangeIndex ι α) : Index.mergeInto operation (.hashRange a) (.hashRange b) =
      (mergeInto operation a b).map .hashRange id := rfl
  rw [heach]
  exact Steps.run_map hstep index others

end Holds

end HashRangeIndex

end WeightedStore
