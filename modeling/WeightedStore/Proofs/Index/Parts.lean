import WeightedStore.Proofs.Index.HashMerge
import WeightedStore.Proofs.Index.Histories
import WeightedStore.Proofs.Index.RangeMerge

/-!
What an index holds of the parts that it is made of. Parts of one kind and name are merged without refusal,
and nothing is lost or added: rows stay rows, under their key where there are keys, and a value has the ids that
it has in some part. So it does not matter in which groups the parts are merged.
-/

namespace WeightedStore

theorem exists_map_of_forall {α β : Type} {f : α → β} {p : α → Prop} {ys : List β}
    (h : ∀ y ∈ ys, ∃ x, f x = y ∧ p x) : ∃ xs : List α, xs.map f = ys ∧ ∀ x ∈ xs, p x := by
  induction ys with
  | nil => exact ⟨[], rfl, nofun⟩
  | cons y ys ih =>
    obtain ⟨⟨x, rfl, hx⟩, hys⟩ := List.forall_mem_cons.1 h
    obtain ⟨xs, rfl, hxs⟩ := ih hys
    exact ⟨x :: xs, rfl, List.forall_mem_cons.2 ⟨hx, hxs⟩⟩

theorem exists_map_of_read {α β ε : Type} {f : α → β} {read : List UInt8 → Except ε α} {ys : List β}
    (h : ∀ y ∈ ys, ∃ bytes, f <$> read bytes = .ok y) :
    ∃ xs : List α, xs.map f = ys ∧ ∀ x ∈ xs, ∃ bytes, read bytes = .ok x := by
  refine exists_map_of_forall fun y hy => ?_
  obtain ⟨bytes, hread⟩ := h y hy
  obtain ⟨x, hx, rfl⟩ := exists_of_map_eq_ok hread
  exact ⟨x, rfl, bytes, hx⟩

namespace HashIndex

variable {ι α : Type} [Attribute α]

def idsAt (index : HashIndex ι α) (value : α) : List ι := ((index.get? value).map Pool.items).getD []

theorem mem_flatMap_idsAt {parts : List (HashIndex ι α)} {value : α} {id : ι} :
    id ∈ parts.flatMap (idsAt · value) ↔ ∃ bucket ∈ bucketsIn parts value, id ∈ bucket.items := by
  rw [bucketsIn, List.mem_flatMap]
  constructor
  · rintro ⟨part, hpart, hid⟩
    cases hget : part.get? value with
    | none =>
      rw [idsAt, hget] at hid
      cases hid
    | some bucket =>
      rw [idsAt, hget] at hid
      exact ⟨bucket, List.mem_filterMap.2 ⟨part, hpart, hget⟩, hid⟩
  · rintro ⟨bucket, hbucket, hid⟩
    obtain ⟨part, hpart, hget⟩ := List.mem_filterMap.1 hbucket
    refine ⟨part, hpart, ?_⟩
    rw [idsAt, hget]
    exact hid

theorem mem_idsAt_iff_of_joined {parts : List (HashIndex ι α)} [Identifier ι]
    (h : ∀ part ∈ parts, part.WellFormed) {merged : HashIndex ι α} {value : α}
    (hget : merged.get? value = joined (bucketsIn parts value)) {id : ι} :
    id ∈ merged.idsAt value ↔ id ∈ parts.flatMap (idsAt · value) := by
  rw [mem_flatMap_idsAt, idsAt, hget]
  cases hjoined : joined (bucketsIn parts value) with
  | none =>
    rw [joined_eq_none_iff.1 hjoined]
    exact iff_of_false List.not_mem_nil (fun ⟨_, hb, _⟩ => List.not_mem_nil hb)
  | some bucket => exact mem_items_of_joined (sound_of_mem_bucketsIn h) hjoined

end HashIndex

namespace HashRangeIndex

variable {ι α : Type} [Identifier ι] [Attribute α]

def rowsAt (index : HashRangeIndex ι α) (key : ι) : List (ι × α) :=
  ((index.get? key).map RangeIndex.columns).getD []

variable {index : HashRangeIndex ι α} {cs : List (Contribution ι α)} {key : ι}

theorem Holds.perm_rowsAt (h : index.Holds cs) (key : ι) :
    (index.rowsAt key).Perm (contributed key cs).flatten := by
  have hkeeps := h.keeps key
  unfold rowsAt
  cases hget : index.get? key with
  | none =>
    rw [hget] at hkeeps
    have hnone : contributed key cs = [] := hkeeps
    rw [hnone]
    exact .nil
  | some range =>
    rw [hget] at hkeeps
    show range.columns.Perm _
    rw [hkeeps.2.2]
    exact List.mergeSort_perm _ _

theorem Holds.mem_keys_iff (h : index.Holds cs) :
    key ∈ index.ranges.map Prod.fst ↔ contributed key cs ≠ [] := by
  have hkeeps := h.keeps key
  rw [← Keyed.isSome_get?_iff]
  show (index.get? key).isSome = true ↔ _
  cases hget : index.get? key with
  | none =>
    rw [hget] at hkeeps
    have hnone : contributed key cs = [] := hkeeps
    rw [hnone]
    exact iff_of_false Bool.false_ne_true fun hne => hne rfl
  | some range =>
    rw [hget] at hkeeps
    exact iff_of_true rfl hkeeps.1

omit [Attribute α] in
theorem contributed_flatMap {β : Type} (key : ι) (f : β → List (Contribution ι α)) (xs : List β) :
    contributed key (xs.flatMap f) = xs.flatMap fun x => contributed key (f x) := by
  induction xs with
  | nil => rfl
  | cons x xs ih => rw [List.flatMap_cons, List.flatMap_cons, contributed_append, ih]

theorem Holds.exists_mergeEach (h : index.Holds cs)
    {parts : List (HashRangeIndex ι α × List (Contribution ι α))}
    (hparts : ∀ part ∈ parts, part.1.Holds part.2) (hname : ∀ part ∈ parts, part.1.name = index.name)
    (operation : Nat) : ∃ merged,
      Steps.run (mergeInto operation) index (parts.map Prod.fst) = (merged, none) ∧
        merged.name = index.name ∧ merged.Holds (cs ++ parts.flatMap Prod.snd) := by
  induction parts generalizing index cs with
  | nil =>
    refine ⟨index, rfl, rfl, ?_⟩
    rwa [List.flatMap_nil, List.append_nil]
  | cons part parts ih =>
    obtain ⟨hpart, hparts⟩ := List.forall_mem_cons.1 hparts
    obtain ⟨hpartName, hname⟩ := List.forall_mem_cons.1 hname
    obtain ⟨next, hnext, hnextName, hholds, -⟩ := h.exists_mergeInto hpart hpartName operation
    obtain ⟨merged, hmerged, hmergedName, hall⟩ := ih hholds hparts fun other hother =>
      (hname other hother).trans hnextName.symm
    refine ⟨merged, ?_, hmergedName.trans hnextName, ?_⟩
    · rw [List.map_cons, Steps.run, hnext]
      exact hmerged
    · rwa [List.flatMap_cons, ← List.append_assoc]

end HashRangeIndex

namespace Index

variable {ι α : Type} [Identifier ι] [Attribute α]

def rows : Index ι α → List (ι × α)
  | range index => index.columns
  | _ => []

def rowsOf (key : ι) : Index ι α → List (ι × α)
  | hashRange index => index.rowsAt key
  | _ => []

def rangeKeys : Index ι α → List ι
  | hashRange index => index.ranges.map Prod.fst
  | _ => []

def idsOf (value : α) : Index ι α → List ι
  | hash index => index.idsAt value
  | _ => []

def values : Index ι α → List α
  | hash index => index.values
  | _ => []

/-- Whether an index holds what parts hold together: the rows of range indexes, the rows under each key of
hash-range indexes, and the ids under each value of hash indexes. -/
structure Comprises (whole : Index ι α) (parts : List (Index ι α)) : Prop where
  kind : ∀ part ∈ parts, part.kind = whole.kind
  name : ∀ part ∈ parts, part.name = whole.name
  rows : whole.rows.Perm (parts.flatMap rows)
  rowsOf : ∀ key, (whole.rowsOf key).Perm (parts.flatMap (rowsOf key))
  rangeKeys : ∀ key, key ∈ whole.rangeKeys ↔ key ∈ parts.flatMap rangeKeys
  idsOf : ∀ value id, id ∈ whole.idsOf value ↔ id ∈ parts.flatMap (idsOf value)
  values : ∀ value, value ∈ whole.values ↔ value ∈ parts.flatMap values

theorem comprises_range (stamp : Stamp) {first : RangeIndex ι α} {others : List (RangeIndex ι α)}
    (hname : ∀ other ∈ others, other.name = first.name) :
    (range (first.concat stamp others)).Comprises ((first :: others).map range) where
  kind := List.forall_mem_map.2 fun _ _ => rfl
  name := List.forall_mem_map.2 (List.forall_mem_cons.2 ⟨rfl, hname⟩)
  rows := by
    rw [List.flatMap_map]
    show (first.concat stamp others).columns.Perm ((first :: others).flatMap RangeIndex.columns)
    rw [RangeIndex.columns_concat, List.flatMap_cons]
    exact List.mergeSort_perm _ _
  rowsOf key := by simp [Index.rowsOf, List.flatMap_map]
  rangeKeys key := by simp [Index.rangeKeys, List.flatMap_map]
  idsOf value id := by simp [Index.idsOf, List.flatMap_map]
  values value := by simp [Index.values, List.flatMap_map]

theorem comprises_hash {first merged : HashIndex ι α} {others : List (HashIndex ι α)}
    (h : ∀ part ∈ first :: others, part.WellFormed) (hname : ∀ other ∈ others, other.name = first.name)
    (htakes : first.TakesIn (others.flatMap HashIndex.buckets) merged) :
    (hash merged).Comprises ((first :: others).map hash) where
  kind := List.forall_mem_map.2 fun _ _ => rfl
  name := by
    have hnames : ∀ part ∈ first :: others, part.name = first.name := List.forall_mem_cons.2 ⟨rfl, hname⟩
    exact List.forall_mem_map.2 fun part hpart => (hnames part hpart).trans htakes.name.symm
  rows := by simp [Index.rows, List.flatMap_map]
  rowsOf key := by simp [Index.rowsOf, List.flatMap_map]
  rangeKeys key := by simp [Index.rangeKeys, List.flatMap_map]
  idsOf value id := by
    rw [List.flatMap_map]
    exact HashIndex.mem_idsAt_iff_of_joined h (HashIndex.get?_of_takesIn h htakes value)
  values value := by
    rw [List.flatMap_map, List.mem_flatMap]
    show value ∈ merged.values ↔ ∃ part ∈ first :: others, value ∈ part.values
    rw [HashIndex.mem_values_iff, Option.isSome_iff_ne_none, HashIndex.get?_of_takesIn h htakes, ne_eq,
      HashIndex.joined_eq_none_iff]
    exact HashIndex.bucketsIn_ne_nil_iff

theorem comprises_hashRange {merged : HashRangeIndex ι α}
    {parts : List (HashRangeIndex ι α × List (HashRangeIndex.Contribution ι α))}
    (hparts : ∀ part ∈ parts, part.1.Holds part.2) (hname : ∀ part ∈ parts, part.1.name = merged.name)
    (h : merged.Holds (parts.flatMap Prod.snd)) :
    (hashRange merged).Comprises ((parts.map Prod.fst).map hashRange) where
  kind := List.forall_mem_map.2 fun _ _ => rfl
  name := List.forall_mem_map.2 (List.forall_mem_map.2 hname)
  rows := by simp [Index.rows, List.flatMap_map]
  rowsOf key := by
    rw [List.flatMap_map, List.flatMap_map]
    refine (h.perm_rowsAt key).trans ?_
    rw [HashRangeIndex.contributed_flatMap, List.flatMap_def, List.flatten_flatten, List.map_map]
    show (parts.flatMap fun part => (HashRangeIndex.contributed key part.2).flatten).Perm _
    exact List.Perm.flatMap_left _ fun part hpart => ((hparts part hpart).perm_rowsAt key).symm
  rangeKeys key := by
    rw [List.flatMap_map, List.flatMap_map, List.mem_flatMap]
    show key ∈ merged.ranges.map Prod.fst ↔ ∃ part ∈ parts, key ∈ part.1.ranges.map Prod.fst
    rw [h.mem_keys_iff, HashRangeIndex.contributed_flatMap, ne_eq, List.flatMap_eq_nil_iff]
    simp only [not_forall, exists_prop]
    exact exists_congr fun part => and_congr_right fun hpart => (hparts part hpart).mem_keys_iff.symm
  idsOf value id := by simp [Index.idsOf, List.flatMap_map]
  values value := by simp [Index.values, List.flatMap_map]

theorem comprises_empty (kind : IndexKind) (name : String) (operation : Nat) :
    (empty kind name operation : Index ι α).Comprises [] := by
  cases kind <;> exact ⟨nofun, nofun, .nil, fun _ => .nil, fun _ => Iff.rfl, fun _ _ => Iff.rfl, fun _ => Iff.rfl⟩

omit [Identifier ι] [Attribute α] in
theorem mapM_asRange? (ranges : List (RangeIndex ι α)) :
    (ranges.map range).mapM asRange? = some ranges := by
  induction ranges with
  | nil => rfl
  | cons first ranges ih =>
    rw [List.map_cons, List.mapM_cons, ih]
    rfl

section Read

variable {t : ValueType} {name : String} {operation : Nat}

theorem exists_ofParts_hash {parts : List (HashIndex ι t.Carrier)}
    (h : ∀ part ∈ parts, ∃ bytes, HashIndex.deserialize name bytes = .ok part) :
    ∃ index, ofParts .hash name operation (parts.map hash) = .ok index ∧ index.kind = .hash ∧
      index.name = name ∧ index.Comprises (parts.map hash) := by
  have hnamed : ∀ part ∈ parts, part.WellFormed ∧ part.name = name := by
    intro part hpart
    obtain ⟨bytes, hread⟩ := h part hpart
    refine ⟨(HashIndex.Reached.deserialize hread).wellFormed, ?_⟩
    obtain ⟨taken, htakes, heq⟩ := HashIndex.exists_deserialize (ι := ι) (α := t.Carrier) name bytes
    rw [hread] at heq
    split at heq
    · cases heq
    · obtain rfl := Except.ok.inj heq
      exact htakes.name
  cases parts with
  | nil => exact ⟨_, rfl, rfl, rfl, comprises_empty _ _ _⟩
  | cons first others =>
    have hwellFormed : ∀ part ∈ first :: others, part.WellFormed := fun part hpart => (hnamed part hpart).1
    have hname : ∀ other ∈ others, other.name = first.name := fun other hother =>
      (hnamed other (List.mem_cons_of_mem _ hother)).2.trans (hnamed first List.mem_cons_self).2.symm
    obtain ⟨merged, -, hrun, htakes⟩ := HashIndex.exists_mergeEach hwellFormed hname
    have hmerged : mergeAll operation (hash first) (others.map hash) = (hash merged, none) :=
      HashIndex.run_mergeInto_hash operation hrun
    refine ⟨hash merged, ?_, rfl, htakes.name.trans (hnamed first List.mem_cons_self).2,
      comprises_hash hwellFormed hname htakes⟩
    rw [List.map_cons, ofParts, hmerged]
    rfl

theorem exists_ofParts_range {parts : List (RangeIndex ι t.Carrier)}
    (h : ∀ part ∈ parts, ∃ bytes, RangeIndex.deserialize name ⟨operation, 0⟩ bytes = .ok part) :
    ∃ index, ofParts .range name operation (parts.map range) = .ok index ∧ index.kind = .range ∧
      index.name = name ∧ index.Comprises (parts.map range) := by
  have hnamed : ∀ part ∈ parts, part.name = name := by
    intro part hpart
    obtain ⟨bytes, hread⟩ := h part hpart
    obtain ⟨records, -, -, rfl⟩ := RangeIndex.exists_records_of_deserialize hread
    rfl
  cases parts with
  | nil => exact ⟨_, rfl, rfl, rfl, comprises_empty _ _ _⟩
  | cons first others =>
    have hname : ∀ other ∈ others, other.name = first.name := fun other hother =>
      (hnamed other (List.mem_cons_of_mem _ hother)).trans (hnamed first List.mem_cons_self).symm
    have hmerged : mergeAll operation (range first) (others.map range) =
        (range (first.concat ⟨operation, 0⟩ others), none) := by
      simp only [mergeAll, mapM_asRange?, RangeIndex.mergeAll_eq_ok hname]
    refine ⟨range (first.concat ⟨operation, 0⟩ others), ?_, rfl, hnamed first List.mem_cons_self,
      comprises_range _ hname⟩
    rw [List.map_cons, ofParts, hmerged]
    rfl

theorem exists_ofParts_hashRange {parts : List (HashRangeIndex ι t.Carrier)}
    (h : ∀ part ∈ parts, ∃ bytes, HashRangeIndex.deserialize name operation bytes = .ok part) :
    ∃ index, ofParts .hashRange name operation (parts.map hashRange) = .ok index ∧
      index.kind = .hashRange ∧ index.name = name ∧ index.Comprises (parts.map hashRange) := by
  obtain ⟨parts, rfl, hheld⟩ := exists_map_of_forall
    (f := (Prod.fst : HashRangeIndex ι t.Carrier × List (HashRangeIndex.Contribution ι t.Carrier) → _))
    (p := fun held => held.1.Holds held.2 ∧ held.1.name = name) fun part hpart => by
    obtain ⟨bytes, hread⟩ := h part hpart
    obtain ⟨records, hrecords, hkeys, hbytes⟩ := HashRangeIndex.exists_records_of_deserialize hread
    obtain ⟨index, hindex, hname, -⟩ :=
      HashRangeIndex.exists_deserialize_of_records name operation hrecords hkeys hbytes
    obtain rfl := Except.ok.inj (hread.symm.trans hindex)
    exact ⟨⟨part, _⟩, rfl, HashRangeIndex.holds_deserialize hrecords hbytes hread, hname⟩
  cases parts with
  | nil => exact ⟨_, rfl, rfl, rfl, comprises_empty _ _ _⟩
  | cons first others =>
    obtain ⟨hfirst, hothers⟩ := List.forall_mem_cons.1 hheld
    obtain ⟨merged, hrun, hname, hholds⟩ := hfirst.1.exists_mergeEach (fun other hother => (hothers other hother).1)
      (fun other hother => (hothers other hother).2.trans hfirst.2.symm) operation
    have hmerged : mergeAll operation (hashRange first.1) ((others.map Prod.fst).map hashRange) =
        (hashRange merged, none) := by
      rw [HashRangeIndex.mergeAll_hashRange, hrun]
      rfl
    refine ⟨hashRange merged, ?_, rfl, hname.trans hfirst.2, ?_⟩
    · rw [List.map_cons, List.map_cons, ofParts, hmerged]
      rfl
    · exact comprises_hashRange (fun part hpart => (hheld part hpart).1)
        (fun part hpart => (hheld part hpart).2.trans (hname.trans hfirst.2).symm) hholds

theorem exists_ofParts {kind : IndexKind} {parts : List (Index ι t.Carrier)}
    (h : ∀ part ∈ parts, ∃ bytes, deserialize kind name operation bytes = .ok part) :
    ∃ index, ofParts kind name operation parts = .ok index ∧ index.kind = kind ∧ index.name = name ∧
      index.Comprises parts := by
  cases kind with
  | hash =>
    obtain ⟨parts, rfl, hparts⟩ := exists_map_of_read h
    exact exists_ofParts_hash hparts
  | range =>
    obtain ⟨parts, rfl, hparts⟩ := exists_map_of_read h
    exact exists_ofParts_range hparts
  | hashRange =>
    obtain ⟨parts, rfl, hparts⟩ := exists_map_of_read h
    exact exists_ofParts_hashRange hparts

end Read

section Regroup

variable {A B : Type} {o : A → List B} {whole : List B} {all parts : List A} {groups : List (List A)}

theorem perm_flatMap_of_groups (hall : whole.Perm (all.flatMap o)) (hgroups : all.Perm groups.flatten)
    (hparts : List.Forall₂ (fun part group => (o part).Perm (group.flatMap o)) parts groups) :
    whole.Perm (parts.flatMap o) := by
  refine (hall.trans (hgroups.flatMap_right o)).trans ?_
  clear hall hgroups
  induction hparts with
  | nil => exact .nil
  | cons hpart _ ih =>
    rw [List.flatten_cons, List.flatMap_append, List.flatMap_cons]
    exact hpart.symm.append ih

theorem mem_flatMap_of_groups {x : B} (hall : x ∈ whole ↔ x ∈ all.flatMap o)
    (hgroups : all.Perm groups.flatten)
    (hparts : List.Forall₂ (fun part group => x ∈ o part ↔ x ∈ group.flatMap o) parts groups) :
    x ∈ whole ↔ x ∈ parts.flatMap o := by
  refine (hall.trans (hgroups.flatMap_right o).mem_iff).trans ?_
  clear hall hgroups
  induction hparts with
  | nil => exact Iff.rfl
  | cons hpart _ ih =>
    rw [List.flatten_cons, List.flatMap_append, List.flatMap_cons, List.mem_append, List.mem_append, hpart,
      ih]

end Regroup

theorem Comprises.regroup {whole : Index ι α} {all parts : List (Index ι α)} {groups : List (List (Index ι α))}
    (h : whole.Comprises all) (hgroups : all.Perm groups.flatten)
    (hsame : ∀ part ∈ parts, part.kind = whole.kind ∧ part.name = whole.name)
    (hparts : List.Forall₂ Comprises parts groups) : whole.Comprises parts where
  kind part hpart := (hsame part hpart).1
  name part hpart := (hsame part hpart).2
  rows := perm_flatMap_of_groups h.rows hgroups (hparts.imp fun _ _ hpart => hpart.rows)
  rowsOf key := perm_flatMap_of_groups (h.rowsOf key) hgroups (hparts.imp fun _ _ hpart => hpart.rowsOf key)
  rangeKeys key :=
    mem_flatMap_of_groups (h.rangeKeys key) hgroups (hparts.imp fun _ _ hpart => hpart.rangeKeys key)
  idsOf value id :=
    mem_flatMap_of_groups (h.idsOf value id) hgroups (hparts.imp fun _ _ hpart => hpart.idsOf value id)
  values value :=
    mem_flatMap_of_groups (h.values value) hgroups (hparts.imp fun _ _ hpart => hpart.values value)

end Index

end WeightedStore
