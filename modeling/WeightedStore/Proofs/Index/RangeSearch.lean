import Mathlib.Data.List.Permutation
import WeightedStore.Attribute.Instances
import WeightedStore.Proofs.Index.RangeOrder
import WeightedStore.Proofs.Query.Operands

/-!
What a search of a range index answers, for every index that can come about: a refusal of the first
text that stands for no value, or the rows whose value the operator admits, in row order. Opposite
operators share the rows out between them.
-/

namespace WeightedStore.RangeIndex

variable {ι α : Type}

section Rows

@[simp] theorem length_values (index : RangeIndex ι α) : index.values.length = index.rowCount := by
  simp [values, rowCount]

@[simp] theorem length_weights (index : RangeIndex ι α) :
    index.weights.length = index.rowCount := by
  simp [weights, totals, rowCount]

theorem filterMap_range (xs : List α) : (List.range xs.length).filterMap (fun i => xs[i]?) = xs := by
  induction xs with
  | nil => rfl
  | cons x xs ih =>
    rw [List.length_cons, List.range_succ_eq_map, List.filterMap_cons, List.filterMap_map]
    simp only [List.getElem?_cons_zero, Function.comp_def, Nat.succ_eq_add_one,
      List.getElem?_cons_succ, ih]

theorem filterMap_filter_range (xs : List α) (q : α → Bool) :
    ((List.range xs.length).filter fun i => xs[i]?.any q).filterMap (fun i => xs[i]?) =
      xs.filter q := by
  have hpick (i : Nat) : (if xs[i]?.any q = true then xs[i]? else none) = xs[i]?.filter q := by
    cases xs[i]? <;> simp [Option.filter]
  rw [List.filterMap_filter]
  simp only [hpick]
  rw [← List.filter_filterMap, filterMap_range]

theorem places_searchAll (index : RangeIndex ι α) :
    Spans.places (Spans.proper [⟨0, index.rowCount⟩]) = List.range index.rowCount := by
  rw [places_single, Span.places, Span.length, Nat.sub_zero, List.range_eq_range']

theorem placesWhere_not (values : List α) (p : α → Bool) :
    placesWhere values (fun x => !p x) =
      (List.range values.length).filter fun i => !values[i]?.any p := by
  refine List.filter_congr fun i hi => ?_
  rw [List.getElem?_eq_getElem (List.mem_range.1 hi)]
  rfl

variable [Identifier ι]

def entriesWhere (index : RangeIndex ι α) (p : α → Bool) : List Entry :=
  ((index.rows.zip index.weights).filter fun (r, _) => p r.value).map
    fun (r, w) => (Identifier.wide r.id, w)

theorem entries_backing (index : RangeIndex ι α) :
    index.backing.entries =
      (index.rows.zip index.weights).map fun (r, w) => (Identifier.wide r.id, w) := by
  have htotals : index.backing.totals = index.totals := by
    simp [Backing.totals, backing, totals]
  rw [Backing.entries, htotals, ← RangeIndex.weights]
  simp only [backing, List.map_map, Function.comp_def, List.zip_map_left]
  rfl

theorem entries_of_places {index : RangeIndex ι α} {c : Cut} {p : α → Bool}
    (hb : c.backing = index.backing) (hp : c.spans.places = placesWhere index.values p) :
    c.entries = index.entriesWhere p := by
  have hvalues : index.values = (index.rows.zip index.weights).map fun (r, _) => r.value := by
    have hrows : (index.rows.zip index.weights).map Prod.fst = index.rows :=
      List.map_fst_zip (by simp [rowCount])
    rw [values, ← congrArg (List.map (·.value)) hrows, List.map_map]
    rfl
  have hplaces : c.spans.places =
      (List.range (index.rows.zip index.weights).length).filter
        fun i => (index.rows.zip index.weights)[i]?.any fun (r, _) => p r.value := by
    rw [hp, placesWhere, hvalues, List.length_map]
    simp only [List.getElem?_map, Option.any_map]
  rw [Cut.entries, hb, entries_backing, hplaces]
  simp only [List.getElem?_map]
  rw [← List.map_filterMap, filterMap_filter_range]
  rfl

end Rows

variable [Attribute α]

theorem empty_eq_ofRows (name : String) (stamp : Stamp) :
    (empty name stamp : RangeIndex ι α) = ofRows name stamp [] := by
  simp [empty, ofRows, sortByValue, accumulate]

theorem eq_concat_of_mergeAll {stamp : Stamp} {index merged : RangeIndex ι α}
    {others : List (RangeIndex ι α)} (h : index.mergeAll stamp others = .ok merged) :
    merged = index.concat stamp others := by
  rw [mergeAll] at h
  split at h
  · cases h
  · exact (Except.ok.inj h).symm

variable [Identifier ι]

/-- The range indexes that come about: new ones, built or read ones, and what is merged of such. -/
inductive Reached : RangeIndex ι α → Prop
  | empty (name : String) (stamp : Stamp) : Reached (.empty name stamp)
  | build {name : String} {stamp : Stamp} {ids : List ι} {values : List α}
      {weights : List Binary32} {index : RangeIndex ι α} :
      build name stamp ids values weights = .ok index → Reached index
  | deserialize {name : String} {stamp : Stamp} {bytes : List UInt8} {index : RangeIndex ι α} :
      deserialize name stamp bytes = .ok index → Reached index
  | merge {stamp : Stamp} {index other merged : RangeIndex ι α} :
      Reached index → Reached other → index.merge stamp other = .ok merged → Reached merged
  | mergeAll {stamp : Stamp} {index merged : RangeIndex ι α} {others : List (RangeIndex ι α)} :
      Reached index → (∀ other ∈ others, Reached other) →
      index.mergeAll stamp others = .ok merged → Reached merged

variable {index : RangeIndex ι α}

/-- Every way to an index ends in sorting its rows. -/
theorem Reached.eq_ofRows (h : index.Reached) :
    ∃ rows, index = ofRows index.name index.stamp rows := by
  cases h with
  | empty name stamp => exact ⟨[], empty_eq_ofRows name stamp⟩
  | build h =>
    rw [RangeIndex.build] at h
    split at h
    · cases h
    · split at h
      · cases h
      · obtain rfl := Except.ok.inj h
        exact ⟨_, rfl⟩
  | deserialize h =>
    rw [RangeIndex.deserialize] at h
    split at h
    · cases h
    · obtain rfl := Except.ok.inj h
      exact ⟨_, rfl⟩
  | merge _ _ h =>
    obtain rfl := eq_concat_of_mergeAll h
    exact ⟨_, rfl⟩
  | mergeAll _ _ h =>
    obtain rfl := eq_concat_of_mergeAll h
    exact ⟨_, rfl⟩

theorem Reached.ordered (h : index.Reached) : Ordered index.values := by
  obtain ⟨rows, hrows⟩ := h.eq_ofRows
  rw [hrows]
  exact ordered_ofRows _ _ _

theorem search_eq_error_iff {op : Operator} {operand : String} {e : StoreError} :
    index.search op operand = .error e ↔
      ∃ text, (op.texts operand).find? (fun text => !Attribute.reads α text) = some text ∧
        e = .invalidValue index.name text (Attribute.type α) := by
  simp only [← Condition.read_eq_error_iff]
  rw [search]
  cases (Condition.read op operand : Except String (Condition α)) <;> simp [eq_comm]

theorem cut_of_search {op : Operator} {operand : String} {s : Selection}
    (h : index.search op operand = .ok s) :
    ∃ c : Condition α, s = index.cut (locate index.values c) := by
  rw [search] at h
  split at h
  · cases h
  · exact ⟨_, (Except.ok.inj h).symm⟩

theorem exists_search_of_ordered (h : Ordered index.values) {op : Operator} {operand : String}
    {vs : List α} (hvs : (op.texts operand).mapM Attribute.read? = some vs) :
    ∃ c : Cut, index.search op operand = .ok (.cut c) ∧ c.backing = index.backing ∧
      c.spans.places = placesWhere index.values (op.admits vs) := by
  obtain ⟨condition, hread, hholds⟩ := Condition.read_of_mapM hvs
  refine ⟨.of index.name index.backing (locate index.values condition), ?_, rfl, ?_⟩
  · rw [search, hread]
    rfl
  · rw [Cut.of, Spans.places_proper, places_locate h, funext hholds]

theorem exists_search (hi : index.Reached) {op : Operator} {operand : String} {vs : List α}
    (h : (op.texts operand).mapM Attribute.read? = some vs) :
    ∃ c : Cut, index.search op operand = .ok (.cut c) ∧ c.backing = index.backing ∧
      c.spans.places = placesWhere index.values (op.admits vs) :=
  exists_search_of_ordered hi.ordered h

/-- A search refuses an operand for the first text in it that stands for no value. Any other operand
selects the rows whose value the operator admits, each once and in row order; the opposite operator
selects the other rows. -/
theorem search_selects (hi : index.Reached) (op : Operator) (operand : String) :
    (∀ e, index.search op operand = .error e ↔
      ∃ text, (op.texts operand).find? (fun text => !Attribute.reads α text) = some text ∧
        e = .invalidValue index.name text (Attribute.type α)) ∧
    ((∀ text ∈ op.texts operand, Attribute.reads α text = true) →
      ∃ (vs : List α) (found others all : Cut),
        (op.texts operand).mapM Attribute.read? = some vs ∧
        index.search op operand = .ok (.cut found) ∧
        index.search op.opposite operand = .ok (.cut others) ∧
        index.searchAll = .cut all ∧
        found.spans.places = placesWhere index.values (op.admits vs) ∧
        found.entries = index.entriesWhere (op.admits vs) ∧
        all.spans.places = List.range index.rowCount ∧
        found.spans.places.Disjoint others.spans.places ∧
        (found.spans.places ++ others.spans.places).Perm all.spans.places) := by
  refine ⟨fun e => search_eq_error_iff, fun hreads => ?_⟩
  obtain ⟨vs, hvs⟩ := Operator.exists_mapM_of_reads hreads
  obtain ⟨found, hfound, hbacking, hplaces⟩ := exists_search hi hvs
  have hopposite : (op.opposite.texts operand).mapM Attribute.read? = some vs := by
    rw [op.texts_opposite, hvs]
  -- the opposite operator reads the same values, and admits where this one does not
  obtain ⟨others, hothers, -, hrest⟩ := exists_search hi hopposite
  have hall := places_searchAll index
  rw [funext (Operator.admits_opposite hvs), placesWhere_not] at hrest
  refine ⟨vs, found, others, _, hvs, hfound, hothers, rfl, hplaces,
    entries_of_places hbacking hplaces, hall, ?_, ?_⟩
  · rw [hplaces, hrest]
    intro i hin hout
    have hyes := (List.mem_filter.1 hin).2
    have hno := (List.mem_filter.1 hout).2
    rw [hyes] at hno
    cases hno
  · rw [Cut.of, hall, hplaces, hrest, placesWhere, length_values]
    exact List.filter_append_perm _ _

theorem search_selects_repeated_value :
    let index : RangeIndex UInt32 String :=
      ofRows "color" ⟨1, 0⟩ (zipRows [7, 8, 9] ["red", "blue", "red"] [.zero, .zero, .zero])
    index.Reached ∧ ∃ found : Cut,
      index.search .isIn "red::::green::red" = .ok (.cut found) ∧ found.spans.places = [1, 2] := by
  intro index
  have hbuild : build "color" ⟨1, 0⟩ [7, 8, 9] ["red", "blue", "red"] [.zero, .zero, .zero] =
      .ok index := rfl
  have hi : index.Reached := .build hbuild
  have hreads : ∀ text ∈ Operator.isIn.texts "red::::green::red",
      Attribute.reads String text = true := fun _ _ => rfl
  obtain ⟨vs, found, -, -, hvs, hfound, -, -, hplaces, -⟩ :=
    (search_selects hi .isIn "red::::green::red").2 hreads
  have hread : (Operator.isIn.texts "red::::green::red").mapM Attribute.read? =
      some ["red", "green", "red"] := by cbv
  obtain rfl := Option.some.inj (hvs.symm.trans hread)
  refine ⟨hi, found, hfound, ?_⟩
  rw [hplaces]
  cbv

end WeightedStore.RangeIndex
