import WeightedStore.Proofs.Attribute.StableSort
import WeightedStore.Proofs.Index.RangeSearch

/-!
Merging range indexes. The ids and values of the outcome are those of all rows, one index after the
other, in one stable sort. Merging in turn or building from all rows at once gives the same two
columns; the weights are sums that may be rounded otherwise.
-/

namespace WeightedStore.RangeIndex

variable {ι α : Type}

def columns (index : RangeIndex ι α) : List (ι × α) := index.ids.zip index.values

theorem columns_eq_map (index : RangeIndex ι α) :
    index.columns = index.rows.map fun r => (r.id, r.value) := by
  rw [columns, ids, values, List.zip_map']

theorem ids_eq_map_columns (index : RangeIndex ι α) : index.ids = index.columns.map Prod.fst := by
  rw [columns_eq_map, List.map_map]
  rfl

theorem values_eq_map_columns (index : RangeIndex ι α) :
    index.values = index.columns.map Prod.snd := by
  rw [columns_eq_map, List.map_map]
  rfl

theorem ids_values_eq_of_columns {a b : RangeIndex ι α} (h : a.columns = b.columns) :
    a.ids = b.ids ∧ a.values = b.values := by
  rw [ids_eq_map_columns, ids_eq_map_columns, values_eq_map_columns, values_eq_map_columns, h]
  exact ⟨rfl, rfl⟩

theorem columns_zipRows {ids : List ι} {values : List α} {weights : List Binary32}
    (h : values.length ≤ weights.length) :
    (zipRows ids values weights).map (fun r => (r.id, r.value)) = ids.zip values := by
  have hv : (values.zip weights).map Prod.fst = values := List.map_fst_zip h
  rw [zipRows, List.map_map, ← congrArg (ids.zip ·) hv, List.zip_map_right]
  rfl

theorem columns_weightedRows (index : RangeIndex ι α) :
    index.weightedRows.map (fun r => (r.id, r.value)) = index.columns := by
  rw [weightedRows, columns_zipRows (by simp), columns]

variable [Attribute α]

theorem sortByValue_eq (rows : List (WeightedRow ι α)) :
    sortByValue rows = Attribute.sortBy (·.value) rows := rfl

theorem columns_ofRows (name : String) (stamp : Stamp) (rows : List (WeightedRow ι α)) :
    (ofRows name stamp rows).columns =
      Attribute.sortBy Prod.snd (rows.map fun r => (r.id, r.value)) := by
  rw [columns, ids_ofRows, values_ofRows, List.zip_map', sortByValue_eq]
  exact Attribute.map_sortBy (·.value) Prod.snd (fun r => (r.id, r.value)) (fun _ => rfl) rows

theorem columns_concat (stamp : Stamp) (index : RangeIndex ι α) (others : List (RangeIndex ι α)) :
    (index.concat stamp others).columns =
      Attribute.sortBy Prod.snd (index.columns ++ others.flatMap columns) := by
  rw [concat, columns_ofRows, List.map_append, columns_weightedRows, List.map_flatMap]
  simp only [columns_weightedRows]

theorem mergeAll_eq_ok {index : RangeIndex ι α} {others : List (RangeIndex ι α)}
    (h : ∀ other ∈ others, other.name = index.name) (stamp : Stamp) :
    index.mergeAll stamp others = .ok (index.concat stamp others) := by
  have hnone : others.find? (fun other => index.name ≠ other.name) = none :=
    List.find?_eq_none.2 fun other hother => by simp [h other hother]
  rw [mergeAll, hnone]

theorem sortBy_columns {index : RangeIndex ι α} (h : Ordered index.values) :
    Attribute.sortBy Prod.snd index.columns = index.columns := by
  rw [values_eq_map_columns] at h
  exact Attribute.sortBy_of_orderedBy (List.pairwise_map.1 h)

def mergeInTurn (index : RangeIndex ι α) :
    List (Stamp × RangeIndex ι α) → Except StoreError (RangeIndex ι α)
  | [] => .ok index
  | (stamp, other) :: steps => do
    let merged ← index.merge stamp other
    merged.mergeInTurn steps

theorem mergeInTurn_sorts {index : RangeIndex ι α} (hi : Ordered index.values)
    {steps : List (Stamp × RangeIndex ι α)} (h : ∀ step ∈ steps, step.2.name = index.name) :
    ∃ stepped, index.mergeInTurn steps = .ok stepped ∧ stepped.name = index.name ∧
      stepped.columns =
        Attribute.sortBy Prod.snd (index.columns ++ steps.flatMap fun step => step.2.columns) := by
  induction steps generalizing index with
  | nil => exact ⟨index, rfl, rfl, by rw [List.flatMap_nil, List.append_nil, sortBy_columns hi]⟩
  | cons step steps ih =>
    obtain ⟨stamp, other⟩ := step
    have hother : ∀ o ∈ [other], o.name = index.name := by
      simpa using h (stamp, other) List.mem_cons_self
    -- after one step the index is in order again, with the rows of `other` among its own
    have hordered : Ordered (index.concat stamp [other]).values := ordered_ofRows _ _ _
    obtain ⟨stepped, hstepped, hname, hcolumns⟩ := ih hordered fun s hs =>
      h s (List.mem_cons_of_mem _ hs)
    refine ⟨stepped, ?_, hname, ?_⟩
    · rw [mergeInTurn, merge, mergeAll_eq_ok hother]
      exact hstepped
    · rw [hcolumns, columns_concat, Attribute.sortBy_append_of_sorted, List.flatMap_singleton,
        List.flatMap_cons, List.append_assoc]

theorem build_eq_ok_iff {name : String} {stamp : Stamp} {ids : List ι} {values : List α}
    {weights : List Binary32} {index : RangeIndex ι α} :
    build name stamp ids values weights = .ok index ↔
      (ids.length = values.length ∧ ids.length = weights.length) ∧
        (∀ w ∈ weights, w.isWeight = true) ∧
        index = ofRows name stamp (zipRows ids values weights) := by
  have hbad : weights.find? (fun w => !w.isWeight) = none ↔ ∀ w ∈ weights, w.isWeight = true := by
    simp [List.find?_eq_none]
  rw [build, ← hbad]
  by_cases hlengths : ids.length ≠ values.length ∨ ids.length ≠ weights.length
  · rw [if_pos hlengths]
    refine iff_of_false (fun h => ?_) (fun h => ?_)
    · cases h
    · rcases hlengths with hne | hne
      · exact hne h.1.1
      · exact hne h.1.2
  · rw [if_neg hlengths]
    rw [not_or, not_not, not_not] at hlengths
    rw [and_iff_right hlengths]
    cases weights.find? (fun w => !w.isWeight) <;> simp [eq_comm]

def buildRows (name : String) (stamp : Stamp) (rows : List (WeightedRow ι α)) :
    Except StoreError (RangeIndex ι α) :=
  build name stamp (rows.map (·.id)) (rows.map (·.value)) (rows.map (·.weight))

theorem buildRows_eq_ok_iff {name : String} {stamp : Stamp} {rows : List (WeightedRow ι α)}
    {index : RangeIndex ι α} :
    buildRows name stamp rows = .ok index ↔
      (∀ r ∈ rows, r.weight.isWeight = true) ∧ index = ofRows name stamp rows := by
  have hzip : zipRows (rows.map (·.id)) (rows.map (·.value)) (rows.map (·.weight)) = rows := by
    simp only [zipRows, List.zip_map', List.map_map]
    exact List.map_id rows
  rw [buildRows, build_eq_ok_iff, hzip, and_iff_right (by simp), List.forall_mem_map]

theorem columns_of_built {parts : List (List (WeightedRow ι α))} {others : List (RangeIndex ι α)}
    (h : List.Forall₂ (fun part other => buildRows other.name other.stamp part = .ok other)
      parts others) :
    (∀ r ∈ parts.flatten, r.weight.isWeight = true) ∧
      others.flatMap columns =
        (parts.map fun part => part.map fun r => (r.id, r.value)).flatMap
          (Attribute.sortBy Prod.snd) := by
  induction h with
  | nil => exact ⟨nofun, rfl⟩
  | @cons part other parts others hpart _ ih =>
    obtain ⟨hweights, hother⟩ := buildRows_eq_ok_iff.1 hpart
    have hcolumns : other.columns =
        Attribute.sortBy Prod.snd (part.map fun r => (r.id, r.value)) := by
      rw [hother, columns_ofRows]
    refine ⟨fun r hr => ?_, ?_⟩
    · rcases List.mem_append.1 (List.flatten_cons ▸ hr) with hr | hr
      · exact hweights r hr
      · exact ih.1 r hr
    · rw [List.flatMap_cons, ih.2, hcolumns, List.map_cons, List.flatMap_cons]

/-- Merging all others in gives the ids and values of one stable sort by value of all rows, index
after index. Merging them in turn gives the same columns, and so does building from the rows of
indexes that were built. -/
theorem mergeAll_sorts [Identifier ι] {index : RangeIndex ι α} (hi : index.Reached)
    {others : List (RangeIndex ι α)} (hname : ∀ other ∈ others, other.name = index.name)
    (stamp : Stamp) :
    ∃ merged, index.mergeAll stamp others = .ok merged ∧ merged.name = index.name ∧
      (let sorted := Attribute.sortBy Prod.snd
        (index.ids.zip index.values ++ others.flatMap fun other => other.ids.zip other.values)
      merged.ids = sorted.map Prod.fst ∧ merged.values = sorted.map Prod.snd) ∧
      (∀ steps : List (Stamp × RangeIndex ι α), steps.map Prod.snd = others →
        ∃ stepped, index.mergeInTurn steps = .ok stepped ∧ stepped.name = merged.name ∧
          stepped.ids = merged.ids ∧ stepped.values = merged.values) ∧
      (∀ (rows : List (WeightedRow ι α)) (parts : List (List (WeightedRow ι α))),
        buildRows index.name index.stamp rows = .ok index →
        List.Forall₂ (fun part other => buildRows other.name other.stamp part = .ok other)
          parts others →
        ∃ direct, buildRows index.name stamp (rows ++ parts.flatten) = .ok direct ∧
          direct.ids = merged.ids ∧ direct.values = merged.values) := by
  have hcolumns := columns_concat stamp index others
  refine ⟨index.concat stamp others, mergeAll_eq_ok hname stamp, rfl, ⟨?_, ?_⟩, ?_, ?_⟩
  · rw [ids_eq_map_columns, hcolumns]
    rfl
  · rw [values_eq_map_columns, hcolumns]
    rfl
  · rintro steps rfl
    have hsteps : ∀ step ∈ steps, step.2.name = index.name := fun step hstep =>
      hname _ (List.mem_map_of_mem hstep)
    obtain ⟨stepped, hstepped, hn, hc⟩ := mergeInTurn_sorts hi.ordered hsteps
    have hsame : stepped.columns = (index.concat stamp (steps.map Prod.snd)).columns := by
      rw [hc, hcolumns, List.flatMap_map]
    exact ⟨stepped, hstepped, hn, ids_values_eq_of_columns hsame⟩
  · intro rows parts hrows hparts
    obtain ⟨hweights, hindex⟩ := buildRows_eq_ok_iff.1 hrows
    obtain ⟨hpartWeights, hpartColumns⟩ := columns_of_built hparts
    have hindexColumns : index.columns =
        Attribute.sortBy Prod.snd (rows.map fun r => (r.id, r.value)) := by
      rw [hindex, columns_ofRows]
    have hsame : (ofRows index.name stamp (rows ++ parts.flatten)).columns =
        (index.concat stamp others).columns := by
      rw [hcolumns, columns_ofRows, hindexColumns, hpartColumns, Attribute.sortBy_pieces,
        List.map_append, List.map_flatten]
    have hall : ∀ r ∈ rows ++ parts.flatten, r.weight.isWeight = true := fun r hr =>
      (List.mem_append.1 hr).elim (hweights r) (hpartWeights r)
    exact ⟨ofRows index.name stamp (rows ++ parts.flatten), buildRows_eq_ok_iff.2 ⟨hall, rfl⟩,
      ids_values_eq_of_columns hsame⟩

theorem mergeAll_sorts_ties :
    let rows (ids : List UInt32) (values : List String) : List (WeightedRow UInt32 String) :=
      zipRows ids values (ids.map fun _ => .zero)
    let first := ofRows "letter" ⟨1, 0⟩ (rows [7, 8] ["b", "a"])
    let others := [ofRows "letter" ⟨2, 0⟩ (rows [5, 6] ["c", "b"]),
      ofRows "letter" ⟨3, 0⟩ (rows [4] ["b"])]
    first.Reached ∧ (∀ other ∈ others, other.name = first.name) ∧
      ∃ merged, first.mergeAll ⟨4, 0⟩ others = .ok merged ∧
        merged.ids = [8, 7, 6, 4, 5] ∧ merged.values = ["a", "b", "b", "b", "c"] := by
  intro rows first others
  have hbuild : build "letter" ⟨1, 0⟩ [7, 8] ["b", "a"] [.zero, .zero] = .ok first := rfl
  have hi : first.Reached := .build hbuild
  have hname : ∀ other ∈ others, other.name = first.name :=
    List.forall_mem_cons.2 ⟨rfl, List.forall_mem_singleton.2 rfl⟩
  obtain ⟨merged, hmerged, -, ⟨hids, hvalues⟩, -⟩ := mergeAll_sorts hi hname ⟨4, 0⟩
  refine ⟨hi, hname, merged, hmerged, ?_, ?_⟩
  · rw [hids]
    cbv
  · rw [hvalues]
    cbv

end WeightedStore.RangeIndex
