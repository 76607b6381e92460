import WeightedStore.Proofs.Index.Histories
import WeightedStore.Proofs.Query.Keys

/-!
What a search of a hash-range index answers, for every index that can come about: what one range index
of the rows contributed to the query's key answers, and nothing where no rows were contributed.
-/

namespace WeightedStore

namespace RangeIndex

variable {ι α : Type} [Identifier ι]

theorem ids_entriesWhere (index : RangeIndex ι α) (p : α → Bool) :
    (index.entriesWhere p).map Prod.fst =
      (index.columns.filter fun row => p row.2).map fun row => Identifier.wide row.1 := by
  have hrows : (index.rows.zip index.weights).map Prod.fst = index.rows :=
    List.map_fst_zip (by simp [rowCount])
  rw [columns_eq_map, ← hrows, entriesWhere]
  simp only [List.map_map, List.filter_map, Function.comp_def]

variable [Attribute α] {index : RangeIndex ι α}

theorem ids_of_search (h : Ordered index.values) {op : Operator} {operand : String} {vs : List α}
    (hvs : (op.texts operand).mapM Attribute.read? = some vs) :
    ∃ found, index.search op operand = .ok found ∧
      found.ids = (index.columns.filter fun row => op.admits vs row.2).map
        fun row => Identifier.wide row.1 := by
  obtain ⟨c, hfound, hbacking, hplaces⟩ := exists_search_of_ordered h hvs
  refine ⟨.cut c, hfound, ?_⟩
  rw [Selection.ids, Selection.entries, entries_of_places hbacking hplaces, ids_entriesWhere]

end RangeIndex

namespace HashRangeIndex

section Search

variable {idType : IdType} {α : Type} {key : idType.Carrier} {keyText : String}

theorem splitQuery_append (h : Attribute.read? keyText = some key)
    (index : HashRangeIndex idType.Carrier α) (operand : String) :
    index.splitQuery (keyText ++ "::" ++ operand) = .ok (key, operand) := by
  have hcut : Text.cut? (keyText ++ "::" ++ operand).toList =
      some (keyText.toList, operand.toList) := by
    have hquery : (keyText ++ "::" ++ operand).toList =
        keyText.toList ++ ':' :: ':' :: operand.toList := by simp
    rw [hquery]
    exact Text.cut?_append (Attribute.colon_notMem_of_read? h) _
  rw [splitQuery, hcut]
  dsimp only
  rw [String.ofList_toList, String.ofList_toList, h]

theorem search_append [Attribute α] (h : Attribute.read? keyText = some key)
    (index : HashRangeIndex idType.Carrier α) (op : Operator) (operand : String) :
    index.search op (keyText ++ "::" ++ operand) = match index.get? key with
      | some range => range.search op operand
      | none => .ok (.empty (rangeName index.name key)) := by
  rw [search, splitQuery_append h]
  simp only [bind, Except.bind]
  cases index.get? key with
  | none => rfl
  | some range => rfl

end Search

section Gathered

variable {idType : IdType} {t : ValueType} {index : HashRangeIndex idType.Carrier t.Carrier}
  {cs : List (Contribution idType.Carrier t.Carrier)} {key : idType.Carrier}

theorem Gathered.exists_range (h : index.Gathered cs) (hrows : contributed key cs ≠ []) :
    ∃ range, index.get? key = some range ∧ range.name = rangeName index.name key ∧
      range.columns = Attribute.sortBy Prod.snd (contributed key cs).flatten := by
  have hkeeps := h.holds.keeps key
  cases hget : index.get? key with
  | none =>
    rw [hget] at hkeeps
    exact absurd hkeeps hrows
  | some range =>
    rw [hget] at hkeeps
    exact ⟨range, rfl, hkeeps.2⟩

theorem Gathered.get?_eq_none (h : index.Gathered cs) (hrows : contributed key cs = []) :
    index.get? key = none := by
  have hkeeps := h.holds.keeps key
  cases hget : index.get? key with
  | none => rfl
  | some range =>
    rw [hget] at hkeeps
    exact absurd hrows hkeeps.1

/-- A query asks one range of all the rows that were contributed to its key, in one stable sort by
value, and selects nothing where no rows were contributed. The key ends at the first double colon,
whatever the operand is. Merging another index of the same name in is not refused, in whatever order its
ranges are gone through. -/
theorem search_gathered (h : index.Gathered cs) :
    (∀ (op : Operator) (keyText operand : String) (key : idType.Carrier),
      Attribute.read? keyText = some key →
      let sorted := Attribute.sortBy Prod.snd (contributed key cs).flatten
      let answer := index.search op (keyText ++ "::" ++ operand)
      (contributed key cs = [] → answer = .ok (.empty (rangeName index.name key))) ∧
      (contributed key cs ≠ [] →
        (∃ range : RangeIndex idType.Carrier t.Carrier, range.name = rangeName index.name key ∧
          range.ids = sorted.map Prod.fst ∧ range.values = sorted.map Prod.snd ∧
          answer = range.search op operand) ∧
        ∀ vs, (op.texts operand).mapM Attribute.read? = some vs →
          ∃ found, answer = .ok found ∧
            found.ids = (sorted.filter fun row => op.admits vs row.2).map
              fun row => Identifier.wide row.1)) ∧
    ∀ {other ds}, Gathered other ds → other.name = index.name → ∀ operation,
      ∃ merged, merge operation index other = .ok merged ∧ merged.name = index.name ∧
        merged.Gathered (cs ++ ds) ∧
        ∀ entries, entries.Perm other.ranges →
          Steps.run (absorb operation) index entries = (merged, none) := by
  constructor
  · intro op keyText operand key hkey sorted answer
    have hanswer := search_append hkey index op operand
    refine ⟨fun hrows => ?_, fun hrows => ?_⟩
    · rw [h.get?_eq_none hrows] at hanswer
      exact hanswer
    · obtain ⟨range, hget, hname, hcolumns⟩ := h.exists_range hrows
      rw [hget] at hanswer
      have hids := range.ids_eq_map_columns
      have hvalues := range.values_eq_map_columns
      rw [hcolumns] at hids hvalues
      refine ⟨⟨range, hname, hids, hvalues, hanswer⟩, fun vs hvs => ?_⟩
      have hordered : RangeIndex.Ordered range.values := by
        rw [hvalues]
        exact List.pairwise_map.2 (Attribute.orderedBy_sortBy Prod.snd _)
      obtain ⟨found, hfound, hfoundIds⟩ := RangeIndex.ids_of_search hordered hvs
      rw [hcolumns] at hfoundIds
      exact ⟨found, hanswer.trans hfound, hfoundIds⟩
  · intro other ds ho hname operation
    obtain ⟨merged, hmerged, hmergedName, -, horders⟩ :=
      h.holds.exists_mergeInto ho.holds hname operation
    refine ⟨merged, ?_, hmergedName, ?_, horders⟩
    · rw [merge, hmerged]
      rfl
    · have hgathered : (mergeInto operation index other).1.Gathered _ := .mergeInto h ho
      rwa [hmerged, if_pos hname] at hgathered

theorem search_gathered_list_operand :
    ∃ first second merged : HashRangeIndex IdType.uint32.Carrier ValueType.string.Carrier,
      add 1 (empty "h") (1 : UInt32) [7, 8] ["red", "blue"] [.zero, .zero] = .ok first ∧
      add 2 (empty "h") (1 : UInt32) [9] ["red"] [.zero] = .ok second ∧
      merge 3 first second = .ok merged ∧
      (∃ found, merged.search .isIn " +1::red::::green" = .ok found ∧ found.ids = [7, 9]) ∧
      merged.search .isIn "2::red::::green" = .ok (.empty "h_2") := by
  let first : HashRangeIndex IdType.uint32.Carrier ValueType.string.Carrier :=
    ⟨"h", [((1 : UInt32), .ofRows (rangeName "h" (1 : UInt32)) (stampOf 1 (1 : UInt32))
      (RangeIndex.zipRows [7, 8] ["red", "blue"] [.zero, .zero]))]⟩
  let second : HashRangeIndex IdType.uint32.Carrier ValueType.string.Carrier :=
    ⟨"h", [((1 : UInt32), .ofRows (rangeName "h" (1 : UInt32)) (stampOf 2 (1 : UInt32))
      (RangeIndex.zipRows [9] ["red"] [.zero]))]⟩
  have hfirst : add 1 (empty "h") (1 : UInt32) [7, 8] ["red", "blue"] [.zero, .zero] = .ok first :=
    rfl
  have hsecond : add 2 (empty "h") (1 : UInt32) [9] ["red"] [.zero] = .ok second := rfl
  have hgathered : first.Gathered _ := .add (.empty "h") hfirst
  have hgathered' : second.Gathered _ := .add (.empty "h") hsecond
  obtain ⟨merged, hmerged, hname, hboth, -⟩ := (search_gathered hgathered).2 hgathered' rfl 3
  have hsearch := (search_gathered hboth).1 .isIn
  refine ⟨first, second, merged, hfirst, hsecond, hmerged, ?_, ?_⟩
  · have hkey : Attribute.read? " +1" = some (1 : UInt32) := by decide +kernel
    obtain ⟨-, hids⟩ := (hsearch " +1" "red::::green" (1 : UInt32) hkey).2 (by decide)
    obtain ⟨found, hfound, hfoundIds⟩ := hids ["red", "green"] (by cbv)
    refine ⟨found, hfound, hfoundIds.trans ?_⟩
    cbv
  · have hkey : Attribute.read? "2" = some (2 : UInt32) := by decide +kernel
    have hempty := (hsearch "2" "red::::green" (2 : UInt32) hkey).1 (by decide)
    rw [hname] at hempty
    exact hempty

end Gathered

end HashRangeIndex

end WeightedStore
