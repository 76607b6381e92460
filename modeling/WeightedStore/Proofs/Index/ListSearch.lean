import WeightedStore.Proofs.Attribute.ReadBack
import WeightedStore.Proofs.Index.HashAlgebra
import WeightedStore.Proofs.Index.RangeAlgebra
import WeightedStore.Proofs.Index.Refusals
import WeightedStore.Proofs.Query.Lists

/-!
Searches for the values of a list. Labels joined by double colons are read as their values again, so that a
list operand selects the rows whose value is in the list, or the others; and the first selection is the union
of those for the labels one by one.
-/

namespace WeightedStore

namespace Condition

variable {t : ValueType} {vs : List t.Carrier}

theorem mapM_read?_label (h : ∀ v ∈ vs, t.isNaN v = false) :
    (vs.map Attribute.label).mapM Attribute.read? = some vs := by
  induction vs with
  | nil => rfl
  | cons v vs ih =>
    obtain ⟨hv, h⟩ := List.forall_mem_cons.1 h
    rw [List.map_cons, List.mapM_cons, Attribute.read?_label hv, ih h]
    rfl

theorem readValues_labels (h : ∀ v ∈ vs, t.isNaN v = false) (hlist : Text.Listable (vs.map Attribute.label)) :
    readValues (Text.items ("::".intercalate (vs.map Attribute.label))) = .ok vs := by
  rw [Text.items_intercalate hlist]
  exact readValues_of_mapM (mapM_read?_label h)

theorem read_equal_label {v : t.Carrier} (h : t.isNaN v = false) :
    read .equal (Attribute.label v) = .ok (equal v) := by
  rw [read, readValue, Attribute.read?_label h]
  rfl

end Condition

namespace Index

variable {ι α : Type} [Identifier ι]

def entriesWhere (index : Index ι α) (p : α → Bool) : List Entry :=
  match index with
  | hash index => (index.bucketsWhere p).flatMap fun e => e.2.pairs.map fun (id, w) => (Identifier.wide id, w)
  | range index => index.entriesWhere p
  | hashRange index => index.ranges.flatMap fun e => e.2.entriesWhere p

variable [Attribute α]

/-- What an index selects for the labels of values: for the list of them, for its opposite, and for each. -/
structure SearchesList (index : Index ι α) (vs : List α) (found others : Selection) (each : α → Selection) :
    Prop where
  isIn : index.search .isIn ("::".intercalate (vs.map Attribute.label)) = .ok found
  notIn : index.search .notIn ("::".intercalate (vs.map Attribute.label)) = .ok others
  equal : ∀ v ∈ vs, index.search .equal (Attribute.label v) = .ok (each v)
  entries_isIn : found.entries.Perm (index.entriesWhere fun x => x ∈ vs)
  entries_notIn : others.entries.Perm (index.entriesWhere fun x => x ∉ vs)
  entries_equal : ∀ v ∈ vs, (each v).entries.Perm (index.entriesWhere fun x => x = v)
  union_equal : ∀ v rest, vs = v :: rest → found = rest.foldl (fun s w => s.union (each w)) (each v)

structure Answers (index : Index ι α) (answer : Condition α → Selection) : Prop where
  search : ∀ op operand c, op.asksOrder = false → Condition.read op operand = .ok c →
    index.search op operand = .ok (answer c)
  entries : ∀ c, (answer c).entries.Perm (index.entriesWhere c.holds)
  single : ∀ v, answer (.among [v]) = answer (.equal v)
  append : ∀ vs v, answer (.among (vs ++ [v])) = (answer (.among vs)).union (answer (.equal v))

theorem Answers.foldl_union {index : Index ι α} {answer : Condition α → Selection} (h : index.Answers answer)
    (vs rest : List α) : answer (.among (vs ++ rest)) =
      rest.foldl (fun s w => s.union (answer (.equal w))) (answer (.among vs)) := by
  induction rest generalizing vs with
  | nil => rw [List.append_nil, List.foldl_nil]
  | cons w rest ih => rw [List.append_cons, ih, List.foldl_cons, h.append]

theorem Answers.searchesList {t : ValueType} {index : Index ι t.Carrier}
    {answer : Condition t.Carrier → Selection} (h : index.Answers answer) {vs : List t.Carrier}
    (hnan : ∀ v ∈ vs, t.isNaN v = false) (hlist : Text.Listable (vs.map Attribute.label)) :
    index.SearchesList vs (answer (.among vs)) (answer (.outside vs)) fun v => answer (.equal v) where
  isIn := h.search _ _ _ rfl (congrArg (Except.map Condition.among) (Condition.readValues_labels hnan hlist))
  notIn := h.search _ _ _ rfl (congrArg (Except.map Condition.outside) (Condition.readValues_labels hnan hlist))
  equal v hv := h.search _ _ _ rfl (Condition.read_equal_label (hnan v hv))
  entries_isIn := h.entries (.among vs)
  entries_notIn := h.entries (.outside vs)
  entries_equal v _ := h.entries (.equal v)
  union_equal v rest hvs := by
    rw [hvs, ← h.single, ← h.foldl_union [v] rest]
    rfl

end Index

namespace HashIndex

variable {ι : Type} [Identifier ι] {t : ValueType} {index : HashIndex ι t.Carrier}

theorem entries_select (hi : index.WellFormed) (p : t.Carrier → Bool) :
    (index.select p).entries.Perm ((Index.hash index).entriesWhere p) := by
  rw [select_eq]
  change (index.chosen p).entries.Perm _
  rw [(finds_chosen p hi).entries]
  exact (index.perm_byLabel p).flatMap_right _

theorem answers_select (hi : index.WellFormed) : (Index.hash index).Answers fun c => index.select c.holds where
  search op operand c hop hread := by
    rw [Index.search, search, hop, if_neg Bool.false_ne_true, hread]
  entries c := entries_select hi c.holds
  single v := congrArg index.select (funext fun x => by simp [Condition.holds])
  append vs v := by
    rw [union_select hi]
    exact congrArg index.select (funext fun x => by simp [Condition.holds])

end HashIndex

namespace RangeIndex

variable {ι α : Type} [Identifier ι] [Attribute α] {index : RangeIndex ι α}

theorem entries_cut_locate (h : Ordered index.values) (c : Condition α) :
    (index.cut (locate index.values c)).entries = index.entriesWhere c.holds :=
  entries_of_places rfl ((Spans.places_proper _).trans (places_locate h c))

theorem union_nil_single (s : Span) : Spans.union [] (Spans.proper [s]) = Spans.proper [s] := by
  cases hs : s.nonempty with
  | false => simp [Spans.proper, Spans.union, Spans.sort, Spans.sweep, hs]
  | true => simp [Spans.proper, Spans.union, Spans.sort, Spans.sweep, Spans.sweepFrom, hs]

omit [Attribute α] in
theorem cut_union (index : RangeIndex ι α) {l r : Spans} (hl : Spans.Normal index.rowCount l)
    (hr : Spans.Normal index.rowCount r) : (index.cut l).union (index.cut r) = index.cut (l.union r) := by
  have hproper {s : Spans} (hs : Spans.Normal index.rowCount s) : s.proper = s :=
    List.filter_eq_self.2 fun x hx => decide_eq_true (hs.proper x hx)
  have hunion := hproper (Spans.normal_union hl hr)
  have hleft : index.IsCut (.of index.name index.backing l) := .of_apart hl.within hl.apart
  have hright : index.IsCut (.of index.name index.backing r) := .of_apart hr.within hr.apart
  rw [cut, cut, hleft.union_eq hright]
  simp only [Cut.of, Cut.union, hproper hl, hproper hr]
  rw [cut, Cut.of, hunion]

theorem answers_cut_locate (h : Ordered index.values) :
    (Index.range index).Answers fun c => index.cut (locate index.values c) where
  search op operand c _ hread := by
    rw [Index.search, search, hread]
  entries c := .of_eq (entries_cut_locate h c)
  single _ := congrArg index.cut (union_nil_single _)
  append vs v := by
    have hnormal (c : Condition α) : Spans.Normal index.rowCount (locate index.values c) :=
      index.length_values ▸ normal_locate h c
    rw [cut_union index (hnormal _) (hnormal _)]
    exact congrArg index.cut List.foldl_append

end RangeIndex

namespace Index

variable {ι : Type} [Identifier ι] {t : ValueType} {index : Index ι t.Carrier}

/-- The labels of a list of values, joined by double colons, select the rows whose value is in the list, which
are those that the labels select one by one; and for the opposite operator they select the other rows. -/
theorem exists_searchesList (hi : index.Reached) (hkind : index.kind ≠ .hashRange) {vs : List t.Carrier}
    (hnan : ∀ v ∈ vs, t.isNaN v = false) (hlist : Text.Listable (vs.map Attribute.label)) :
    ∃ found others each, index.SearchesList vs found others each := by
  cases index with
  | hash a => exact ⟨_, _, _, (HashIndex.answers_select hi.wellFormed).searchesList hnan hlist⟩
  | range a => exact ⟨_, _, _, (RangeIndex.answers_cut_locate hi.wellFormed).searchesList hnan hlist⟩
  | hashRange a => exact absurd rfl hkind

theorem exists_searchesList_colons :
    let hashed : Index UInt32 (ValueType.Carrier .string) :=
      hash (((HashIndex.empty "letter").addInto "d" [1] [.zero]).1.addInto ":c" [3] [.zero]).1
    let ranged : Index UInt32 (ValueType.Carrier .string) :=
      range (.ofRows "letter" ⟨1, 0⟩ (RangeIndex.zipRows [1, 3] ["d", ":c"] [.zero, .zero]))
    let vs : List (ValueType.Carrier .string) := ["a:b", ":c", "d:"]
    (∀ v ∈ vs, ValueType.isNaN .string v = false) ∧ Text.Listable (vs.map Attribute.label) ∧
      ∀ index ∈ [hashed, ranged], index.Reached ∧ index.kind ≠ .hashRange ∧
        ∃ found others : Selection, index.search .isIn "a:b:::c::d:" = .ok found ∧ found.ids = [3] ∧
          index.search .notIn "a:b:::c::d:" = .ok others ∧ others.ids = [1] := by
  intro hashed ranged vs
  have hnan : ∀ v ∈ vs, ValueType.isNaN .string v = false := fun _ _ => rfl
  have hlist : Text.Listable (vs.map Attribute.label) := ⟨by decide, by decide, by decide⟩
  have hbuild : RangeIndex.build "letter" ⟨1, 0⟩ [1, 3] ["d", ":c"] [.zero, .zero] = .ok
      (.ofRows "letter" ⟨1, 0⟩ (RangeIndex.zipRows [1, 3] ["d", ":c"] [.zero, .zero]) :
        RangeIndex UInt32 (ValueType.Carrier .string)) := rfl
  have hfirst := Reached.addBucketInto (ι := UInt32) (t := .string) (.empty .hash "letter" 0) "d" [1] [.zero]
  have hhashed : hashed.Reached := Reached.addBucketInto (t := .string) hfirst ":c" [3] [.zero]
  have hselected (index : Index UInt32 (ValueType.Carrier .string)) (hi : index.Reached)
      (hkind : index.kind ≠ .hashRange) (hin : index.entriesWhere (fun x => x ∈ vs) = [(3, .zero)])
      (hout : index.entriesWhere (fun x => x ∉ vs) = [(1, .zero)]) :
      ∃ found others : Selection, index.search .isIn "a:b:::c::d:" = .ok found ∧ found.ids = [3] ∧
        index.search .notIn "a:b:::c::d:" = .ok others ∧ others.ids = [1] := by
    obtain ⟨found, others, each, h⟩ := exists_searchesList (t := .string) hi hkind hnan hlist
    have hfound : found.entries = [(3, .zero)] := List.perm_singleton.1 (hin ▸ h.entries_isIn)
    have hothers : others.entries = [(1, .zero)] := List.perm_singleton.1 (hout ▸ h.entries_notIn)
    refine ⟨found, others, h.isIn, ?_, h.notIn, ?_⟩
    · rw [Selection.ids, hfound, List.map_singleton]
    · rw [Selection.ids, hothers, List.map_singleton]
  refine ⟨hnan, hlist, List.forall_mem_cons.2 ⟨⟨hhashed, by decide, ?_⟩,
    List.forall_mem_singleton.2 ⟨.build hbuild, by decide, ?_⟩⟩⟩
  · exact hselected _ hhashed (by decide) (by cbv) (by cbv)
  · exact hselected _ (.build hbuild) (by decide) (by cbv) (by cbv)

end Index

end WeightedStore
