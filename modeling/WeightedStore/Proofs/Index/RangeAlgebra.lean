import Mathlib.Data.Finset.Dedup
import WeightedStore.Proofs.Index.RangeSearch
import WeightedStore.Proofs.Selection.Runs

/-!
Set operations on selections of one range index. Whatever is put together from its searches is a cut
of its rows with intervals in normal form, and combines as a set of places. Where every row has an
id of its own, that is the same as combining the lists by id.
-/

namespace WeightedStore

namespace Cut

def positions (c : Cut) : Finset Nat := c.spans.places.toFinset

theorem mem_positions {c : Cut} {i : Nat} : i ∈ c.positions ↔ i ∈ c.spans.places :=
  List.mem_toFinset

theorem positions_intersection (a b : Cut) :
    (a.intersection b).positions = a.positions ∩ b.positions := by
  ext i
  rw [Finset.mem_inter, mem_positions, mem_positions, mem_positions]
  exact Spans.mem_places_intersection

theorem positions_union (a b : Cut) : (a.union b).positions = a.positions ∪ b.positions := by
  ext i
  rw [Finset.mem_union, mem_positions, mem_positions, mem_positions]
  exact Spans.mem_places_union

theorem card_positions {c : Cut} {n : Nat} (h : Spans.Normal n c.spans) :
    c.positions.card = c.spans.length := by
  rw [positions, List.toFinset_card_of_nodup (h.pairwise_places.imp Nat.ne_of_lt),
    Spans.length_places]

theorem isEmpty_iff {c : Cut} {n : Nat} (h : Spans.Normal n c.spans) :
    c.isEmpty = true ↔ c.spans.length = 0 := by
  obtain ⟨name, backing, spans⟩ := c
  cases spans with
  | nil => exact iff_of_true rfl rfl
  | cons s spans =>
    have hs := h.proper s List.mem_cons_self
    refine iff_of_false Bool.false_ne_true ?_
    change s.length + Spans.length spans ≠ 0
    rw [Span.length]
    omega

end Cut

namespace RangeIndex

variable {ι α : Type} [Identifier ι] {index : RangeIndex ι α}

structure IsCut (index : RangeIndex ι α) (c : Cut) : Prop where
  backing : c.backing = index.backing
  normal : Spans.Normal index.rowCount c.spans

namespace IsCut

variable {a b c : Cut}

theorem of_apart {spans : Spans} (hw : ∀ s ∈ spans, s.stop ≤ index.rowCount)
    (ha : spans.Pairwise fun s t => s.stop ≤ t.start) :
    index.IsCut (.of index.name index.backing spans) :=
  ⟨rfl, Spans.normal_proper hw ha⟩

theorem sameRows (ha : index.IsCut a) (hb : index.IsCut b) : a.sameRows b = true := by
  rw [Cut.sameRows, ha.backing, hb.backing, decide_eq_true_eq]

theorem intersection_eq (ha : index.IsCut a) (hb : index.IsCut b) :
    (Selection.cut a).intersection (.cut b) = .cut (a.intersection b) := by
  rw [Selection.intersection, if_pos (ha.sameRows hb)]

theorem union_eq (ha : index.IsCut a) (hb : index.IsCut b) :
    (Selection.cut a).union (.cut b) = .cut (a.union b) := by
  rw [Selection.union, if_pos (ha.sameRows hb)]

theorem intersection (ha : index.IsCut a) (hb : index.IsCut b) : index.IsCut (a.intersection b) :=
  ⟨ha.backing, Spans.normal_intersection ha.normal hb.normal⟩

theorem union (ha : index.IsCut a) (hb : index.IsCut b) : index.IsCut (a.union b) :=
  ⟨ha.backing, Spans.normal_union ha.normal hb.normal⟩

theorem mem_backing (hc : index.IsCut c) {e : Entry} (he : e ∈ c.entries) :
    e ∈ index.backing.entries := by
  rw [Cut.entries, hc.backing] at he
  obtain ⟨i, -, hi⟩ := List.mem_filterMap.1 he
  exact List.mem_of_getElem? hi

end IsCut

theorem filterMap_ite_eq {β : Type} {places : List Nat} (h : places.Nodup) (p : Nat) (e : β) :
    places.filterMap (fun i => if i = p then some e else none) = if p ∈ places then [e] else [] := by
  induction places with
  | nil => rfl
  | cons i places ih =>
    obtain ⟨hi, h⟩ := List.nodup_cons.1 h
    rw [List.filterMap_cons, ih h]
    by_cases hip : i = p
    · subst hip
      simp [hi]
    · simp [hip, Ne.symm hip]

theorem nodup_backing (h : index.ids.Nodup) : (index.backing.entries.map Prod.fst).Nodup := by
  have hrows : (index.rows.zip index.weights).map Prod.fst = index.rows :=
    List.map_fst_zip (by simp [rowCount])
  have hids : index.backing.entries.map Prod.fst = index.ids.map Identifier.wide := by
    rw [entries_backing, ids, ← congrArg (List.map (·.id)) hrows]
    simp only [List.map_map, Function.comp_def]
  rw [hids]
  exact h.map fun x y => Identifier.wide_injective x y

theorem IsCut.entriesOf_eq {c : Cut} (hc : index.IsCut c) (h : index.ids.Nodup) {p : Nat} {e : Entry}
    (hp : index.backing.entries[p]? = some e) :
    entriesOf e.1 c.entries = if p ∈ c.spans.places then [e] else [] := by
  have hpick (i : Nat) : (index.backing.entries[i]?).filter (fun x => x.1 = e.1) =
      if i = p then some e else none := by
    by_cases hip : i = p
    · subst hip
      simp [hp, Option.filter]
    · rw [if_neg hip, Option.filter_eq_none_iff]
      -- two places of one id would be two rows of one id
      intro x hx hxe
      have hlt := (List.getElem?_eq_some_iff.1 hx).1
      refine hip ((List.getElem?_inj (by simpa using hlt) (nodup_backing h)).1 ?_)
      rw [List.getElem?_map, List.getElem?_map, hx, hp]
      simpa using hxe
  rw [entriesOf, Cut.entries, hc.backing, List.filter_filterMap]
  simp only [hpick]
  exact filterMap_ite_eq (hc.normal.pairwise_places.imp Nat.ne_of_lt) p e

theorem exists_place_of_id (h : index.ids.Nodup) (id : UInt64) :
    ∃ (p : Nat) (e : Entry), ∀ c, index.IsCut c →
      entriesOf id c.entries = if p ∈ c.spans.places then [e] else [] := by
  by_cases hmem : ∃ e ∈ index.backing.entries, e.1 = id
  · obtain ⟨e, he, rfl⟩ := hmem
    obtain ⟨p, hp⟩ := List.mem_iff_getElem?.1 he
    exact ⟨p, e, fun c hc => hc.entriesOf_eq h hp⟩
  · -- a place past the rows, which no cut covers
    refine ⟨index.rowCount, (id, .zero), fun c hc => ?_⟩
    have hpast : index.rowCount ∉ c.spans.places := fun hp =>
      Nat.lt_irrefl _ (hc.normal.lt_of_mem_places hp)
    rw [if_neg hpast, List.eq_nil_iff_forall_not_mem]
    intro e he
    exact hmem ⟨e, hc.mem_backing (mem_entriesOf.1 he).1, (mem_entriesOf.1 he).2⟩

variable [Attribute α]

/-- What is selected from one state of an index: the answers of its searches, and all that set
operations make of them. -/
inductive Yields (index : RangeIndex ι α) : Selection → Prop
  | search {op : Operator} {operand : String} {s : Selection} :
      index.search op operand = .ok s → Yields index s
  | searchAll : Yields index index.searchAll
  | intersection {l r : Selection} : Yields index l → Yields index r → Yields index (l.intersection r)
  | union {l r : Selection} : Yields index l → Yields index r → Yields index (l.union r)

theorem Yields.exists_cut (hi : index.Reached) {s : Selection} (h : index.Yields s) :
    ∃ c, s = .cut c ∧ index.IsCut c := by
  induction h with
  | search h =>
    obtain ⟨condition, rfl⟩ := cut_of_search h
    have hnormal := normal_locate hi.ordered condition
    rw [length_values] at hnormal
    exact ⟨_, rfl, IsCut.of_apart hnormal.within hnormal.apart⟩
  | searchAll =>
    exact ⟨_, rfl, IsCut.of_apart (by simp) (List.pairwise_singleton _ _)⟩
  | intersection _ _ ihl ihr =>
    obtain ⟨a, rfl, ha⟩ := ihl
    obtain ⟨b, rfl, hb⟩ := ihr
    exact ⟨_, ha.intersection_eq hb, ha.intersection hb⟩
  | union _ _ ihl ihr =>
    obtain ⟨a, rfl, ha⟩ := ihl
    obtain ⟨b, rfl, hb⟩ := ihr
    exact ⟨_, ha.union_eq hb, ha.union hb⟩

/-- However deep searches and set operations are nested, the intervals stay within the rows, apart
and in ascending order, none of them empty; and selections combine as sets of places. -/
theorem yields_sections (hi : index.Reached) {l r : Selection} (hl : index.Yields l)
    (hr : index.Yields r) :
    ∃ a b both either : Cut,
      l = .cut a ∧ r = .cut b ∧ l.intersection r = .cut both ∧ l.union r = .cut either ∧
      (∀ s ∈ a.spans, s.start < s.stop ∧ s.stop ≤ index.rowCount) ∧
      a.spans.Pairwise (fun s t => s.start < t.start) ∧
      a.spans.Pairwise (fun s t => s.places.Disjoint t.places) ∧
      both.positions = a.positions ∩ b.positions ∧
      either.positions = a.positions ∪ b.positions ∧
      l.length = a.positions.card ∧
      (a.isEmpty = true ↔ l.length = 0) := by
  obtain ⟨a, rfl, ha⟩ := hl.exists_cut hi
  obtain ⟨b, rfl, hb⟩ := hr.exists_cut hi
  refine ⟨a, b, _, _, rfl, rfl, ha.intersection_eq hb, ha.union_eq hb,
    fun s hs => ⟨ha.normal.proper s hs, ha.normal.within s hs⟩, ha.normal.ascending,
    ha.normal.disjoint, a.positions_intersection b, a.positions_union b, ?_, ?_⟩
  · exact (Cut.card_positions ha.normal).symm
  · exact Cut.isEmpty_iff ha.normal

theorem yields_sections_touching :
    let index : RangeIndex UInt32 String :=
      ofRows "letter" ⟨1, 0⟩ (zipRows [7, 8, 9] ["d", "a", "c"] [.zero, .zero, .zero])
    let l := index.cut (locate index.values (.different "b"))
    let r := index.cut (locate index.values (.less "d"))
    index.Reached ∧ index.Yields l ∧ index.Yields r ∧
      ∃ a b both : Cut, l = .cut a ∧ r = .cut b ∧ l.intersection r = .cut both ∧
        a.spans = [⟨0, 1⟩, ⟨1, 3⟩] ∧ b.spans = [⟨0, 2⟩] ∧
        both.positions = a.positions ∩ b.positions ∧ l.length = a.positions.card := by
  intro index l r
  have hbuild : build "letter" ⟨1, 0⟩ [7, 8, 9] ["d", "a", "c"] [.zero, .zero, .zero] =
      .ok index := rfl
  have hnotEqual : index.search .notEqual "b" = .ok l := rfl
  have hless : index.search .less "d" = .ok r := rfl
  have hi : index.Reached := .build hbuild
  have hl : index.Yields l := .search hnotEqual
  have hr : index.Yields r := .search hless
  obtain ⟨a, b, both, -, ha, hb, hboth, -, -, -, -, hpositions, -, hlength, -⟩ :=
    yields_sections hi hl hr
  refine ⟨hi, hl, hr, a, b, both, ha, hb, hboth, ?_, ?_, hpositions, hlength⟩
  · obtain rfl := Selection.cut.inj ha
    cbv
  · obtain rfl := Selection.cut.inj hb
    cbv

/-- Where every row has an id of its own, selections of one index combine by places as their lists
combine by id. -/
theorem toListing_combined (hi : index.Reached) (hid : index.ids.Nodup) {l r : Selection}
    (hl : index.Yields l) (hr : index.Yields r) :
    (l.intersection r).toListing.entries = (l.toListing.intersection r.toListing).entries ∧
      (l.union r).toListing.entries = (l.toListing.union r.toListing).entries := by
  obtain ⟨a, rfl, ha⟩ := hl.exists_cut hi
  obtain ⟨b, rfl, hb⟩ := hr.exists_cut hi
  rw [ha.intersection_eq hb, ha.union_eq hb]
  -- both sides are lists by id, and the run of an id hangs on one place of the rows
  constructor
  · refine eq_of_entriesOf_eq (Listing.sorted _) (Listing.sorted _) fun id => ?_
    obtain ⟨p, e, h⟩ := exists_place_of_id hid id
    have hboth : p ∈ (a.intersection b).spans.places ↔ p ∈ a.spans.places ∧ p ∈ b.spans.places :=
      Spans.mem_places_intersection
    simp only [Listing.entriesOf_intersection, Selection.entries_toListing, entriesOf_sortById,
      Selection.entries, h _ (ha.intersection hb), h _ ha, h _ hb, hboth]
    by_cases hpa : p ∈ a.spans.places <;> by_cases hpb : p ∈ b.spans.places <;> simp [hpa, hpb]
  · refine eq_of_entriesOf_eq (Listing.sorted _) (Listing.sorted _) fun id => ?_
    obtain ⟨p, e, h⟩ := exists_place_of_id hid id
    have heither : p ∈ (a.union b).spans.places ↔ p ∈ a.spans.places ∨ p ∈ b.spans.places :=
      Spans.mem_places_union
    simp only [Listing.entriesOf_union, Selection.entries_toListing, entriesOf_sortById,
      Selection.entries, h _ (ha.union hb), h _ ha, h _ hb, heither]
    by_cases hpa : p ∈ a.spans.places <;> by_cases hpb : p ∈ b.spans.places <;> simp [hpa, hpb]

theorem toListing_combined_reordered :
    let index : RangeIndex UInt32 String :=
      ofRows "letter" ⟨1, 0⟩ (zipRows [7, 8, 9] ["d", "a", "c"] [.zero, .zero, .zero])
    let l := index.cut (locate index.values (.different "b"))
    let r := index.searchAll
    index.Reached ∧ index.ids.Nodup ∧ index.Yields l ∧ index.Yields r ∧
      (l.intersection r).toListing.entries = (l.toListing.intersection r.toListing).entries ∧
        (l.union r).toListing.entries = (l.toListing.union r.toListing).entries := by
  intro index l r
  have hbuild : build "letter" ⟨1, 0⟩ [7, 8, 9] ["d", "a", "c"] [.zero, .zero, .zero] =
      .ok index := rfl
  have hnotEqual : index.search .notEqual "b" = .ok l := rfl
  have hids : index.ids = [8, 9, 7] := by cbv
  have hi : index.Reached := .build hbuild
  have hid : index.ids.Nodup := by
    rw [hids]
    decide
  have hl : index.Yields l := .search hnotEqual
  exact ⟨hi, hid, hl, .searchAll, toListing_combined hi hid hl .searchAll⟩

end RangeIndex

end WeightedStore
