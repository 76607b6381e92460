import WeightedStore.Attribute.Instances
import WeightedStore.Proofs.Attribute.StableSort
import WeightedStore.Selection.Basic

/-!
Combining selections run by run. In a list by id the entries of one id form a run; an intersection
keeps as much of a left run as the right one is long, a union adds to a left run what the right one
has beyond it. Runs determine the list.
-/

namespace WeightedStore

def entriesOf (id : UInt64) (entries : List Entry) : List Entry := entries.filter fun e => e.1 = id

theorem entriesOf_cons_self (a : Entry) (l : List Entry) :
    entriesOf a.1 (a :: l) = a :: entriesOf a.1 l := by
  simp [entriesOf]

theorem entriesOf_cons_of_ne {id : UInt64} {a : Entry} (h : a.1 ≠ id) (l : List Entry) :
    entriesOf id (a :: l) = entriesOf id l := by
  simp [entriesOf, h]

theorem mem_entriesOf {id : UInt64} {e : Entry} {l : List Entry} :
    e ∈ entriesOf id l ↔ e ∈ l ∧ e.1 = id := by
  simp [entriesOf]

theorem entriesOf_ne_nil_iff {id : UInt64} {l : List Entry} :
    entriesOf id l ≠ [] ↔ id ∈ l.map Prod.fst := by
  simp only [ne_eq, List.eq_nil_iff_forall_not_mem, mem_entriesOf, List.mem_map]
  push Not
  rfl

theorem entriesOf_eq_nil_of_lt {id : UInt64} {b : Entry} {r : List Entry}
    (hr : Ascending (b :: r)) (h : id < b.1) : entriesOf id (b :: r) = [] := by
  rw [List.eq_nil_iff_forall_not_mem]
  intro e he
  obtain ⟨hmem, rfl⟩ := mem_entriesOf.1 he
  exact absurd (Listing.le_of_ascending_cons hr hmem) (UInt64.not_le.2 h)

theorem entriesOf_sortById (id : UInt64) (entries : List Entry) :
    entriesOf id (sortById entries) = entriesOf id entries :=
  @Attribute.run_sortBy Entry UInt64 _ Prod.fst id entries

theorem sortById_of_ascending {entries : List Entry} (h : Ascending entries) :
    sortById entries = entries :=
  List.mergeSort_of_pairwise (h.imp fun hab => by simpa using hab)

theorem eq_of_entriesOf_eq {l r : List Entry} (hl : Ascending l) (hr : Ascending r)
    (h : ∀ id, entriesOf id l = entriesOf id r) : l = r := by
  have ordered {entries : List Entry} (h : Ascending entries) :
      Attribute.OrderedBy Prod.fst entries := h.imp decide_eq_true
  exact Attribute.eq_of_run_eq (ordered hl) (ordered hr) h

namespace Listing

theorem entriesOf_common {l r : List Entry} (hl : Ascending l) (hr : Ascending r) (id : UInt64) :
    entriesOf id (common l r) = (entriesOf id l).take (entriesOf id r).length := by
  fun_induction common l r with
  | case1 r => simp [entriesOf]
  | case2 l => simp [entriesOf]
  | case3 a l b r hab ih =>
    -- `a` is dropped: all that is left on the right has a greater id
    rw [ih (List.pairwise_cons.1 hl).2 hr]
    by_cases hid : a.1 = id
    · rw [← hid, entriesOf_eq_nil_of_lt hr hab]
      rfl
    · rw [entriesOf_cons_of_ne hid]
  | case4 a l b r _ hba ih =>
    rw [ih hl (List.pairwise_cons.1 hr).2]
    by_cases hid : b.1 = id
    · rw [← hid, entriesOf_eq_nil_of_lt hl hba, List.take_nil, List.take_nil]
    · rw [entriesOf_cons_of_ne hid]
  | case5 a l b r hab hba ih =>
    have heq : a.1 = b.1 := UInt64.le_antisymm (UInt64.not_lt.1 hba) (UInt64.not_lt.1 hab)
    have ih := ih (List.pairwise_cons.1 hl).2 (List.pairwise_cons.1 hr).2
    by_cases hid : a.1 = id
    · subst hid
      rw [entriesOf_cons_self, ih, entriesOf_cons_self, heq, entriesOf_cons_self]
      rfl
    · rw [entriesOf_cons_of_ne hid, ih, entriesOf_cons_of_ne hid,
        entriesOf_cons_of_ne (heq ▸ hid)]

theorem entriesOf_combined {l r : List Entry} (hl : Ascending l) (hr : Ascending r)
    (id : UInt64) : entriesOf id (combined l r) =
      entriesOf id l ++ (entriesOf id r).drop (entriesOf id l).length := by
  fun_induction combined l r with
  | case1 r => simp [entriesOf]
  | case2 l => simp [entriesOf]
  | case3 a l b r hab ih =>
    have ih := ih (List.pairwise_cons.1 hl).2 hr
    by_cases hid : a.1 = id
    · subst hid
      rw [entriesOf_cons_self, ih, entriesOf_cons_self, entriesOf_eq_nil_of_lt hr hab]
      simp
    · rw [entriesOf_cons_of_ne hid, ih, entriesOf_cons_of_ne hid]
  | case4 a l b r _ hba ih =>
    have ih := ih hl (List.pairwise_cons.1 hr).2
    by_cases hid : b.1 = id
    · subst hid
      rw [entriesOf_cons_self, ih, entriesOf_cons_self, entriesOf_eq_nil_of_lt hl hba]
      rfl
    · rw [entriesOf_cons_of_ne hid, ih, entriesOf_cons_of_ne hid]
  | case5 a l b r hab hba ih =>
    have heq : a.1 = b.1 := UInt64.le_antisymm (UInt64.not_lt.1 hba) (UInt64.not_lt.1 hab)
    have ih := ih (List.pairwise_cons.1 hl).2 (List.pairwise_cons.1 hr).2
    by_cases hid : a.1 = id
    · subst hid
      rw [entriesOf_cons_self, ih, entriesOf_cons_self, heq, entriesOf_cons_self]
      rfl
    · rw [entriesOf_cons_of_ne hid, ih, entriesOf_cons_of_ne hid,
        entriesOf_cons_of_ne (heq ▸ hid)]

theorem entriesOf_intersection (l r : Listing) (id : UInt64) :
    entriesOf id (l.intersection r).entries =
      (entriesOf id l.entries).take (entriesOf id r.entries).length :=
  entriesOf_common l.sorted r.sorted id

theorem entriesOf_union (l r : Listing) (id : UInt64) :
    entriesOf id (l.union r).entries =
      entriesOf id l.entries ++ (entriesOf id r.entries).drop (entriesOf id l.entries).length :=
  entriesOf_combined l.sorted r.sorted id

end Listing

namespace Selection

/-- Whether two selections come from one source, so that they are combined as they are. -/
def sameSource : Selection → Selection → Bool
  | buckets a, buckets b => a.name = b.name
  | cut a, cut b => a.sameRows b
  | _, _ => false

theorem intersection_of_sources {l r : Selection} (h : l.sameSource r = false) :
    l.intersection r = .listing (l.toListing.intersection r.toListing) := by
  cases l <;> cases r <;> simp_all [sameSource, intersection, toListing]

theorem union_of_sources {l r : Selection} (h : l.sameSource r = false) :
    l.union r = .listing (l.toListing.union r.toListing) := by
  cases l <;> cases r <;> simp_all [sameSource, union, toListing]

theorem name_toListing (s : Selection) : s.toListing.name = s.name := by
  cases s <;> rfl

theorem entries_toListing (s : Selection) : s.toListing.entries = sortById s.entries := by
  cases s with
  | listing l => exact (sortById_of_ascending l.sorted).symm
  | buckets b => rfl
  | cut c => rfl

theorem mem_ids_iff {s : Selection} {id : UInt64} :
    id ∈ s.ids ↔ entriesOf id (sortById s.entries) ≠ [] := by
  rw [entriesOf_sortById, entriesOf_ne_nil_iff]
  rfl

theorem mem_ids_listing_iff {l : Listing} {id : UInt64} :
    id ∈ (listing l).ids ↔ entriesOf id l.entries ≠ [] :=
  entriesOf_ne_nil_iff.symm

theorem mem_ids_toListing_iff {s : Selection} {id : UInt64} :
    id ∈ (listing s.toListing).ids ↔ id ∈ s.ids := by
  rw [mem_ids_listing_iff, entries_toListing, mem_ids_iff]

theorem mem_ids_listing_intersection {l r : Listing} {id : UInt64} :
    id ∈ (listing (l.intersection r)).ids ↔ id ∈ (listing l).ids ∧ id ∈ (listing r).ids := by
  simp only [mem_ids_listing_iff, Listing.entriesOf_intersection]
  simp [List.take_eq_nil_iff, and_comm]

theorem mem_ids_listing_union {l r : Listing} {id : UInt64} :
    id ∈ (listing (l.union r)).ids ↔ id ∈ (listing l).ids ∨ id ∈ (listing r).ids := by
  simp only [mem_ids_listing_iff, Listing.entriesOf_union]
  by_cases hnil : entriesOf id l.entries = [] <;> simp [hnil]

/-- Selections of different sources are combined as lists by id. Of each id an intersection keeps
as many of the left entries as both have, a union all left entries and the right ones beyond their
number; so no id is lost or made up, and the left weights come first. -/
theorem combined_by_runs {l r : Selection} (h : l.sameSource r = false) :
    ∃ both either : Listing,
      l.intersection r = .listing both ∧ l.union r = .listing either ∧
      both.name = l.name ∧ either.name = l.name ∧
      Ascending both.entries ∧ Ascending either.entries ∧
      ∀ id : UInt64,
        let left := entriesOf id (sortById l.entries)
        let right := entriesOf id (sortById r.entries)
        entriesOf id both.entries = left.take (min left.length right.length) ∧
        entriesOf id either.entries = left ++ right.drop left.length ∧
        (id ∈ (l.intersection r).ids ↔ id ∈ l.ids ∧ id ∈ r.ids) ∧
        (id ∈ (l.union r).ids ↔ id ∈ l.ids ∨ id ∈ r.ids) := by
  refine ⟨_, _, intersection_of_sources h, union_of_sources h, l.name_toListing, l.name_toListing,
    Listing.sorted _, Listing.sorted _, fun id => ?_⟩
  intro left right
  have hboth : entriesOf id (l.toListing.intersection r.toListing).entries =
      left.take right.length := by
    rw [Listing.entriesOf_intersection, l.entries_toListing, r.entries_toListing]
  have heither : entriesOf id (l.toListing.union r.toListing).entries =
      left ++ right.drop left.length := by
    rw [Listing.entriesOf_union, l.entries_toListing, r.entries_toListing]
  refine ⟨?_, heither, ?_, ?_⟩
  · rw [hboth, List.take_eq_take_min, Nat.min_comm]
  · rw [intersection_of_sources h, mem_ids_listing_iff, hboth, mem_ids_iff, mem_ids_iff]
    simp [left, right, List.take_eq_nil_iff, and_comm]
  · rw [union_of_sources h, mem_ids_listing_iff, heither, mem_ids_iff, mem_ids_iff]
    by_cases hnil : left = [] <;> simp [left, right, hnil]

theorem combined_by_runs_repeated :
    let light : Binary32 := .ofBits 0x3f800000
    let heavy : Binary32 := .ofBits 0x40000000
    let l := listing (.ofEntries "listed" [(7, light), (4, light), (4, heavy)])
    let r := buckets ⟨"kept", [("b", ⟨[(4, heavy), (4, heavy), (4, light)], heavy⟩)]⟩
    l.sameSource r = false ∧
      ∃ both either : Listing,
        l.intersection r = .listing both ∧ l.union r = .listing either ∧
        entriesOf 4 both.entries = [(4, light), (4, heavy)] ∧
        entriesOf 4 either.entries = [(4, light), (4, heavy), (4, light)] := by
  intro light heavy l r
  refine ⟨rfl, ?_⟩
  obtain ⟨both, either, hi, hu, -, -, -, -, hruns⟩ := combined_by_runs (l := l) (r := r) rfl
  obtain ⟨hb, he, -, -⟩ := hruns 4
  refine ⟨both, either, hi, hu, ?_, ?_⟩
  · rw [hb]
    cbv
  · rw [he]
    cbv

end Selection

end WeightedStore
