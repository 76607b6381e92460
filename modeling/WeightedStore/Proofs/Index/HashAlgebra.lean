import WeightedStore.Proofs.Index.HashSearch
import WeightedStore.Proofs.Selection.Runs

/-!
Set algebra on selections of hash indexes. Within one state of an index, selections combine as the
conditions that chose their buckets do: an intersection keeps the buckets that both sides chose, and
so misses an id that each side has from a bucket of its own. A union takes each bucket from one
side, the left one if it can. Within one state that loses nothing; of two indexes that only share
their name, it loses the right one's ids under a label of the left.
-/

namespace WeightedStore.HashIndex

variable {ι α : Type} [Identifier ι] [Attribute α]

/-- The selections that one state of an index yields, in any nesting of searches and set
operations. -/
inductive Yields (index : HashIndex ι α) : Selection → Prop
  | search {op : Operator} {operand : String} {s : Selection} :
      index.search op operand = .ok s → Yields index s
  | searchAll : Yields index index.searchAll
  | intersection {l r : Selection} : Yields index l → Yields index r → Yields index (l.intersection r)
  | union {l r : Selection} : Yields index l → Yields index r → Yields index (l.union r)

def InOneBucket (index : HashIndex ι α) (id : UInt64) : Prop :=
  ∀ e ∈ index.buckets, ∀ e' ∈ index.buckets,
    id ∈ (bucketOf e.2).ids → id ∈ (bucketOf e'.2).ids → e.1 = e'.1

section Algebra

variable {t : ValueType} {index : HashIndex ι t.Carrier}

theorem mem_chosen (hi : index.WellFormed) {p : t.Carrier → Bool} {c : String × Bucket} :
    c ∈ (index.chosen p).buckets ↔ ∃ e ∈ index.buckets, p e.1 = true ∧ labelled e = c := by
  rw [(perm_chosen p hi).mem_iff, List.mem_map]
  simp only [bucketsWhere, List.mem_filter, and_assoc]

theorem mem_labels_chosen (hi : index.WellFormed) {p : t.Carrier → Bool} {e : t.Carrier × Pool ι}
    (he : e ∈ index.buckets) : (labelled e).1 ∈ (index.chosen p).labels ↔ p e.1 = true := by
  rw [BucketSelection.labels, List.mem_map]
  constructor
  · rintro ⟨c, hc, hlabel⟩
    obtain ⟨e', -, hp, rfl⟩ := (mem_chosen hi).1 hc
    rwa [← Attribute.label_injective t hlabel]
  · exact fun hp => ⟨labelled e, (mem_chosen hi).2 ⟨e, he, hp, rfl⟩, rfl⟩

theorem intersection_chosen (hi : index.WellFormed) (p q : t.Carrier → Bool) :
    (index.chosen p).intersection (index.chosen q) = index.chosen fun v => p v && q v := by
  have hbuckets : ((index.chosen p).intersection (index.chosen q)).buckets =
      (index.chosen fun v => p v && q v).buckets := by
    refine (BucketSelection.inOrder_intersection (inOrder_chosen p)).eq_of_mem_iff
      (inOrder_chosen _) fun c => ?_
    rw [BucketSelection.mem_intersection, mem_chosen hi, mem_chosen hi]
    constructor
    · rintro ⟨⟨e, he, hp, rfl⟩, hlabel⟩
      exact ⟨e, he, Bool.and_eq_true_iff.2 ⟨hp, (mem_labels_chosen hi he).1 hlabel⟩, rfl⟩
    · rintro ⟨e, he, hpq, rfl⟩
      obtain ⟨hp, hq⟩ := Bool.and_eq_true_iff.1 hpq
      exact ⟨⟨e, he, hp, rfl⟩, (mem_labels_chosen hi he).2 hq⟩
  exact congrArg (BucketSelection.mk index.name) hbuckets

theorem union_chosen (hi : index.WellFormed) (p q : t.Carrier → Bool) :
    (index.chosen p).union (index.chosen q) = index.chosen fun v => p v || q v := by
  have hbuckets : ((index.chosen p).union (index.chosen q)).buckets =
      (index.chosen fun v => p v || q v).buckets := by
    refine (BucketSelection.inOrder_union (inOrder_chosen p)).eq_of_mem_iff
      (inOrder_chosen _) fun c => ?_
    rw [BucketSelection.mem_union (inOrder_chosen p) (inOrder_chosen q), mem_chosen hi,
      mem_chosen hi, mem_chosen hi]
    constructor
    · rintro (⟨e, he, hp, rfl⟩ | ⟨⟨e, he, hq, rfl⟩, -⟩)
      · exact ⟨e, he, Bool.or_eq_true_iff.2 (Or.inl hp), rfl⟩
      · exact ⟨e, he, Bool.or_eq_true_iff.2 (Or.inr hq), rfl⟩
    · rintro ⟨e, he, hpq, rfl⟩
      by_cases hp : p e.1 = true
      · exact Or.inl ⟨e, he, hp, rfl⟩
      · have hq : q e.1 = true := (Bool.or_eq_true_iff.1 hpq).resolve_left hp
        exact Or.inr ⟨⟨e, he, hq, rfl⟩, fun hlabel => hp ((mem_labels_chosen hi he).1 hlabel)⟩
  exact congrArg (BucketSelection.mk index.name) hbuckets

theorem intersection_select (hi : index.WellFormed) (p q : t.Carrier → Bool) :
    (index.select p).intersection (index.select q) = index.select fun v => p v && q v := by
  rw [select_eq, select_eq, select_eq, ← intersection_chosen hi p q]
  exact if_pos rfl

theorem union_select (hi : index.WellFormed) (p q : t.Carrier → Bool) :
    (index.select p).union (index.select q) = index.select fun v => p v || q v := by
  rw [select_eq, select_eq, select_eq, ← union_chosen hi p q]
  exact if_pos rfl

theorem Yields.exists_select (hi : index.WellFormed) {s : Selection} (hs : index.Yields s) :
    ∃ p : t.Carrier → Bool, s = index.select p := by
  induction hs with
  | search h =>
    rw [HashIndex.search] at h
    split at h
    · cases h
    · split at h
      · cases h
      · exact ⟨_, (Except.ok.inj h).symm⟩
  | searchAll => exact ⟨_, rfl⟩
  | intersection _ _ ihl ihr =>
    obtain ⟨p, rfl⟩ := ihl
    obtain ⟨q, rfl⟩ := ihr
    exact ⟨_, intersection_select hi p q⟩
  | union _ _ ihl ihr =>
    obtain ⟨p, rfl⟩ := ihl
    obtain ⟨q, rfl⟩ := ihr
    exact ⟨_, union_select hi p q⟩

theorem mem_ids_select (hi : index.WellFormed) {p : t.Carrier → Bool} {id : UInt64} :
    id ∈ (index.select p).ids ↔
      ∃ e ∈ index.buckets, p e.1 = true ∧ id ∈ (bucketOf e.2).ids := by
  rw [select_eq, BucketSelection.mem_ids]
  constructor
  · rintro ⟨c, hc, hid⟩
    obtain ⟨e, he, hp, rfl⟩ := (mem_chosen hi).1 hc
    exact ⟨e, he, hp, hid⟩
  · rintro ⟨e, he, hp, hid⟩
    exact ⟨labelled e, (mem_chosen hi).2 ⟨e, he, hp, rfl⟩, hid⟩

theorem mem_ids_intersection_select (hi : index.WellFormed) {p q : t.Carrier → Bool} {id : UInt64} :
    id ∈ ((index.select p).intersection (index.select q)).ids ↔
      ∃ e ∈ index.buckets, p e.1 = true ∧ q e.1 = true ∧ id ∈ (bucketOf e.2).ids := by
  rw [intersection_select hi, mem_ids_select hi]
  simp only [Bool.and_eq_true, and_assoc]

theorem mem_ids_shared_iff (hi : index.WellFormed) {p q : t.Carrier → Bool} {id : UInt64} :
    (∃ c ∈ (index.chosen p).buckets, c ∈ (index.chosen q).buckets ∧ id ∈ c.2.ids) ↔
      ∃ e ∈ index.buckets, p e.1 = true ∧ q e.1 = true ∧ id ∈ (bucketOf e.2).ids := by
  constructor
  · rintro ⟨c, hc, hc', hid⟩
    obtain ⟨e, he, hp, rfl⟩ := (mem_chosen hi).1 hc
    have hlabel : (labelled e).1 ∈ (index.chosen q).labels := List.mem_map_of_mem hc'
    exact ⟨e, he, hp, (mem_labels_chosen hi he).1 hlabel, hid⟩
  · rintro ⟨e, he, hp, hq, hid⟩
    exact ⟨labelled e, (mem_chosen hi).2 ⟨e, he, hp, rfl⟩, (mem_chosen hi).2 ⟨e, he, hq, rfl⟩, hid⟩

theorem mem_ids_union_select (hi : index.WellFormed) {p q : t.Carrier → Bool} {id : UInt64} :
    id ∈ ((index.select p).union (index.select q)).ids ↔
      id ∈ (index.select p).ids ∨ id ∈ (index.select q).ids := by
  rw [union_select hi, mem_ids_select hi, mem_ids_select hi, mem_ids_select hi]
  constructor
  · rintro ⟨e, he, hpq, hid⟩
    exact (Bool.or_eq_true_iff.1 hpq).imp (⟨e, he, ·, hid⟩) (⟨e, he, ·, hid⟩)
  · rintro (⟨e, he, hp, hid⟩ | ⟨e, he, hq, hid⟩)
    · exact ⟨e, he, Bool.or_eq_true_iff.2 (Or.inl hp), hid⟩
    · exact ⟨e, he, Bool.or_eq_true_iff.2 (Or.inr hq), hid⟩

/-- Selections of one state of an index have in common the ids of the buckets that both chose. An id
that sits in at most one bucket is there just in case it is in both, as in lists by id; an id of
several buckets may be in both selections and not in their intersection. -/
theorem mem_intersection_iff_shared_bucket (hi : index.Reached) {l r : Selection}
    (hl : index.Yields l) (hr : index.Yields r) :
    ∃ a b : BucketSelection, l = .buckets a ∧ r = .buckets b ∧ ∀ id : UInt64,
      (id ∈ (l.intersection r).ids ↔ ∃ e ∈ a.buckets, e ∈ b.buckets ∧ id ∈ e.2.ids) ∧
      (id ∈ (l.intersection r).ids → id ∈ l.ids ∧ id ∈ r.ids) ∧
      (index.InOneBucket id → (id ∈ (l.intersection r).ids ↔ id ∈ l.ids ∧ id ∈ r.ids)) ∧
      (id ∈ (Selection.listing (l.toListing.intersection r.toListing)).ids ↔
        id ∈ l.ids ∧ id ∈ r.ids) := by
  have hi := hi.wellFormed
  obtain ⟨p, rfl⟩ := hl.exists_select hi
  obtain ⟨q, rfl⟩ := hr.exists_select hi
  refine ⟨index.chosen p, index.chosen q, rfl, rfl, fun id => ?_⟩
  have hboth : id ∈ ((index.select p).intersection (index.select q)).ids →
      id ∈ (index.select p).ids ∧ id ∈ (index.select q).ids := by
    rw [mem_ids_intersection_select hi, mem_ids_select hi, mem_ids_select hi]
    rintro ⟨e, he, hp, hq, hid⟩
    exact ⟨⟨e, he, hp, hid⟩, ⟨e, he, hq, hid⟩⟩
  refine ⟨?_, hboth, fun hone => ⟨hboth, ?_⟩, ?_⟩
  · rw [mem_ids_intersection_select hi, mem_ids_shared_iff hi]
  · rw [mem_ids_intersection_select hi, mem_ids_select hi, mem_ids_select hi]
    rintro ⟨⟨e, he, hp, hid⟩, ⟨e', he', hq, hid'⟩⟩
    have hvalue : e.1 = e'.1 := hone e he e' he' hid hid'
    exact ⟨e, he, hp, hvalue ▸ hq, hid⟩
  · rw [Selection.mem_ids_listing_intersection, Selection.mem_ids_toListing_iff,
      Selection.mem_ids_toListing_iff]

/-- Red and blue have nothing in common, though id 4 is in both. -/
theorem intersection_misses_id_of_two_buckets :
    let index : HashIndex UInt32 String :=
      ⟨"color", [("blue", .ofWeighted [(4, .zero)]), ("red", .ofWeighted [(4, .zero)])]⟩
    let l := index.select fun v => v = "red"
    let r := index.select fun v => v = "blue"
    index.Reached ∧ index.search .equal "red" = .ok l ∧ index.search .equal "blue" = .ok r ∧
      ¬∀ id, id ∈ (l.intersection r).ids ↔ id ∈ l.ids ∧ id ∈ r.ids := by
  intro index l r
  let first : HashIndex UInt32 String := ⟨"color", [("red", .ofWeighted [(4, .zero)])]⟩
  have hfirst : (empty "color").add "red" [4] [.zero] = .ok first := rfl
  have hsecond : first.add "blue" [4] [.zero] = .ok index := rfl
  have hl : l.ids = [4] := by cbv
  have hr : r.ids = [4] := by cbv
  have hboth : (l.intersection r).ids = [] := by cbv
  refine ⟨.add (.add (.empty "color") hfirst) hsecond, rfl, rfl, fun h => ?_⟩
  have hid := (h 4).2 ⟨by simp [hl], by simp [hr]⟩
  rw [hboth] at hid
  cases hid

theorem mem_intersection_iff_shared_bucket_red :
    let index : HashIndex UInt32 String :=
      ⟨"color", [("blue", .ofWeighted [(4, .zero)]), ("red", .ofWeighted [(4, .zero), (5, .zero)])]⟩
    let l := index.select fun v => v = "red"
    let r := index.searchAll
    index.Reached ∧ index.Yields l ∧ index.Yields r ∧ index.InOneBucket 5 ∧
      4 ∈ (l.intersection r).ids ∧ 5 ∈ (l.intersection r).ids := by
  intro index l r
  let first : HashIndex UInt32 String := ⟨"color", [("red", .ofWeighted [(4, .zero), (5, .zero)])]⟩
  have hfirst : (empty "color").add "red" [4, 5] [.zero, .zero] = .ok first := rfl
  have hsecond : first.add "blue" [4] [.zero] = .ok index := rfl
  have hi : index.Reached := .add (.add (.empty "color") hfirst) hsecond
  have hsearch : index.search .equal "red" = .ok l := rfl
  have hl : index.Yields l := .search hsearch
  have hone : index.InOneBucket 5 := by
    simp [InOneBucket, index, bucketOf, Bucket.ids, Identifier.wide]
  obtain ⟨a, b, ha, hb, hids⟩ :=
    mem_intersection_iff_shared_bucket (t := .string) hi hl .searchAll
  obtain rfl := Selection.buckets.inj ha
  obtain rfl := Selection.buckets.inj hb
  refine ⟨hi, hl, .searchAll, hone, (hids 4).1.2 ?_, ((hids 5).2.2.1 hone).2 ⟨?_, ?_⟩⟩
  · refine ⟨("red", bucketOf (.ofWeighted [((4 : UInt32), .zero), (5, .zero)])), ?_, ?_, ?_⟩
    · exact List.mem_cons_self
    · exact List.mem_cons_of_mem _ List.mem_cons_self
    · decide
  · decide
  · decide

/-- Selections of two indexes of one name, be they states of one index or not. A union has the left
ids, and of the right ones those in a bucket whose label the left has not. Where equal labels stand
for equal buckets nothing is lost, nor within one state, nor in lists by id. -/
theorem mem_union_iff_unlabelled {κ : Type} [Identifier κ] {u : ValueType}
    {other : HashIndex κ u.Carrier} (hi : index.Reached) (ho : other.Reached)
    (hname : index.name = other.name) {l r : Selection} (hl : index.Yields l)
    (hr : other.Yields r) :
    ∃ a b : BucketSelection, l = .buckets a ∧ r = .buckets b ∧ ∀ id : UInt64,
      (id ∈ (l.union r).ids ↔ id ∈ l.ids ∨ ∃ e ∈ b.buckets, e.1 ∉ a.labels ∧ id ∈ e.2.ids) ∧
      ((∀ e ∈ b.buckets, e.1 ∈ a.labels → e ∈ a.buckets) →
        (id ∈ (l.union r).ids ↔ id ∈ l.ids ∨ id ∈ r.ids)) ∧
      (∀ s, index.Yields s → (id ∈ (l.union s).ids ↔ id ∈ l.ids ∨ id ∈ s.ids)) ∧
      (id ∈ (Selection.listing (l.toListing.union r.toListing)).ids ↔ id ∈ l.ids ∨ id ∈ r.ids) := by
  obtain ⟨p, rfl⟩ := hl.exists_select hi.wellFormed
  obtain ⟨q, rfl⟩ := hr.exists_select ho.wellFormed
  have hunion : (index.select p).union (other.select q) =
      .buckets ((index.chosen p).union (other.chosen q)) := if_pos hname
  refine ⟨index.chosen p, other.chosen q, rfl, rfl, fun id => ⟨?_, fun hagree => ?_,
    fun s hs => ?_, ?_⟩⟩
  · rw [hunion]
    exact BucketSelection.mem_ids_union (inOrder_chosen p) (inOrder_chosen q)
  · rw [hunion]
    exact BucketSelection.mem_ids_union_of_agree (inOrder_chosen p) (inOrder_chosen q) hagree
  · obtain ⟨p', rfl⟩ := hs.exists_select hi.wellFormed
    exact mem_ids_union_select hi.wellFormed
  · rw [Selection.mem_ids_listing_union, Selection.mem_ids_toListing_iff,
      Selection.mem_ids_toListing_iff]

theorem mem_union_iff_unlabelled_parts :
    let left : HashIndex UInt32 String := ⟨"color", [("red", .ofWeighted [(1, .zero)])]⟩
    let right : HashIndex UInt32 String :=
      ⟨"color", [("blue", .ofWeighted [(3, .zero)]), ("red", .ofWeighted [(2, .zero)])]⟩
    let l := left.select fun v => v = "red"
    let r := right.searchAll
    left.Reached ∧ right.Reached ∧ left.name = right.name ∧ left.Yields l ∧ right.Yields r ∧
      3 ∈ (l.union r).ids := by
  intro left right l r
  let first : HashIndex UInt32 String := ⟨"color", [("red", .ofWeighted [(2, .zero)])]⟩
  have hleft : (empty "color").add "red" [1] [.zero] = .ok left := rfl
  have hfirst : (empty "color").add "red" [2] [.zero] = .ok first := rfl
  have hright : first.add "blue" [3] [.zero] = .ok right := rfl
  have hi : left.Reached := .add (.empty "color") hleft
  have ho : right.Reached := .add (.add (.empty "color") hfirst) hright
  have hsearch : left.search .equal "red" = .ok l := rfl
  have hl : left.Yields l := .search hsearch
  refine ⟨hi, ho, rfl, hl, .searchAll, ?_⟩
  obtain ⟨a, b, ha, hb, hids⟩ :=
    mem_union_iff_unlabelled (t := .string) (u := .string) hi ho rfl hl .searchAll
  obtain rfl := Selection.buckets.inj ha
  obtain rfl := Selection.buckets.inj hb
  refine (hids 3).1.2 (Or.inr ⟨("blue", bucketOf (.ofWeighted [((3 : UInt32), .zero)])), ?_, ?_, ?_⟩)
  · exact List.mem_cons_self
  · decide
  · decide

/-- Of two parts of one index with different red ids, the right one's are lost. -/
theorem union_loses_ids_of_part :
    let left : HashIndex UInt32 String := ⟨"color", [("red", .ofWeighted [(1, .zero)])]⟩
    let right : HashIndex UInt32 String := ⟨"color", [("red", .ofWeighted [(2, .zero)])]⟩
    let l := left.select fun v => v = "red"
    let r := right.select fun v => v = "red"
    left.Reached ∧ right.Reached ∧ l.name = r.name ∧
      left.search .equal "red" = .ok l ∧ right.search .equal "red" = .ok r ∧
      (¬∀ id, id ∈ (l.union r).ids ↔ id ∈ l.ids ∨ id ∈ r.ids) ∧
      ¬∀ id, id ∈ (l.union r).ids ↔ id ∈ (r.union l).ids := by
  intro left right l r
  have hleft : (empty "color").add "red" [1] [.zero] = .ok left := rfl
  have hright : (empty "color").add "red" [2] [.zero] = .ok right := rfl
  have hr : r.ids = [2] := by cbv
  have hlr : (l.union r).ids = [1] := by cbv
  have hrl : (r.union l).ids = [2] := by cbv
  refine ⟨.add (.empty "color") hleft, .add (.empty "color") hright, rfl, rfl, rfl, fun h => ?_,
    fun h => ?_⟩
  · have hid := (h 2).2 (Or.inr (by simp [hr]))
    rw [hlr] at hid
    revert hid
    decide
  · have hid := (h 2).2 (by simp [hrl])
    rw [hlr] at hid
    revert hid
    decide

end Algebra

end WeightedStore.HashIndex
