import Mathlib.Data.List.Permutation
import WeightedStore.Proofs.Selection.Runs

/-!
Selections of buckets under labels. Buckets that are put under labels of their own all stay, in the
order of the labels, and such a list is known from what is in it. Intersections and unions keep the
order; they go by labels, whatever the buckets under them hold.
-/

namespace WeightedStore

def Bucket.ids (b : Bucket) : List UInt64 := b.entries.map Prod.fst

namespace BucketSelection

abbrev InOrder (buckets : List (String × Bucket)) : Prop := buckets.Pairwise fun a b => a.1 < b.1

variable {label : String} {bucket : Bucket} {bs cs : List (String × Bucket)}

theorem eq_of_not_lt {a b : String} (h : ¬a < b) (h' : ¬b < a) : a = b :=
  String.le_antisymm (String.not_lt.1 h') (String.not_lt.1 h)

theorem InOrder.nodup (h : InOrder bs) : (bs.map Prod.fst).Nodup :=
  (List.pairwise_map.2 h).imp String.ne_of_lt

theorem InOrder.eq_of_perm (hb : InOrder bs) (hc : InOrder cs) (h : bs.Perm cs) : bs = cs :=
  h.eq_of_pairwise (fun _ _ _ _ hab hba => absurd hab (String.lt_asymm hba)) hb hc

theorem InOrder.eq_of_mem_iff (hb : InOrder bs) (hc : InOrder cs) (h : ∀ e, e ∈ bs ↔ e ∈ cs) :
    bs = cs :=
  hb.eq_of_perm hc ((List.perm_ext_iff_of_nodup hb.nodup.of_map hc.nodup.of_map).2 h)

theorem eq_or_mem_of_mem_put {e : String × Bucket} (h : e ∈ put label bucket bs) :
    e = (label, bucket) ∨ e ∈ bs := by
  fun_induction put label bucket bs with
  | case1 => exact Or.inl (List.mem_singleton.1 h)
  | case2 l b rest _ => exact List.mem_cons.1 h
  | case3 l b rest _ _ ih =>
    rcases List.mem_cons.1 h with rfl | h
    · exact Or.inr List.mem_cons_self
    · exact (ih h).imp_right (List.mem_cons_of_mem _)
  | case4 l b rest _ _ => exact (List.mem_cons.1 h).imp_right (List.mem_cons_of_mem _)

theorem inOrder_put (h : InOrder bs) : InOrder (put label bucket bs) := by
  fun_induction put label bucket bs with
  | case1 => exact List.pairwise_singleton _ _
  | case2 l b rest hlt =>
    refine List.pairwise_cons.2 ⟨fun e he => ?_, h⟩
    rcases List.mem_cons.1 he with rfl | he
    · exact hlt
    · exact String.lt_trans hlt ((List.pairwise_cons.1 h).1 e he)
  | case3 l b rest _ hgt ih =>
    obtain ⟨hl, hrest⟩ := List.pairwise_cons.1 h
    refine List.pairwise_cons.2 ⟨fun e he => ?_, ih hrest⟩
    rcases eq_or_mem_of_mem_put he with rfl | he
    · exact hgt
    · exact hl e he
  | case4 l b rest hlt hgt =>
    obtain rfl : label = l := eq_of_not_lt hlt hgt
    exact List.pairwise_cons.2 (List.pairwise_cons.1 h)

theorem perm_put (h : label ∉ bs.map Prod.fst) :
    (put label bucket bs).Perm ((label, bucket) :: bs) := by
  fun_induction put label bucket bs with
  | case1 => exact List.Perm.refl _
  | case2 l b rest _ => exact List.Perm.refl _
  | case3 l b rest _ _ ih =>
    exact ((ih fun hmem => h (List.mem_cons_of_mem _ hmem)).cons _).trans (List.Perm.swap _ _ _)
  | case4 l b rest hlt hgt =>
    obtain rfl : label = l := eq_of_not_lt hlt hgt
    exact absurd List.mem_cons_self h

def putAll (bs cs : List (String × Bucket)) : List (String × Bucket) :=
  cs.foldl (fun sorted (label, bucket) => put label bucket sorted) bs

theorem inOrder_putAll (h : InOrder bs) : InOrder (putAll bs cs) := by
  induction cs generalizing bs with
  | nil => exact h
  | cons c cs ih => exact ih (inOrder_put h)

theorem perm_putAll (h : ((bs ++ cs).map Prod.fst).Nodup) : (putAll bs cs).Perm (bs ++ cs) := by
  induction cs generalizing bs with
  | nil => rw [List.append_nil]; exact List.Perm.refl _
  | cons c cs ih =>
    have hmiddle : (bs ++ c :: cs).Perm (c :: bs ++ cs) := List.perm_middle
    have hnodup : ((c :: bs ++ cs).map Prod.fst).Nodup := (hmiddle.map _).nodup_iff.1 h
    have hnew : c.1 ∉ bs.map Prod.fst := by
      rw [List.cons_append, List.map_cons, List.map_append] at hnodup
      exact fun hmem => (List.nodup_cons.1 hnodup).1 (List.mem_append_left _ hmem)
    have hput : (put c.1 c.2 bs ++ cs).Perm (c :: bs ++ cs) := (perm_put hnew).append_right cs
    exact ((ih ((hput.map _).nodup_iff.2 hnodup)).trans hput).trans hmiddle.symm

variable {l r : BucketSelection}

theorem inOrder_ofBuckets (name : String) (bs : List (String × Bucket)) :
    InOrder (ofBuckets name bs).buckets := inOrder_putAll List.Pairwise.nil

theorem perm_ofBuckets (name : String) (h : (bs.map Prod.fst).Nodup) :
    (ofBuckets name bs).buckets.Perm bs := perm_putAll h

theorem mem_intersection {e : String × Bucket} :
    e ∈ (l.intersection r).buckets ↔ e ∈ l.buckets ∧ e.1 ∈ r.labels := by
  simp [intersection, List.mem_filter]

theorem inOrder_intersection (h : InOrder l.buckets) : InOrder (l.intersection r).buckets :=
  h.filter _

theorem inOrder_union (h : InOrder l.buckets) : InOrder (l.union r).buckets := inOrder_putAll h

theorem perm_union (hl : InOrder l.buckets) (hr : InOrder r.buckets) :
    (l.union r).buckets.Perm (l.buckets ++ r.buckets.filter fun e => e.1 ∉ l.labels) := by
  have hfilter : (r.buckets.filter fun (label, _) => !l.labels.contains label) =
      r.buckets.filter fun e => e.1 ∉ l.labels :=
    List.filter_congr fun e _ => by simp
  have hright : InOrder (r.buckets.filter fun e => e.1 ∉ l.labels) := hr.filter _
  rw [union, hfilter]
  refine perm_putAll ?_
  rw [List.map_append]
  refine List.nodup_append.2 ⟨hl.nodup, hright.nodup, ?_⟩
  rintro x hx _ hy rfl
  obtain ⟨e, he, rfl⟩ := List.mem_map.1 hy
  exact of_decide_eq_true (List.mem_filter.1 he).2 hx

theorem mem_union (hl : InOrder l.buckets) (hr : InOrder r.buckets) {e : String × Bucket} :
    e ∈ (l.union r).buckets ↔ e ∈ l.buckets ∨ e ∈ r.buckets ∧ e.1 ∉ l.labels := by
  rw [(perm_union hl hr).mem_iff, List.mem_append, List.mem_filter, decide_eq_true_eq]

theorem mem_ids {s : BucketSelection} {id : UInt64} :
    id ∈ (Selection.buckets s).ids ↔ ∃ e ∈ s.buckets, id ∈ e.2.ids := by
  simp only [Selection.ids, Selection.entries, entries, List.map_flatMap, List.mem_flatMap]
  rfl

theorem mem_ids_union (hl : InOrder l.buckets) (hr : InOrder r.buckets) {id : UInt64} :
    id ∈ (Selection.buckets (l.union r)).ids ↔
      id ∈ (Selection.buckets l).ids ∨ ∃ e ∈ r.buckets, e.1 ∉ l.labels ∧ id ∈ e.2.ids := by
  simp only [mem_ids, mem_union hl hr]
  constructor
  · rintro ⟨e, he | ⟨he, hlabel⟩, hid⟩
    · exact Or.inl ⟨e, he, hid⟩
    · exact Or.inr ⟨e, he, hlabel, hid⟩
  · rintro (⟨e, he, hid⟩ | ⟨e, he, hlabel, hid⟩)
    · exact ⟨e, Or.inl he, hid⟩
    · exact ⟨e, Or.inr ⟨he, hlabel⟩, hid⟩

theorem mem_ids_union_of_agree (hl : InOrder l.buckets) (hr : InOrder r.buckets)
    (hagree : ∀ e ∈ r.buckets, e.1 ∈ l.labels → e ∈ l.buckets) {id : UInt64} :
    id ∈ (Selection.buckets (l.union r)).ids ↔
      id ∈ (Selection.buckets l).ids ∨ id ∈ (Selection.buckets r).ids := by
  rw [mem_ids_union hl hr]
  constructor
  · rintro (hid | ⟨e, he, -, hid⟩)
    · exact Or.inl hid
    · exact Or.inr (mem_ids.2 ⟨e, he, hid⟩)
  · rintro (hid | hid)
    · exact Or.inl hid
    · obtain ⟨e, he, hid⟩ := mem_ids.1 hid
      by_cases hlabel : e.1 ∈ l.labels
      · exact Or.inl (mem_ids.2 ⟨e, hagree e he hlabel, hid⟩)
      · exact Or.inr ⟨e, he, hlabel, hid⟩

end BucketSelection

end WeightedStore
