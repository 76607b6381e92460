import Mathlib.Data.Finset.Card
import WeightedStore.Selection.Cut

/-!
The normal form of sets of places: intervals with a place in them, apart from each other and in
ascending order. Intersections and unions are in normal form, and a list of intervals in normal form
names each of its places once, in ascending order.
-/

namespace WeightedStore.Spans

/-- Intervals in normal form over the first `n` places. Neighbours may touch. -/
structure Normal (n : Nat) (spans : Spans) : Prop where
  proper : ∀ s ∈ spans, s.start < s.stop
  within : ∀ s ∈ spans, s.stop ≤ n
  apart : spans.Pairwise fun s t => s.stop ≤ t.start

variable {n : Nat} {spans l r : Spans}

namespace Normal

theorem ascending (h : Normal n spans) : spans.Pairwise fun s t => s.start < t.start :=
  h.apart.imp_of_mem fun hs _ hst => Nat.lt_of_lt_of_le (h.proper _ hs) hst

theorem disjoint (h : Normal n spans) : spans.Pairwise fun s t => s.places.Disjoint t.places := by
  refine h.apart.imp fun {s t} hst i hs ht => ?_
  rw [Span.mem_places] at hs ht
  omega

theorem lt_of_mem_places (h : Normal n spans) {i : Nat} (hi : i ∈ places spans) : i < n := by
  obtain ⟨s, hs, hi⟩ := mem_places.1 hi
  exact Nat.lt_of_lt_of_le (Span.mem_places.1 hi).2 (h.within s hs)

theorem pairwise_places (h : Normal n spans) : (places spans).Pairwise (· < ·) := by
  refine List.pairwise_flatMap.2 ⟨fun s _ => List.pairwise_lt_range', h.apart.imp ?_⟩
  intro s t hst i hi j hj
  exact Nat.lt_of_lt_of_le (Span.mem_places.1 hi).2 (Nat.le_trans hst (Span.mem_places.1 hj).1)

theorem places_eq_filter (h : Normal n spans) {p : Nat → Bool}
    (hp : ∀ i, i < n → (i ∈ places spans ↔ p i = true)) :
    places spans = (List.range n).filter p := by
  have hr : ((List.range n).filter p).Pairwise (· < ·) := List.pairwise_lt_range.filter p
  refine List.Perm.eq_of_pairwise (fun i j _ _ hij hji => absurd hij (Nat.lt_asymm hji))
    h.pairwise_places hr ((List.perm_ext_iff_of_nodup ?_ ?_).2 fun i => ?_)
  · exact h.pairwise_places.imp Nat.ne_of_lt
  · exact hr.imp Nat.ne_of_lt
  · rw [List.mem_filter, List.mem_range]
    exact ⟨fun hi => ⟨h.lt_of_mem_places hi, (hp i (h.lt_of_mem_places hi)).1 hi⟩,
      fun hi => (hp i hi.1).2 hi.2⟩

end Normal

theorem normal_proper (hw : ∀ s ∈ spans, s.stop ≤ n)
    (ha : spans.Pairwise fun s t => s.stop ≤ t.start) : Normal n (proper spans) where
  proper s hs := by simpa [Span.nonempty] using (List.mem_filter.1 hs).2
  within s hs := hw s (List.mem_filter.1 hs).1
  apart := ha.filter _

def Separate (s t : Span) : Prop := s.stop ≤ t.start ∨ t.stop ≤ s.start

theorem Separate.symm {s t : Span} (h : Separate s t) : Separate t s := Or.symm h

theorem normal_sort (hp : ∀ s ∈ spans, s.start < s.stop) (hw : ∀ s ∈ spans, s.stop ≤ n)
    (hs : spans.Pairwise Separate) : Normal n (sort spans) := by
  have hmem : ∀ s, s ∈ sort spans ↔ s ∈ spans := fun s => List.mem_mergeSort
  have hsep : (sort spans).Pairwise Separate :=
    (List.mergeSort_perm spans Span.earlier).symm.pairwise hs Separate.symm
  refine ⟨fun s h => hp s ((hmem s).1 h), fun s h => hw s ((hmem s).1 h), ?_⟩
  refine ((pairwise_sort spans).and hsep).imp_of_mem fun {s t} h h' ⟨hle, hst⟩ => ?_
  have hs := hp s ((hmem s).1 h)
  have ht := hp t ((hmem t).1 h')
  -- were `t` the one to end first, it would start first too
  unfold Separate at hst
  omega

theorem pairwise_separate_clip (hl : Normal n l) (hr : Normal n r) :
    (l.flatMap fun s => r.map s.clip).Pairwise Separate := by
  refine List.pairwise_flatMap.2 ⟨fun s _ => ?_, hl.apart.imp fun {s t} hst => ?_⟩
  · refine List.pairwise_map.2 (hr.apart.imp fun {t u} htu => Or.inl ?_)
    exact (Nat.min_le_right _ _).trans (htu.trans (Nat.le_max_right _ _))
  · intro p hp q hq
    obtain ⟨u, -, rfl⟩ := List.mem_map.1 hp
    obtain ⟨v, -, rfl⟩ := List.mem_map.1 hq
    exact Or.inl ((Nat.min_le_left _ _).trans (hst.trans (Nat.le_max_left _ _)))

theorem normal_intersection (hl : Normal n l) (hr : Normal n r) : Normal n (intersection l r) := by
  have hpieces : Normal n (sort (proper (l.flatMap fun s => r.map s.clip))) := by
    refine normal_sort (fun s hs => ?_) (fun s hs => ?_) ((pairwise_separate_clip hl hr).filter _)
    · simpa [Span.nonempty] using (List.mem_filter.1 hs).2
    · obtain ⟨t, ht, hs⟩ := List.mem_flatMap.1 (List.mem_filter.1 hs).1
      obtain ⟨u, -, rfl⟩ := List.mem_map.1 hs
      exact (Nat.min_le_left _ _).trans (hl.within t ht)
  exact normal_proper hpieces.within hpieces.apart

theorem le_start_of_mem_sweepFrom {current s : Span}
    (h : (current :: spans).Pairwise fun s t => s.start ≤ t.start)
    (hs : s ∈ sweepFrom current spans) : current.start ≤ s.start := by
  induction spans generalizing current with
  | nil => rw [List.mem_singleton.1 hs]
  | cons next rest ih =>
    obtain ⟨hc, hn, hr⟩ := List.pairwise_cons.1 h |>.imp_right List.pairwise_cons.1
    rw [sweepFrom] at hs
    split at hs
    · have hp : (Span.mk current.start (max current.stop next.stop) :: rest).Pairwise
          fun s t => s.start ≤ t.start :=
        List.pairwise_cons.2 ⟨fun t ht => hc t (List.mem_cons_of_mem _ ht), hr⟩
      change (Span.mk current.start (max current.stop next.stop)).start ≤ s.start
      exact ih hp hs
    · rcases List.mem_cons.1 hs with rfl | hs
      · exact Nat.le_refl _
      · exact (hc next List.mem_cons_self).trans (ih (List.pairwise_cons.2 ⟨hn, hr⟩) hs)

theorem normal_sweepFrom {current : Span}
    (h : (current :: spans).Pairwise fun s t => s.start ≤ t.start)
    (hp : ∀ s ∈ current :: spans, s.start < s.stop) (hw : ∀ s ∈ current :: spans, s.stop ≤ n) :
    Normal n (sweepFrom current spans) := by
  induction spans generalizing current with
  | nil => exact ⟨hp, hw, List.pairwise_singleton _ _⟩
  | cons next rest ih =>
    obtain ⟨hc, hn, hr⟩ := List.pairwise_cons.1 h |>.imp_right List.pairwise_cons.1
    have hpc := hp current List.mem_cons_self
    have hwc := hw current List.mem_cons_self
    have hpn : ∀ s ∈ next :: rest, s.start < s.stop := fun s hs => hp s (List.mem_cons_of_mem _ hs)
    have hwn : ∀ s ∈ next :: rest, s.stop ≤ n := fun s hs => hw s (List.mem_cons_of_mem _ hs)
    rw [sweepFrom]
    split
    · -- the next one is taken in: the start stays, and with it the order
      refine ih (List.pairwise_cons.2 ⟨fun t ht => hc t (List.mem_cons_of_mem _ ht), hr⟩) ?_ ?_
      · rintro s (_ | ⟨_, hs⟩)
        · exact Nat.lt_of_lt_of_le hpc (Nat.le_max_left _ _)
        · exact hpn s (List.mem_cons_of_mem _ hs)
      · rintro s (_ | ⟨_, hs⟩)
        · exact Nat.max_le.2 ⟨hwc, hwn next List.mem_cons_self⟩
        · exact hwn s (List.mem_cons_of_mem _ hs)
    · rename_i hgap
      have hrest := ih (List.pairwise_cons.2 ⟨hn, hr⟩) hpn hwn
      refine ⟨?_, ?_, List.pairwise_cons.2 ⟨fun s hs => ?_, hrest.apart⟩⟩
      · exact List.forall_mem_cons.2 ⟨hpc, hrest.proper⟩
      · exact List.forall_mem_cons.2 ⟨hwc, hrest.within⟩
      · have := le_start_of_mem_sweepFrom (List.pairwise_cons.2 ⟨hn, hr⟩) hs
        omega

theorem normal_union (hl : Normal n l) (hr : Normal n r) : Normal n (union l r) := by
  have hp : ∀ s ∈ sort (l ++ r), s.start < s.stop := fun s hs =>
    (List.mem_append.1 (List.mem_mergeSort.1 hs)).elim (hl.proper s) (hr.proper s)
  have hw : ∀ s ∈ sort (l ++ r), s.stop ≤ n := fun s hs =>
    (List.mem_append.1 (List.mem_mergeSort.1 hs)).elim (hl.within s) (hr.within s)
  have hs := pairwise_sort (l ++ r)
  rw [union]
  cases h : sort (l ++ r) with
  | nil => exact normal_proper (by simp [sweep]) List.Pairwise.nil
  | cons first rest =>
    rw [h] at hp hw hs
    have hsweep := normal_sweepFrom hs hp hw
    exact normal_proper hsweep.within hsweep.apart

section Fold

variable {β : Type} {f : β → Spans} {found : Spans} {vs : List β}

theorem normal_foldl_union (hf : ∀ v, Normal n (f v)) (h : Normal n found) :
    Normal n (vs.foldl (fun found v => union found (f v)) found) := by
  induction vs generalizing found with
  | nil => exact h
  | cons v vs ih => exact ih (normal_union h (hf v))

theorem mem_places_foldl_union {i : Nat} :
    i ∈ places (vs.foldl (fun found v => union found (f v)) found) ↔
      i ∈ places found ∨ ∃ v ∈ vs, i ∈ places (f v) := by
  induction vs generalizing found with
  | nil => simp
  | cons v vs ih =>
    rw [List.foldl_cons, ih, mem_places_union, or_assoc]
    simp only [List.mem_cons, exists_eq_or_imp]

theorem normal_foldl_intersection (hf : ∀ v, Normal n (f v)) (h : Normal n found) :
    Normal n (vs.foldl (fun found v => intersection found (f v)) found) := by
  induction vs generalizing found with
  | nil => exact h
  | cons v vs ih => exact ih (normal_intersection h (hf v))

theorem mem_places_foldl_intersection {i : Nat} :
    i ∈ places (vs.foldl (fun found v => intersection found (f v)) found) ↔
      i ∈ places found ∧ ∀ v ∈ vs, i ∈ places (f v) := by
  induction vs generalizing found with
  | nil => simp
  | cons v vs ih =>
    rw [List.foldl_cons, ih, mem_places_intersection, and_assoc]
    simp only [List.mem_cons, forall_eq_or_imp]

end Fold

end WeightedStore.Spans
