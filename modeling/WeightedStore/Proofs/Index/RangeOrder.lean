import WeightedStore.Index.Range
import WeightedStore.Proofs.Selection.NormalForm

/-!
The order of values in a range index. However an index came about, its values stand in ascending
order, so that every condition singles out the places where it holds, as intervals in normal form.
-/

namespace WeightedStore.RangeIndex

variable {ι α : Type}

section Order

variable [Attribute α] {values : List α}

abbrev Ordered (values : List α) : Prop :=
  values.Pairwise fun x y => Attribute.atMost x y = true

theorem ordered_ofRows (name : String) (stamp : Stamp) (rows : List (WeightedRow ι α)) :
    Ordered (ofRows name stamp rows).values := by
  rw [values_ofRows]
  exact List.pairwise_map.2 (pairwise_sortByValue rows)

theorem lt_lowerBound_iff (h : Ordered values) {i : Nat} {x : α} (hx : values[i]? = some x)
    (v : α) : i < lowerBound values v ↔ Attribute.before x v = true :=
  Bisect.lt_point_iff (h.imp fun hxy hy => Attribute.before_of_atMost_of_before hxy hy) hx

theorem lt_upperBound_iff (h : Ordered values) {i : Nat} {x : α} (hx : values[i]? = some x)
    (v : α) : i < upperBound values v ↔ Attribute.atMost x v = true :=
  Bisect.lt_point_iff (h.imp fun hxy hy => Attribute.atMost_trans _ _ _ hxy hy) hx

theorem lowerBound_le_length (values : List α) (v : α) : lowerBound values v ≤ values.length :=
  Bisect.point_le_length _ _

theorem upperBound_le_length (values : List α) (v : α) : upperBound values v ≤ values.length :=
  Bisect.point_le_length _ _

theorem lowerBound_le_upperBound (h : Ordered values) (v : α) :
    lowerBound values v ≤ upperBound values v := by
  by_contra hlt
  rw [Nat.not_le] at hlt
  -- the value at the upper bound would be before `v`, and its place before the upper bound
  have hi := Nat.lt_of_lt_of_le hlt (lowerBound_le_length values v)
  have hx := List.getElem?_eq_getElem hi
  have hbefore := (lt_lowerBound_iff h hx v).1 hlt
  exact Nat.lt_irrefl _ ((lt_upperBound_iff h hx v).2 (Attribute.atMost_of_before hbefore))

theorem normal_single {n start stop : Nat} (h : stop ≤ n) :
    Spans.Normal n (Spans.proper [⟨start, stop⟩]) :=
  Spans.normal_proper (by simpa using h) (List.pairwise_singleton _ _)

theorem normal_differentSpans (h : Ordered values) (v : α) :
    Spans.Normal values.length (differentSpans values v) := by
  refine Spans.normal_proper (fun s hs => ?_) ?_
  · rcases List.mem_cons.1 hs with rfl | hs
    · exact lowerBound_le_length values v
    · rw [List.mem_singleton.1 hs]
  · exact List.pairwise_pair.2 (lowerBound_le_upperBound h v)

theorem normal_locate (h : Ordered values) (c : Condition α) :
    Spans.Normal values.length (locate values c) := by
  cases c with
  | less v => exact normal_single (lowerBound_le_length values v)
  | atMost v => exact normal_single (upperBound_le_length values v)
  | greater v => exact normal_single (Nat.le_refl _)
  | atLeast v => exact normal_single (Nat.le_refl _)
  | equal v => exact normal_single (upperBound_le_length values v)
  | different v => exact normal_differentSpans h v
  | among vs =>
    exact Spans.normal_foldl_union (fun v => normal_single (upperBound_le_length values v))
      ⟨nofun, nofun, List.Pairwise.nil⟩
  | outside vs =>
    exact Spans.normal_foldl_intersection (normal_differentSpans h) (normal_single (Nat.le_refl _))

theorem places_single (s : Span) : Spans.places (Spans.proper [s]) = s.places := by
  rw [Spans.places_proper, Spans.places_cons, Spans.places, List.flatMap_nil, List.append_nil]

theorem mem_places_single {start stop i : Nat} :
    i ∈ Spans.places (Spans.proper [⟨start, stop⟩]) ↔ start ≤ i ∧ i < stop := by
  rw [places_single, Span.mem_places]

variable {i : Nat} {x : α}

theorem mem_places_equalSpan (h : Ordered values) (hx : values[i]? = some x) (v : α) :
    i ∈ Spans.places (equalSpan values v) ↔ x = v := by
  have hb := Attribute.before_eq_true_iff x v
  rw [equalSpan, mem_places_single, ← Nat.not_lt, lt_lowerBound_iff h hx, lt_upperBound_iff h hx, hb]
  constructor
  · rintro ⟨hn, hle⟩
    by_contra hne
    exact hn ⟨hle, hne⟩
  · rintro rfl
    exact ⟨fun hn => hn.2 rfl, Attribute.atMost_refl x⟩

theorem mem_places_differentSpans (h : Ordered values) (hx : values[i]? = some x) (v : α) :
    i ∈ Spans.places (differentSpans values v) ↔ x ≠ v := by
  have hi : i < values.length := (List.getElem?_eq_some_iff.1 hx).1
  have hb := Attribute.before_eq_true_iff x v
  have hmem : i ∈ Spans.places (differentSpans values v) ↔
      i < lowerBound values v ∨ ¬i < upperBound values v := by
    rw [differentSpans, Spans.places_proper, Spans.places_cons, Spans.places_cons, Spans.places]
    simp only [List.mem_append, Span.mem_places, List.flatMap_nil, List.not_mem_nil, or_false]
    omega
  rw [hmem, lt_lowerBound_iff h hx, lt_upperBound_iff h hx, hb]
  constructor
  · rintro (⟨-, hne⟩ | hn) rfl
    · exact hne rfl
    · exact hn (Attribute.atMost_refl x)
  · intro hne
    by_cases hle : Attribute.atMost x v = true
    · exact Or.inl ⟨hle, hne⟩
    · exact Or.inr hle

theorem mem_places_locate (h : Ordered values) (hx : values[i]? = some x) (c : Condition α) :
    i ∈ Spans.places (locate values c) ↔ c.holds x = true := by
  have hi : i < values.length := (List.getElem?_eq_some_iff.1 hx).1
  have hall : i ∈ Spans.places (Spans.proper [⟨0, values.length⟩]) :=
    mem_places_single.2 ⟨Nat.zero_le i, hi⟩
  cases c with
  | less v =>
    rw [locate, mem_places_single, lt_lowerBound_iff h hx]
    simp [Condition.holds]
  | atMost v =>
    rw [locate, mem_places_single, lt_upperBound_iff h hx]
    simp [Condition.holds]
  | greater v =>
    rw [locate, mem_places_single, ← Nat.not_lt, lt_upperBound_iff h hx]
    simp [Condition.holds, Attribute.before, hi]
  | atLeast v =>
    rw [locate, mem_places_single, ← Nat.not_lt, lt_lowerBound_iff h hx]
    simp [Condition.holds, Attribute.before, hi]
  | equal v =>
    rw [locate, mem_places_equalSpan h hx]
    simp [Condition.holds]
  | different v =>
    rw [locate, mem_places_differentSpans h hx]
    simp [Condition.holds]
  | among vs =>
    rw [locate, Spans.mem_places_foldl_union]
    simp only [mem_places_equalSpan h hx, Condition.holds]
    simp [Spans.places]
  | outside vs =>
    rw [locate, Spans.mem_places_foldl_intersection]
    simp only [mem_places_differentSpans h hx, Condition.holds, hall]
    simp only [true_and, decide_eq_true_eq]
    exact ⟨fun hne hv => hne x hv rfl, fun hv v hmem hxv => hv (hxv ▸ hmem)⟩

def placesWhere (values : List α) (p : α → Bool) : List Nat :=
  (List.range values.length).filter fun i => values[i]?.any p

theorem places_locate (h : Ordered values) (c : Condition α) :
    Spans.places (locate values c) = placesWhere values c.holds := by
  refine (normal_locate h c).places_eq_filter fun i hi => ?_
  have hx := List.getElem?_eq_getElem hi
  rw [mem_places_locate h hx, hx]
  rfl

end Order

end WeightedStore.RangeIndex
