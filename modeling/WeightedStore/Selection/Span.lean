/-!
Sets of places as lists of intervals. A list in normal form has intervals with a place in them,
apart from each other and in ascending order; intersection and union give such lists again.
-/

namespace WeightedStore

/-- The places from `start` to before `stop`. -/
structure Span where
  start : Nat
  stop : Nat
  deriving DecidableEq, Repr

namespace Span

def length (s : Span) : Nat := s.stop - s.start

def places (s : Span) : List Nat := List.range' s.start s.length

def nonempty (s : Span) : Bool := s.start < s.stop

def clip (s t : Span) : Span := ⟨max s.start t.start, min s.stop t.stop⟩

def earlier (s t : Span) : Bool := s.start < t.start || (s.start = t.start && s.stop ≤ t.stop)

@[simp] theorem length_places (s : Span) : s.places.length = s.length := by
  simp [places]

theorem mem_places {s : Span} {i : Nat} : i ∈ s.places ↔ s.start ≤ i ∧ i < s.stop := by
  simp only [places, length, List.mem_range'_1]
  omega

theorem mem_places_clip {s t : Span} {i : Nat} :
    i ∈ (s.clip t).places ↔ i ∈ s.places ∧ i ∈ t.places := by
  simp only [mem_places, clip]
  omega

theorem places_eq_nil_iff (s : Span) : s.places = [] ↔ s.nonempty = false := by
  simp [places, length, nonempty, Nat.sub_eq_zero_iff_le]

theorem start_le_of_earlier {s t : Span} (h : s.earlier t = true) : s.start ≤ t.start := by
  simp only [earlier, Bool.or_eq_true, Bool.and_eq_true, decide_eq_true_eq] at h
  omega

theorem earlier_trans (s t u : Span) (h : s.earlier t = true) (h' : t.earlier u = true) :
    s.earlier u = true := by
  simp only [earlier, Bool.or_eq_true, Bool.and_eq_true, decide_eq_true_eq] at h h' ⊢
  omega

theorem earlier_total (s t : Span) : (s.earlier t || t.earlier s) = true := by
  simp only [earlier, Bool.or_eq_true, Bool.and_eq_true, decide_eq_true_eq]
  omega

end Span

abbrev Spans := List Span

namespace Spans

def proper (spans : Spans) : Spans := spans.filter Span.nonempty

def sort (spans : Spans) : Spans := spans.mergeSort Span.earlier

def places (spans : Spans) : List Nat := spans.flatMap Span.places

def length (spans : Spans) : Nat := spans.foldr (fun s n => s.length + n) 0

def sweepFrom (current : Span) : Spans → Spans
  | [] => [current]
  | next :: rest =>
    if next.start ≤ current.stop then sweepFrom ⟨current.start, max current.stop next.stop⟩ rest
    else current :: sweepFrom next rest

def sweep : Spans → Spans
  | [] => []
  | first :: rest => sweepFrom first rest

def intersection (l r : Spans) : Spans :=
  proper (sort (proper (l.flatMap fun s => r.map s.clip)))

def union (l r : Spans) : Spans := proper (sweep (sort (l ++ r)))

theorem mem_places {spans : Spans} {i : Nat} :
    i ∈ places spans ↔ ∃ s ∈ spans, i ∈ s.places := List.mem_flatMap

@[simp] theorem places_cons (s : Span) (spans : Spans) :
    places (s :: spans) = s.places ++ places spans := rfl

@[simp] theorem places_append (l r : Spans) : places (l ++ r) = places l ++ places r :=
  List.flatMap_append

@[simp] theorem length_places (spans : Spans) : (places spans).length = length spans := by
  induction spans with
  | nil => rfl
  | cons s spans ih => rw [places_cons, List.length_append, ih, Span.length_places]; rfl

@[simp] theorem places_proper (spans : Spans) : places (proper spans) = places spans := by
  induction spans with
  | nil => rfl
  | cons s spans ih =>
    simp only [places, proper, List.filter_cons, List.flatMap_cons] at ih ⊢
    cases h : s.nonempty with
    | true => simp [ih]
    | false => simp [ih, (Span.places_eq_nil_iff s).2 h]

theorem mem_places_sort {spans : Spans} {i : Nat} : i ∈ places (sort spans) ↔ i ∈ places spans := by
  simp only [mem_places, sort, List.mem_mergeSort]

theorem pairwise_sort (spans : Spans) :
    (sort spans).Pairwise fun s t => s.start ≤ t.start :=
  (List.pairwise_mergeSort Span.earlier_trans Span.earlier_total spans).imp
    Span.start_le_of_earlier

theorem mem_places_sweepFrom {current : Span} {spans : Spans} {i : Nat}
    (h : (current :: spans).Pairwise fun s t => s.start ≤ t.start) :
    i ∈ places (sweepFrom current spans) ↔ i ∈ current.places ∨ i ∈ places spans := by
  induction spans generalizing current with
  | nil => simp [sweepFrom, places]
  | cons next rest ih =>
    obtain ⟨hc, hn, hr⟩ := List.pairwise_cons.1 h |>.imp_right List.pairwise_cons.1
    rw [sweepFrom]
    split
    · have hle := hc next List.mem_cons_self
      have hp : (Span.mk current.start (max current.stop next.stop) :: rest).Pairwise
          fun s t => s.start ≤ t.start :=
        List.pairwise_cons.2 ⟨fun s hs => hc s (List.mem_cons_of_mem _ hs), hr⟩
      rw [ih hp]
      simp only [places_cons, List.mem_append, Span.mem_places, ← or_assoc]
      exact or_congr_left (by omega)
    · rw [places_cons, List.mem_append, ih (List.pairwise_cons.2 ⟨hn, hr⟩), places_cons,
        List.mem_append]

theorem mem_places_sweep {spans : Spans} {i : Nat}
    (h : spans.Pairwise fun s t => s.start ≤ t.start) :
    i ∈ places (sweep spans) ↔ i ∈ places spans := by
  cases spans with
  | nil => rfl
  | cons s rest => rw [sweep, mem_places_sweepFrom h, places_cons, List.mem_append]

theorem mem_places_intersection {l r : Spans} {i : Nat} :
    i ∈ places (intersection l r) ↔ i ∈ places l ∧ i ∈ places r := by
  simp only [intersection, places_proper, mem_places_sort]
  simp only [mem_places, List.mem_flatMap, List.mem_map]
  constructor
  · rintro ⟨_, ⟨s, hs, t, ht, rfl⟩, hi⟩
    exact ⟨⟨s, hs, (Span.mem_places_clip.1 hi).1⟩, t, ht, (Span.mem_places_clip.1 hi).2⟩
  · rintro ⟨⟨s, hs, hi⟩, t, ht, hi'⟩
    exact ⟨s.clip t, ⟨s, hs, t, ht, rfl⟩, Span.mem_places_clip.2 ⟨hi, hi'⟩⟩

theorem mem_places_union {l r : Spans} {i : Nat} :
    i ∈ places (union l r) ↔ i ∈ places l ∨ i ∈ places r := by
  rw [union, places_proper, mem_places_sweep (pairwise_sort _), mem_places_sort, places_append,
    List.mem_append]

end Spans

end WeightedStore
