import WeightedStore.Proofs.Binary.Comparison
import WeightedStore.Proofs.Index.HashMerge
import WeightedStore.Proofs.Index.Histories
import WeightedStore.Proofs.Index.RangeMerge

/-!
What indexes refuse. A bucket or rows are refused for a key that is there, columns that do not fit and weights that
are none; a merge is refused for another name and for nothing else, since what reached indexes hold can always be
merged under one name. What is refused leaves the index as it was.
-/

namespace WeightedStore

namespace Steps

variable {σ τ ε : Type} {p : Prop} {s : σ}

/-- Whether a step is refused exactly under a condition, and then leaves the state as it was. -/
structure RefusedExactly (p : Prop) (s : σ) (result : σ × Option ε) : Prop where
  refused : result.2.isSome = true ↔ p
  unchanged : result.2.isSome = true → result.1 = s

theorem refusedExactly_refused (hp : p) (s : σ) (e : ε) : RefusedExactly p s (s, some e) :=
  ⟨iff_of_true rfl hp, fun _ => rfl⟩

theorem refusedExactly_taken (hp : ¬p) (s next : σ) : RefusedExactly p s (next, (none : Option ε)) :=
  ⟨iff_of_false Bool.false_ne_true hp, nofun⟩

theorem RefusedExactly.map {result : σ × Option ε} (h : RefusedExactly p s result) (f : σ → τ) :
    RefusedExactly p (f s) (result.map f id) :=
  ⟨h.refused, fun hrefused => congrArg f (h.unchanged hrefused)⟩

theorem RefusedExactly.keeps {result : σ × Option ε} (h : RefusedExactly p s result) {r : σ → Prop} (hs : r s)
    (htaken : ∀ next, outcome result = .ok next → r next) : r result.1 := by
  obtain ⟨next, refused⟩ := result
  cases refused with
  | none => exact htaken next rfl
  | some e =>
    obtain rfl : next = s := h.unchanged rfl
    exact hs

end Steps

open Steps

theorem not_exists_error_eq_ok {ε β : Type} {e : ε} : ¬∃ x : β, Except.error e = .ok x := by
  rintro ⟨x, h⟩
  cases h

namespace HashIndex

variable {ι α : Type} [Attribute α] {index other : HashIndex ι α}

theorem addInto_refusedExactly (index : HashIndex ι α) (value : α) (ids : List ι) (weights : List Binary32) :
    RefusedExactly (value ∈ index.values ∨ ids.length ≠ weights.length ∨
      ∃ w ∈ weights, w.isFinite = false ∨ w.value < 0) index (index.addInto value ids weights) := by
  have hcolumns := Pool.ofColumns_eq_ok_iff ids weights
  rw [mem_values_iff, ← Floating.not_forall_isWeight_iff, ← not_and_or, ← hcolumns]
  unfold addInto
  split
  · rename_i hpresent
    exact refusedExactly_refused (Or.inl hpresent) _ _
  · rename_i habsent
    cases Pool.ofColumns ids weights with
    | error fault => exact refusedExactly_refused (Or.inr not_exists_error_eq_ok) _ _
    | ok bucket =>
      refine refusedExactly_taken ?_ _ _
      rw [not_or, not_not]
      exact ⟨habsent, bucket, rfl⟩

variable [Identifier ι]

theorem mergeInto_refusedExactly (h : index.WellFormed) (ho : other.WellFormed) :
    RefusedExactly (other.name ≠ index.name) index (index.mergeInto other) := by
  by_cases hname : other.name = index.name
  · obtain ⟨merged, -, hmerged, -⟩ := exists_merge h ho hname
    rw [hmerged]
    exact refusedExactly_taken (not_not.2 hname) _ _
  · rw [mergeInto, if_pos (Ne.symm hname)]
    exact refusedExactly_refused hname _ _

end HashIndex

namespace RangeIndex

variable {ι α : Type} [Attribute α]

theorem exists_build_iff (name : String) (stamp : Stamp) {ids : List ι} {values : List α}
    {weights : List Binary32} : (∃ index, build name stamp ids values weights = .ok index) ↔
      (ids.length = values.length ∧ ids.length = weights.length) ∧ ∀ w ∈ weights, w.isWeight = true := by
  simp only [build_eq_ok_iff, exists_and_left, exists_eq, and_true]

theorem exists_merge_iff (stamp : Stamp) {index other : RangeIndex ι α} :
    (∃ merged, index.merge stamp other = .ok merged) ↔ other.name = index.name := by
  constructor
  · rintro ⟨merged, hmerged⟩
    by_contra hname
    simp [merge, mergeAll, Ne.symm hname] at hmerged
  · intro hname
    exact ⟨_, mergeAll_eq_ok (List.forall_mem_singleton.2 hname) stamp⟩

end RangeIndex

namespace HashRangeIndex

variable {ι : Type} [Identifier ι]

theorem addInto_refusedExactly {α : Type} [Attribute α] (operation : Nat) (index : HashRangeIndex ι α) (key : ι)
    (ids : List ι) (values : List α) (weights : List Binary32) :
    RefusedExactly (key ∈ index.ranges.map Prod.fst ∨
      (ids.length ≠ values.length ∨ ids.length ≠ weights.length) ∨
        ∃ w ∈ weights, w.isFinite = false ∨ w.value < 0) index
      (addInto operation index key ids values weights) := by
  rw [← Keyed.isSome_get?_iff, ← Floating.not_forall_isWeight_iff, ← not_and_or, ← not_and_or,
    ← RangeIndex.exists_build_iff (rangeName index.name key) (stampOf operation key)]
  unfold addInto
  split
  · rename_i hpresent
    exact refusedExactly_refused (Or.inl hpresent) _ _
  · rename_i habsent
    cases RangeIndex.build (rangeName index.name key) (stampOf operation key) ids values weights with
    | error e => exact refusedExactly_refused (Or.inr not_exists_error_eq_ok) _ _
    | ok range =>
      refine refusedExactly_taken ?_ _ _
      rw [not_or, not_not]
      exact ⟨habsent, range, rfl⟩

theorem mergeInto_refusedExactly {t : ValueType} {index other : HashRangeIndex ι t.Carrier}
    {cs ds : List (Contribution ι t.Carrier)} (h : index.Gathered cs) (ho : other.Gathered ds) (operation : Nat) :
    RefusedExactly (other.name ≠ index.name) index (mergeInto operation index other) := by
  by_cases hname : other.name = index.name
  · obtain ⟨merged, hmerged, -⟩ := h.holds.exists_mergeInto ho.holds hname operation
    rw [hmerged]
    exact refusedExactly_taken (not_not.2 hname) _ _
  · rw [mergeInto, if_pos (Ne.symm hname)]
    exact refusedExactly_refused hname _ _

end HashRangeIndex

namespace Index

variable {ι : Type} [Identifier ι] {t : ValueType}

theorem mergeInto_range_refusedExactly (operation : Nat) (index other : RangeIndex ι t.Carrier) :
    RefusedExactly (other.name ≠ index.name) (range index)
      (mergeInto operation (.range index) (.range other)) := by
  rw [ne_eq, ← RangeIndex.exists_merge_iff ⟨operation, 0⟩]
  simp only [mergeInto]
  cases index.merge ⟨operation, 0⟩ other with
  | error e => exact refusedExactly_refused not_exists_error_eq_ok _ _
  | ok merged => exact refusedExactly_taken (not_not.2 ⟨merged, rfl⟩) _ _

theorem mergeInto_refusedExactly (operation : Nat) {index other : Index ι t.Carrier} (h : index.Reached)
    (ho : other.Reached) (hkind : other.kind = index.kind) :
    RefusedExactly (other.name ≠ index.name) index (mergeInto operation index other) := by
  have hwellFormed := h.wellFormed
  have hother := ho.wellFormed
  have htraced := h.traced
  have hotherTraced := ho.traced
  cases index with
  | hash index =>
    cases other with
    | hash other => exact (HashIndex.mergeInto_refusedExactly hwellFormed hother).map hash
    | range other => cases hkind
    | hashRange other => cases hkind
  | range index =>
    cases other with
    | hash other => cases hkind
    | range other => exact mergeInto_range_refusedExactly operation index other
    | hashRange other => cases hkind
  | hashRange index =>
    cases other with
    | hash other => cases hkind
    | range other => cases hkind
    | hashRange other =>
      obtain ⟨cs, hcs⟩ := htraced
      obtain ⟨ds, hds⟩ := hotherTraced
      exact (HashRangeIndex.mergeInto_refusedExactly hcs hds operation).map hashRange

theorem Reached.addBucketInto {index : HashIndex ι t.Carrier} (h : (hash index).Reached) (value : t.Carrier)
    (ids : List ι) (weights : List Binary32) : (hash (index.addInto value ids weights).1).Reached := by
  have hrefused := HashIndex.addInto_refusedExactly index value ids weights
  refine hrefused.keeps (r := fun next => (hash next).Reached) h fun next hnext => ?_
  rw [HashIndex.outcome_addInto] at hnext
  exact .addBucket h hnext

theorem Reached.addRangeInto {operation : Nat} {index : HashRangeIndex ι t.Carrier} (h : (hashRange index).Reached)
    (key : ι) (ids : List ι) (values : List t.Carrier) (weights : List Binary32) :
    (hashRange (HashRangeIndex.addInto operation index key ids values weights).1).Reached := by
  have hrefused := HashRangeIndex.addInto_refusedExactly operation index key ids values weights
  refine hrefused.keeps (r := fun next => (hashRange next).Reached) h fun next hnext => ?_
  rw [HashRangeIndex.outcome_addInto] at hnext
  exact .addRange h hnext

/-- A step is refused exactly for a reason and what is refused is unchanged: adding for a key that is there, columns
of different lengths or a weight that is negative or not finite, and merging for different names. -/
theorem refusals_leave_unchanged (operation : Nat) :
    (∀ (index : HashIndex ι t.Carrier) (value : t.Carrier) (ids : List ι) (weights : List Binary32),
      RefusedExactly (value ∈ index.values ∨ ids.length ≠ weights.length ∨
        ∃ w ∈ weights, w.isFinite = false ∨ w.value < 0) index (index.addInto value ids weights)) ∧
      (∀ (index : HashRangeIndex ι t.Carrier) (key : ι) (ids : List ι) (values : List t.Carrier)
        (weights : List Binary32),
        RefusedExactly (key ∈ index.ranges.map Prod.fst ∨
          (ids.length ≠ values.length ∨ ids.length ≠ weights.length) ∨
            ∃ w ∈ weights, w.isFinite = false ∨ w.value < 0) index
          (HashRangeIndex.addInto operation index key ids values weights)) ∧
      ∀ index other : Index ι t.Carrier, index.Reached → other.Reached → other.kind = index.kind →
        RefusedExactly (other.name ≠ index.name) index (mergeInto operation index other) :=
  ⟨HashIndex.addInto_refusedExactly, HashRangeIndex.addInto_refusedExactly operation,
    fun _ _ h ho hkind => mergeInto_refusedExactly operation h ho hkind⟩

theorem refusals_leave_unchanged_renamed :
    let holding (name value : String) (id : UInt32) : HashRangeIndex UInt32 (ValueType.Carrier .string) :=
      (HashRangeIndex.addInto 0 (.empty name) 7 [id] [value] [.zero]).1
    let first := hashRange (holding "letters" "a" 1)
    let second := hashRange (holding "letters" "b" 2)
    let renamed := hashRange (holding "words" "b" 2)
    (mergeInto 1 first second).2.isSome = false ∧ (mergeInto 1 first renamed).2.isSome = true ∧
      (mergeInto 1 first renamed).1 = first := by
  intro holding first second renamed
  have hreached (name value : String) (id : UInt32) : (hashRange (holding name value id)).Reached :=
    Reached.addRangeInto (t := .string) (.empty .hashRange name 0) 7 [id] [value] [.zero]
  obtain ⟨-, -, hmerge⟩ := refusals_leave_unchanged (ι := UInt32) (t := .string) 1
  have hsecond := hmerge first second (hreached _ _ _) (hreached _ _ _) rfl
  have hrenamed := hmerge first renamed (hreached _ _ _) (hreached _ _ _) rfl
  have hrefused : (mergeInto 1 first renamed).2.isSome = true := hrenamed.refused.2 (by decide)
  exact ⟨Bool.eq_false_iff.2 fun h => hsecond.refused.1 h rfl, hrefused, hrenamed.unchanged hrefused⟩

end Index

end WeightedStore
