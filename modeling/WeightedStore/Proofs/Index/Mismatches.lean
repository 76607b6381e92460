import WeightedStore.Proofs.Index.Parts
import WeightedStore.Proofs.Index.Refusals

/-!
Merges of several indexes of which some have another name. Such a merge is refused for the first of them. A
range index looks at all names beforehand and stays as it was; an index of another kind has by then merged
what comes before, and keeps it.
-/

namespace WeightedStore

theorem HashIndex.name_mergeInto {ι α : Type} [Identifier ι] [Attribute α] (index other : HashIndex ι α) :
    (index.mergeInto other).1.name = index.name := by
  have habsorb (s : HashIndex ι α) (e : α × Pool ι) (hs : s.name = index.name) :
      (s.absorb e).1.name = index.name := by
    obtain ⟨value, bucket⟩ := e
    rw [absorb]
    split
    · exact hs
    · split <;> exact hs
  unfold mergeInto
  split
  · rfl
  · exact Steps.run_fst (q := fun _ => True) (fun s e hs _ => habsorb s e hs) rfl (by simp)

theorem HashRangeIndex.name_mergeInto {ι α : Type} [Identifier ι] [Attribute α] (operation : Nat)
    (index other : HashRangeIndex ι α) : (mergeInto operation index other).1.name = index.name := by
  have habsorb (s : HashRangeIndex ι α) (e : ι × RangeIndex ι α) (hs : s.name = index.name) :
      (absorb operation s e).1.name = index.name := by
    obtain ⟨key, range⟩ := e
    rw [absorb]
    split
    · exact hs
    · split <;> exact hs
  unfold mergeInto
  split
  · rfl
  · exact Steps.run_fst (q := fun _ => True) (fun s e hs _ => habsorb s e hs) rfl (by simp)

theorem RangeIndex.mergeAll_of_mismatch {ι α : Type} [Attribute α] (stamp : Stamp)
    {index other : RangeIndex ι α} (front back : List (RangeIndex ι α)) (hfront : ∀ o ∈ front, o.name = index.name)
    (hother : other.name ≠ index.name) : index.mergeAll stamp (front ++ other :: back) =
      .error (.mergeMismatch .range index.name .range other.name) := by
  have hfind : (front ++ other :: back).find? (fun o => index.name ≠ o.name) = some other := by
    have hnone : front.find? (fun o => index.name ≠ o.name) = none :=
      List.find?_eq_none.2 fun o ho => by simp [hfront o ho]
    rw [List.find?_append, hnone, Option.none_or, List.find?_cons_of_pos]
    simp [Ne.symm hother]
  rw [mergeAll, hfind]

namespace Index

section Names

variable {ι α : Type} [Identifier ι] [Attribute α] (operation : Nat) {index other : Index ι α}

theorem name_kind_mergeInto (index other : Index ι α) :
    (mergeInto operation index other).1.name = index.name ∧
      (mergeInto operation index other).1.kind = index.kind := by
  cases index with
  | hash a =>
    cases other with
    | hash b => exact ⟨a.name_mergeInto b, rfl⟩
    | range b => exact ⟨rfl, rfl⟩
    | hashRange b => exact ⟨rfl, rfl⟩
  | range a =>
    cases other with
    | hash b => exact ⟨rfl, rfl⟩
    | range b =>
      rw [mergeInto]
      split
      · rename_i merged hmerged
        rw [RangeIndex.eq_concat_of_mergeAll hmerged]
        exact ⟨rfl, rfl⟩
      · exact ⟨rfl, rfl⟩
    | hashRange b => exact ⟨rfl, rfl⟩
  | hashRange a =>
    cases other with
    | hash b => exact ⟨rfl, rfl⟩
    | range b => exact ⟨rfl, rfl⟩
    | hashRange b => exact ⟨HashRangeIndex.name_mergeInto operation a b, rfl⟩

theorem mergeInto_of_mismatch (hkind : other.kind = index.kind) (hname : other.name ≠ index.name) :
    mergeInto operation index other =
      (index, some (.mergeMismatch index.kind index.name other.kind other.name)) := by
  cases index with
  | hash a =>
    cases other with
    | hash b =>
      have hmerge : a.mergeInto b = (a, some (.mergeMismatch .hash a.name .hash b.name)) :=
        if_pos (Ne.symm hname)
      rw [mergeInto, hmerge]
      rfl
    | range b => cases hkind
    | hashRange b => cases hkind
  | range a =>
    cases other with
    | hash b => cases hkind
    | range b =>
      have hmerge : a.merge ⟨operation, 0⟩ b = .error (.mergeMismatch .range a.name .range b.name) :=
        RangeIndex.mergeAll_of_mismatch _ [] [] (List.forall_mem_nil _) hname
      simp only [mergeInto, hmerge]
      rfl
    | hashRange b => cases hkind
  | hashRange a =>
    cases other with
    | hash b => cases hkind
    | range b => cases hkind
    | hashRange b =>
      have hmerge : HashRangeIndex.mergeInto operation a b =
          (a, some (.mergeMismatch .hashRange a.name .hashRange b.name)) := if_pos (Ne.symm hname)
      rw [mergeInto, hmerge]
      rfl

theorem mergeAll_eq_mergeEach (hkind : index.kind ≠ .range) (others : List (Index ι α)) :
    mergeAll operation index others = mergeEach operation index others := by
  cases index with
  | hash a => rfl
  | range a => exact absurd rfl hkind
  | hashRange a => rfl

end Names

section Refused

variable {ι : Type} [Identifier ι] {t : ValueType} (operation : Nat) {index : Index ι t.Carrier}
  {others front back : List (Index ι t.Carrier)} {other : Index ι t.Carrier}

theorem exists_mergeEach (h : index.Reached) (ho : ∀ o ∈ others, o.Reached)
    (hkind : ∀ o ∈ others, o.kind = index.kind) (hname : ∀ o ∈ others, o.name = index.name) :
    ∃ merged, mergeEach operation index others = (merged, none) ∧ merged.name = index.name ∧
      merged.kind = index.kind := by
  induction others generalizing index with
  | nil => exact ⟨index, rfl, rfl, rfl⟩
  | cons other others ih =>
    obtain ⟨hother, ho⟩ := List.forall_mem_cons.1 ho
    obtain ⟨hotherKind, hkind⟩ := List.forall_mem_cons.1 hkind
    obtain ⟨hotherName, hname⟩ := List.forall_mem_cons.1 hname
    have hrefused := (mergeInto_refusedExactly operation h hother hotherKind).refused
    obtain ⟨hnextName, hnextKind⟩ := name_kind_mergeInto operation index other
    have hnext : (mergeInto operation index other).1.Reached := .mergeInto h hother
    cases hstep : mergeInto operation index other with
    | mk next refused =>
      rw [hstep] at hrefused hnextName hnextKind hnext
      cases refused with
      | some e => exact absurd hotherName (hrefused.1 rfl)
      | none =>
        obtain ⟨merged, hmerged, hmergedName, hmergedKind⟩ := ih hnext ho
          (fun o ho => (hkind o ho).trans hnextKind.symm) (fun o ho => (hname o ho).trans hnextName.symm)
        refine ⟨merged, ?_, hmergedName.trans hnextName, hmergedKind.trans hnextKind⟩
        rw [mergeEach, Steps.run, hstep]
        exact hmerged

theorem mergeEach_of_mismatch (h : index.Reached) (ho : ∀ o ∈ front, o.Reached)
    (hkindFront : ∀ o ∈ front, o.kind = index.kind) (hfront : ∀ o ∈ front, o.name = index.name)
    (hkind : other.kind = index.kind) (hname : other.name ≠ index.name) :
    ∃ merged, mergeEach operation index front = (merged, none) ∧
      mergeEach operation index (front ++ other :: back) =
        (merged, some (.mergeMismatch index.kind index.name other.kind other.name)) := by
  obtain ⟨merged, hmerged, hmergedName, hmergedKind⟩ := exists_mergeEach operation h ho hkindFront hfront
  refine ⟨merged, hmerged, ?_⟩
  rw [mergeEach, Steps.run_append hmerged, Steps.run,
    mergeInto_of_mismatch operation (hkind.trans hmergedKind.symm) (hmergedName.symm ▸ hname), hmergedName,
    hmergedKind]

omit [Identifier ι] in
theorem exists_map_range (hkind : ∀ o ∈ others, o.kind = .range) :
    ∃ ranges : List (RangeIndex ι t.Carrier), ranges.map range = others := by
  obtain ⟨ranges, hranges, -⟩ := exists_map_of_forall (f := range) (p := fun _ => True) fun o ho => by
    have hrange := hkind o ho
    cases o with
    | hash _ => cases hrange
    | range b => exact ⟨b, rfl, trivial⟩
    | hashRange _ => cases hrange
  exact ⟨ranges, hranges⟩

theorem exists_mergeAll (h : index.Reached) (ho : ∀ o ∈ others, o.Reached)
    (hkind : ∀ o ∈ others, o.kind = index.kind) (hname : ∀ o ∈ others, o.name = index.name) :
    ∃ merged, mergeAll operation index others = (merged, none) := by
  by_cases hrange : index.kind = .range
  · obtain ⟨ranges, rfl⟩ := exists_map_range fun o ho => (hkind o ho).trans hrange
    cases index with
    | hash _ => cases hrange
    | range a =>
      have hmerged := RangeIndex.mergeAll_eq_ok (List.forall_mem_map.1 hname) ⟨operation, 0⟩
      exact ⟨range (a.concat ⟨operation, 0⟩ ranges), by simp only [mergeAll, mapM_asRange?, hmerged]⟩
    | hashRange _ => cases hrange
  · obtain ⟨merged, hmerged, -⟩ := exists_mergeEach operation h ho hkind hname
    exact ⟨merged, (mergeAll_eq_mergeEach operation hrange others).trans hmerged⟩

theorem mergeAll_of_mismatch_range (hrange : index.kind = .range)
    (hkind : ∀ o ∈ front ++ other :: back, o.kind = index.kind) (hfront : ∀ o ∈ front, o.name = index.name)
    (hname : other.name ≠ index.name) : mergeAll operation index (front ++ other :: back) =
      (index, some (.mergeMismatch index.kind index.name other.kind other.name)) := by
  obtain ⟨ranges, hranges⟩ := exists_map_range fun o ho => (hkind o ho).trans hrange
  obtain ⟨fronts, tail, rfl, rfl, htail⟩ := List.map_eq_append_iff.1 hranges
  obtain ⟨o, backs, rfl, rfl, rfl⟩ := List.map_eq_cons_iff.1 htail
  cases index with
  | hash _ => cases hrange
  | range a =>
    have hrefused := RangeIndex.mergeAll_of_mismatch ⟨operation, 0⟩ fronts backs
      (List.forall_mem_map.1 hfront) hname
    rw [← hranges]
    simp only [mergeAll, mapM_asRange?, hrefused]
    rfl
  | hashRange _ => cases hrange

theorem mergeAll_of_mismatch (h : index.Reached) (ho : ∀ o ∈ front, o.Reached)
    (hkind : ∀ o ∈ front ++ other :: back, o.kind = index.kind) (hfront : ∀ o ∈ front, o.name = index.name)
    (hname : other.name ≠ index.name) : ∃ merged, mergeAll operation index front = (merged, none) ∧
      mergeAll operation index (front ++ other :: back) = (if index.kind = .range then index else merged,
        some (.mergeMismatch index.kind index.name other.kind other.name)) := by
  obtain ⟨hkindFront, hkindBack⟩ := List.forall_mem_append.1 hkind
  -- only a range index looks at the names behind the first that differs
  by_cases hrange : index.kind = .range
  · obtain ⟨merged, hmerged⟩ := exists_mergeAll operation h ho hkindFront hfront
    refine ⟨merged, hmerged, ?_⟩
    rw [if_pos hrange]
    exact mergeAll_of_mismatch_range operation hrange hkind hfront hname
  · simp only [if_neg hrange, mergeAll_eq_mergeEach operation hrange]
    exact mergeEach_of_mismatch operation h ho hkindFront hfront (hkindBack other List.mem_cons_self) hname

theorem exists_mismatch_of_refused (h : index.Reached) (ho : ∀ o ∈ others, o.Reached)
    (hkind : ∀ o ∈ others, o.kind = index.kind)
    (hrefused : (mergeAll operation index others).2.isSome = true) :
    ∃ other ∈ others, other.name ≠ index.name := by
  by_contra hnone
  push Not at hnone
  obtain ⟨merged, hmerged⟩ := exists_mergeAll operation h ho hkind hnone
  rw [hmerged] at hrefused
  cases hrefused

omit [Identifier ι] in
theorem exists_first_mismatch (hother : ∃ other ∈ others, other.name ≠ index.name) :
    ∃ front other back, others = front ++ other :: back ∧ (∀ o ∈ front, o.name = index.name) ∧
      other.name ≠ index.name := by
  have hfound : (others.find? fun o => o.name ≠ index.name).isSome = true := by simpa using hother
  obtain ⟨other, hother⟩ := Option.isSome_iff_exists.1 hfound
  obtain ⟨hname, front, back, hothers, hfront⟩ := List.find?_eq_some_iff_append.1 hother
  exact ⟨front, other, back, hothers, by simpa using hfront, by simpa using hname⟩

/-- Several indexes of one kind are not merged at once if some has another name, and the first such is why.
A range index is then as it was; an index of another kind is what merging those before it makes. -/
theorem mergeAll_refused_iff (h : index.Reached) (ho : ∀ o ∈ others, o.Reached)
    (hkind : ∀ o ∈ others, o.kind = index.kind) :
    ((mergeAll operation index others).2.isSome = true ↔ ∃ other ∈ others, other.name ≠ index.name) ∧
      ∀ front other back, others = front ++ other :: back → (∀ o ∈ front, o.name = index.name) →
        other.name ≠ index.name → ∃ merged, mergeAll operation index front = (merged, none) ∧
          mergeAll operation index others = (if index.kind = .range then index else merged,
            some (.mergeMismatch index.kind index.name other.kind other.name)) := by
  refine ⟨⟨exists_mismatch_of_refused operation h ho hkind, fun hother => ?_⟩, ?_⟩
  · obtain ⟨front, other, back, rfl, hfront, hname⟩ := exists_first_mismatch hother
    have hof : ∀ o ∈ front, o.Reached := fun o hmem => ho o (List.mem_append_left _ hmem)
    obtain ⟨merged, -, hmerged⟩ := mergeAll_of_mismatch operation h hof hkind hfront hname
    rw [hmerged]
    rfl
  · rintro front other back rfl hfront hname
    have hof : ∀ o ∈ front, o.Reached := fun o hmem => ho o (List.mem_append_left _ hmem)
    exact mergeAll_of_mismatch operation h hof hkind hfront hname

theorem mergeAll_refused_iff_renamed :
    let holding (name value : String) (id : UInt32) : Index UInt32 (ValueType.Carrier .string) :=
      hash (HashIndex.addInto (.empty name) value [id] [.zero]).1
    let first := holding "letters" "a" 1
    let others := [holding "letters" "b" 2, holding "words" "c" 3, holding "letters" "d" 4]
    first.Reached ∧ (∀ o ∈ others, o.Reached) ∧ (∀ o ∈ others, o.kind = first.kind) ∧
      (mergeAll 1 first others).2.isSome = true ∧
      (mergeAll 1 first others).1 = (mergeAll 1 first [holding "letters" "b" 2]).1 := by
  intro holding first others
  have hreached (name value : String) (id : UInt32) : (holding name value id).Reached :=
    Reached.addBucketInto (t := .string) (.empty .hash name 0) value [id] [.zero]
  have hothers : ∀ o ∈ others, o.Reached := by simp [others, hreached]
  have hkind : ∀ o ∈ others, o.kind = first.kind := by simp [others, first, holding, kind]
  obtain ⟨hrefused, hfirst⟩ := mergeAll_refused_iff 1 (hreached "letters" "a" 1) hothers hkind
  obtain ⟨merged, hmerged, hall⟩ := hfirst [holding "letters" "b" 2] (holding "words" "c" 3) _ rfl
    (by decide) (by decide)
  have hother : ∃ o ∈ others, o.name ≠ first.name := ⟨holding "words" "c" 3, by simp [others], by decide⟩
  refine ⟨hreached _ _ _, hothers, hkind, hrefused.2 hother, ?_⟩
  rw [hmerged, hall]
  rfl

/-- A refused merge of several indexes is not undone: of buckets and of ranges under keys, those of the first
other index stay. -/
theorem mergeAll_refused_changes :
    let bucket (name value : String) : Index UInt32 (ValueType.Carrier .string) :=
      hash (HashIndex.addInto (.empty name) value [1] [.zero]).1
    let range (name : String) (key : UInt32) : Index UInt32 (ValueType.Carrier .string) :=
      hashRange (HashRangeIndex.addInto 0 (.empty name) key [1] ["a"] [.zero]).1
    ∀ parts ∈ [(bucket "letters" "a", bucket "letters" "b", bucket "words" "a"),
        (range "letters" 1, range "letters" 2, range "words" 1)],
      parts.1.Reached ∧ parts.2.1.Reached ∧ parts.2.2.Reached ∧
        (mergeAll 1 parts.1 [parts.2.1, parts.2.2]).2.isSome = true ∧
        (mergeAll 1 parts.1 [parts.2.1, parts.2.2]).1 ≠ parts.1 := by
  intro bucket range
  have hbucket (name value : String) : (bucket name value).Reached :=
    Reached.addBucketInto (t := .string) (.empty .hash name 0) value [1] [.zero]
  have hrange (name : String) (key : UInt32) : (range name key).Reached :=
    Reached.addRangeInto (t := .string) (.empty .hashRange name 0) key [1] ["a"] [.zero]
  refine List.forall_mem_cons.2 ⟨⟨hbucket _ _, hbucket _ _, hbucket _ _, by decide, fun heq => ?_⟩,
    List.forall_mem_singleton.2 ⟨hrange _ _, hrange _ _, hrange _ _, by decide, fun heq => ?_⟩⟩
  · exact absurd (congrArg (fun i => i.keys.length) heq) (by decide)
  · exact absurd (congrArg (fun i => i.keys.length) heq) (by decide)

end Refused

end Index

end WeightedStore
