import Mathlib.Data.List.Permutation
import WeightedStore.Index.Basic
import WeightedStore.Proofs.Index.HashOrder

/-!
Merging hash indexes. Merging parts of one name is never refused. The outcome has under each value
the buckets of that value in the parts joined, in the order of the parts, and so does not depend on
how the parts are grouped. It has the same values and ids whatever the order of the parts is.
-/

namespace WeightedStore.HashIndex

variable {ι α : Type}

section Values

variable [Attribute α]

def values (index : HashIndex ι α) : List α := index.buckets.map Prod.fst

theorem mem_values_iff {index : HashIndex ι α} {v : α} :
    v ∈ index.values ↔ (index.get? v).isSome = true := Keyed.isSome_get?_iff.symm

def bucketsIn (parts : List (HashIndex ι α)) (value : α) : List (Pool ι) :=
  parts.filterMap fun part => part.get? value

theorem bucketsIn_cons (part : HashIndex ι α) (parts : List (HashIndex ι α)) (v : α) :
    bucketsIn (part :: parts) v = (part.get? v).toList ++ bucketsIn parts v := by
  rw [bucketsIn, List.filterMap_cons]
  cases part.get? v <;> rfl

theorem bucketsIn_append (parts others : List (HashIndex ι α)) (v : α) :
    bucketsIn (parts ++ others) v = bucketsIn parts v ++ bucketsIn others v :=
  List.filterMap_append

theorem bucketsIn_ne_nil_iff {parts : List (HashIndex ι α)} {v : α} :
    bucketsIn parts v ≠ [] ↔ ∃ part ∈ parts, v ∈ part.values := by
  simp only [bucketsIn, ne_eq, List.filterMap_eq_nil_iff, not_forall, exists_prop, mem_values_iff,
    Option.isSome_iff_ne_none]

theorem bucketsOf_flatMap {parts : List (HashIndex ι α)} (h : ∀ part ∈ parts, part.WellFormed)
    (v : α) : bucketsOf v (parts.flatMap buckets) = bucketsIn parts v := by
  induction parts with
  | nil => rfl
  | cons part parts ih =>
    obtain ⟨hpart, hparts⟩ := List.forall_mem_cons.1 h
    rw [List.flatMap_cons, bucketsOf_append, hpart.bucketsOf_buckets, ih hparts, bucketsIn_cons]

theorem sound_of_mem_bucketsIn {parts : List (HashIndex ι α)}
    (h : ∀ part ∈ parts, part.WellFormed) {v : α} : ∀ b ∈ bucketsIn parts v, Sound b := by
  intro b hb
  obtain ⟨part, hpart, hget⟩ := List.mem_filterMap.1 hb
  exact (h part hpart).sound_of_get? hget

theorem bucketsOf_eq_of_perm {part : HashIndex ι α} (h : part.WellFormed) {bs : List (α × Pool ι)}
    (hperm : bs.Perm part.buckets) (v : α) : bucketsOf v bs = bucketsOf v part.buckets := by
  have hrun : (bucketsOf v bs).Perm (bucketsOf v part.buckets) := (hperm.filter _).map _
  rw [h.bucketsOf_buckets] at hrun ⊢
  cases hget : part.get? v with
  | none =>
    rw [hget] at hrun
    exact hrun.eq_nil
  | some bucket =>
    rw [hget] at hrun
    exact List.perm_singleton.1 hrun

end Values

theorem mem_ids_flatMap {bs : List (Pool ι)} (h : ∀ b ∈ bs, Sound b) {id : ι} :
    id ∈ (bs.flatMap Pool.pairs).map Prod.fst ↔ ∃ b ∈ bs, id ∈ b.items := by
  rw [List.map_flatMap, List.mem_flatMap]
  constructor
  · rintro ⟨b, hb, hid⟩
    exact ⟨b, hb, (h b hb).items_eq ▸ hid⟩
  · rintro ⟨b, hb, hid⟩
    exact ⟨b, hb, (h b hb).items_eq ▸ hid⟩

variable [Identifier ι]

/-- What it is for a bucket to join others: its ids are theirs, in strictly ascending order, and an
id has the weight that it has where it occurs first. -/
structure Joins (buckets : List (Pool ι)) (bucket : Pool ι) : Prop where
  ascending : bucket.items.Pairwise fun a b => Attribute.before a b = true
  mem_items : ∀ id, id ∈ bucket.items ↔ ∃ b ∈ buckets, id ∈ b.items
  first : ∀ id w, (id, w) ∈ bucket.pairs ↔
    (buckets.flatMap Pool.pairs).find? (fun p => p.1 = id) = some (id, w)
  pooled : Pooled bucket

theorem joins_byId {bs : List (Pool ι)} (h : ∀ b ∈ bs, Sound b) :
    Joins bs (.ofWeighted (byId (bs.flatMap Pool.pairs))) where
  ascending := List.pairwise_map.2 (ascending_byId _)
  mem_items id := by rw [Pool.items_ofWeighted, mem_ids_byId_iff, mem_ids_flatMap h]
  first id w := by
    rw [Pool.pairs_ofWeighted, mem_byId_iff, Keyed.get?, Option.map_eq_some_iff]
    constructor
    · rintro ⟨p, hp, hw⟩
      have hid : p.1 = id := by simpa using List.find?_some hp
      exact hp.trans (congrArg some (Prod.ext hid hw))
    · exact fun hp => ⟨(id, w), hp, rfl⟩
  pooled := pooled_ofWeighted _

theorem mem_items_of_joined {bs : List (Pool ι)} (h : ∀ b ∈ bs, Sound b) {bucket : Pool ι}
    (hjoined : joined bs = some bucket) {id : ι} : id ∈ bucket.items ↔ ∃ b ∈ bs, id ∈ b.items := by
  match bs, hjoined with
  | [_], rfl => simp
  | _ :: _ :: _, rfl => exact (joins_byId h).mem_items id

variable [Attribute α]

structure SameIds (index other : HashIndex ι α) : Prop where
  values : ∀ v, v ∈ index.values ↔ v ∈ other.values
  ids : ∀ v b c, index.get? v = some b → other.get? v = some c → ∀ id, id ∈ b.items ↔ id ∈ c.items

section Merge

variable {first merged : HashIndex ι α} {others : List (HashIndex ι α)}

theorem exists_mergeEach (h : ∀ part ∈ first :: others, part.WellFormed)
    (hname : ∀ other ∈ others, other.name = first.name) :
    ∃ merged, others.foldlM merge first = .ok merged ∧
      Steps.run mergeInto first others = (merged, none) ∧
      first.TakesIn (others.flatMap buckets) merged := by
  induction others generalizing first with
  | nil =>
    have hnone : ∀ e ∈ ([] : List (α × Pool ι)), Sound e.2 := nofun
    obtain ⟨merged, hmerged, htakes⟩ := exists_absorbAll (h first List.mem_cons_self) hnone
    obtain rfl : first = merged := congrArg Prod.fst hmerged
    exact ⟨first, rfl, rfl, htakes⟩
  | cons other others ih =>
    obtain ⟨hfirst, hothers⟩ := List.forall_mem_cons.1 h
    obtain ⟨hother, hothers⟩ := List.forall_mem_cons.1 hothers
    obtain ⟨hotherName, hname⟩ := List.forall_mem_cons.1 hname
    obtain ⟨next, hnext, hinto, htakes⟩ := exists_merge hfirst hother hotherName
    obtain ⟨merged, hmerged, hrun, htakes'⟩ := ih
      (List.forall_mem_cons.2 ⟨htakes.wellFormed, hothers⟩)
      fun o ho => (hname o ho).trans htakes.name.symm
    refine ⟨merged, ?_, ?_, htakes.append htakes'⟩
    · rw [List.foldlM_cons, hnext]
      exact hmerged
    · rw [Steps.run, hinto]
      exact hrun

theorem get?_of_takesIn (h : ∀ part ∈ first :: others, part.WellFormed)
    (htakes : first.TakesIn (others.flatMap buckets) merged) (v : α) :
    merged.get? v = joined (bucketsIn (first :: others) v) := by
  rw [htakes.get?, bucketsOf_flatMap (List.forall_mem_cons.1 h).2, bucketsIn_cons]

theorem run_mergeInto_hash (operation : Nat) (h : Steps.run mergeInto first others = (merged, none)) :
    Steps.run (Index.mergeInto operation) (.hash first) (others.map .hash) =
      (Index.hash merged, none) := by
  have hstep (a b : HashIndex ι α) : Index.mergeInto operation (.hash a) (.hash b) =
      (a.mergeInto b).map .hash id := rfl
  rw [Steps.run_map hstep, h]
  rfl

theorem exists_merge_groups (h : ∀ part ∈ first :: others, part.WellFormed)
    (hname : ∀ other ∈ others, other.name = first.name)
    (htakes : first.TakesIn (others.flatMap buckets) merged) {xs ys : List (HashIndex ι α)}
    {y : HashIndex ι α} (hsplit : others = xs ++ y :: ys) :
    ∃ l r, xs.foldlM merge first = .ok l ∧ ys.foldlM merge y = .ok r ∧ l.merge r = .ok merged := by
  subst hsplit
  have hl : ∀ part ∈ first :: xs, part.WellFormed := fun part hpart =>
    h part (List.mem_append_left (y :: ys) hpart)
  have hr : ∀ part ∈ y :: ys, part.WellFormed := fun part hpart =>
    h part (List.mem_append_right (first :: xs) hpart)
  have hyname : y.name = first.name := hname y (List.mem_append_right _ List.mem_cons_self)
  obtain ⟨l, hlm, -, hltakes⟩ := exists_mergeEach hl fun o ho =>
    hname o (List.mem_append_left _ ho)
  obtain ⟨r, hrm, -, hrtakes⟩ := exists_mergeEach hr fun o ho =>
    (hname o (List.mem_append_right _ (List.mem_cons_of_mem _ ho))).trans hyname.symm
  have hrl : r.name = l.name := by rw [hrtakes.name, hltakes.name, hyname]
  obtain ⟨both, hboth, -, hbtakes⟩ := exists_merge hltakes.wellFormed hrtakes.wellFormed hrl
  have hsame : both = merged := by
    refine hbtakes.wellFormed.eq_of_get?_eq htakes.wellFormed ?_ fun v => ?_
    · rw [hbtakes.name, hltakes.name, htakes.name]
    · rw [hbtakes.get?, hrtakes.wellFormed.bucketsOf_buckets, get?_of_takesIn hl hltakes,
        get?_of_takesIn hr hrtakes, joined_append_joined, get?_of_takesIn h htakes,
        ← bucketsIn_append]
      rfl
  exact ⟨l, r, hlm, hrm, hsame ▸ hboth⟩

theorem sameIds_of_perm (h : ∀ part ∈ first :: others, part.WellFormed)
    (htakes : first.TakesIn (others.flatMap buckets) merged) {first' merged' : HashIndex ι α}
    {others' : List (HashIndex ι α)} (hperm : (first' :: others').Perm (first :: others))
    (htakes' : first'.TakesIn (others'.flatMap buckets) merged') : merged'.SameIds merged := by
  have h' : ∀ part ∈ first' :: others', part.WellFormed := fun part hpart =>
    h part (hperm.mem_iff.1 hpart)
  have hbuckets (v : α) : (bucketsIn (first' :: others') v).Perm (bucketsIn (first :: others) v) :=
    hperm.filterMap _
  constructor
  · intro v
    simp only [mem_values_iff, Option.isSome_iff_ne_none, get?_of_takesIn h htakes,
      get?_of_takesIn h' htakes', ne_eq, joined_eq_none_iff, ← List.length_eq_zero_iff,
      (hbuckets v).length_eq]
  · intro v b c hb hc id
    rw [get?_of_takesIn h' htakes'] at hb
    rw [get?_of_takesIn h htakes] at hc
    rw [mem_items_of_joined (sound_of_mem_bucketsIn h') hb,
      mem_items_of_joined (sound_of_mem_bucketsIn h) hc]
    simp only [(hbuckets v).mem_iff]

theorem absorbAll_of_perm (h : ∀ part ∈ first :: others, part.WellFormed)
    (htakes : first.TakesIn (others.flatMap buckets) merged) {orders : List (List (α × Pool ι))}
    (horders : List.Forall₂ (fun order other => order.Perm other.buckets) orders others) :
    first.absorbAll orders.flatten = (merged, none) := by
  obtain ⟨hfirst, hothers⟩ := List.forall_mem_cons.1 h
  have hsame : (∀ e ∈ orders.flatten, Sound e.2) ∧
      ∀ v, bucketsOf v orders.flatten = bucketsOf v (others.flatMap buckets) := by
    clear htakes h
    induction horders with
    | nil => exact ⟨nofun, fun v => rfl⟩
    | @cons order other orders others hperm _ ih =>
      obtain ⟨hother, hothers⟩ := List.forall_mem_cons.1 hothers
      obtain ⟨hsound, heq⟩ := ih hothers
      refine ⟨fun e he => ?_, fun v => ?_⟩
      · rcases List.mem_append.1 (List.flatten_cons ▸ he) with he | he
        · exact hother.sound e (hperm.mem_iff.1 he)
        · exact hsound e he
      · rw [List.flatten_cons, List.flatMap_cons, bucketsOf_append, bucketsOf_append, heq,
          bucketsOf_eq_of_perm hother hperm]
  obtain ⟨taken, htaken, htakes'⟩ := exists_absorbAll hfirst hsame.1
  rw [htaken, htakes'.eq_of_bucketsOf_eq htakes hsame.2]

/-- Merging parts of one name in turn is never refused. The values of the outcome are those of the
parts; a value of one part keeps its bucket, and the buckets of a value of several parts are joined
in the order of the parts. Parts may be grouped in any way, their buckets may be gone through in any
order, and another order of the parts gives the same values and ids. -/
theorem merge_joins (hi : ∀ part ∈ first :: others, part.Reached)
    (hname : ∀ other ∈ others, other.name = first.name) :
    ∃ merged, others.foldlM merge first = .ok merged ∧
      (∀ operation, (Index.hash first).mergeAll operation (others.map .hash) =
        (.hash merged, none)) ∧
      merged.name = first.name ∧
      (∀ v, v ∈ merged.values ↔ ∃ part ∈ first :: others, v ∈ part.values) ∧
      (∀ v bucket, bucketsIn (first :: others) v = [bucket] → merged.get? v = some bucket) ∧
      (∀ v, 2 ≤ (bucketsIn (first :: others) v).length →
        ∃ bucket, merged.get? v = some bucket ∧ Joins (bucketsIn (first :: others) v) bucket) ∧
      (∀ xs y ys, others = xs ++ y :: ys →
        ∃ l r, xs.foldlM merge first = .ok l ∧ ys.foldlM merge y = .ok r ∧
          l.merge r = .ok merged) ∧
      (∀ first' others', (first' :: others').Perm (first :: others) →
        ∃ merged', others'.foldlM merge first' = .ok merged' ∧ merged'.SameIds merged) ∧
      ∀ orders : List (List (α × Pool ι)),
        List.Forall₂ (fun order other => order.Perm other.buckets) orders others →
        first.absorbAll orders.flatten = (merged, none) := by
  have h : ∀ part ∈ first :: others, part.WellFormed := fun part hpart => (hi part hpart).wellFormed
  obtain ⟨merged, hmerged, hrun, htakes⟩ := exists_mergeEach h hname
  have hget := get?_of_takesIn h htakes
  have hnames : ∀ part ∈ first :: others, part.name = first.name :=
    List.forall_mem_cons.2 ⟨rfl, hname⟩
  refine ⟨merged, hmerged, fun operation => run_mergeInto_hash operation hrun, htakes.name,
    fun v => ?_, fun v bucket hone => ?_, fun v htwo => ?_, fun xs y ys hsplit =>
    exists_merge_groups h hname htakes hsplit, fun first' others' hperm => ?_,
    fun orders horders => absorbAll_of_perm h htakes horders⟩
  · rw [mem_values_iff, Option.isSome_iff_ne_none, hget, ne_eq, joined_eq_none_iff]
    exact bucketsIn_ne_nil_iff
  · rw [hget, hone]
    rfl
  · exact ⟨_, (hget v).trans (joined_of_two_le htwo), joins_byId (sound_of_mem_bucketsIn h)⟩
  · have h' : ∀ part ∈ first' :: others', part.WellFormed := fun part hpart =>
      h part (hperm.mem_iff.1 hpart)
    have hname' : ∀ other ∈ others', other.name = first'.name := fun other hother =>
      (hnames other (hperm.mem_iff.1 (List.mem_cons_of_mem _ hother))).trans
        (hnames first' (hperm.mem_iff.1 List.mem_cons_self)).symm
    obtain ⟨merged', hmerged', -, htakes'⟩ := exists_mergeEach h' hname'
    exact ⟨merged', hmerged', sameIds_of_perm h htakes hperm htakes'⟩

theorem merge_joins_shared_value :
    let one : Binary32 := .ofWord false 0x3f800000
    let first : HashIndex UInt32 String := ⟨"h", [("k", .ofWeighted [(3, one), (1, .zero)])]⟩
    let second : HashIndex UInt32 String := ⟨"h", [("k", .ofWeighted [(1, one), (2, one)])]⟩
    let third : HashIndex UInt32 String := ⟨"h", [("x", .ofWeighted [(8, .zero), (7, one)])]⟩
    (∀ part ∈ [first, second, third], part.Reached) ∧
      (∀ other ∈ [second, third], other.name = first.name) ∧
      ∃ merged bucket, [second, third].foldlM merge first = .ok merged ∧
        merged.get? "k" = some bucket ∧ (∀ id, id ∈ bucket.items ↔ id = 3 ∨ id = 1 ∨ id = 2) ∧
        (1, .zero) ∈ bucket.pairs ∧ merged.get? "x" = some (.ofWeighted [(8, .zero), (7, one)]) := by
  intro one first second third
  have hfirst : (empty "h").add "k" [3, 1] [one, .zero] = .ok first := rfl
  have hsecond : (empty "h").add "k" [1, 2] [one, one] = .ok second := rfl
  have hthird : (empty "h").add "x" [8, 7] [.zero, one] = .ok third := rfl
  have hi : ∀ part ∈ [first, second, third], part.Reached :=
    List.forall_mem_cons.2 ⟨.add (.empty "h") hfirst, List.forall_mem_cons.2
      ⟨.add (.empty "h") hsecond, List.forall_mem_singleton.2 (.add (.empty "h") hthird)⟩⟩
  have hname : ∀ other ∈ [second, third], other.name = first.name :=
    List.forall_mem_cons.2 ⟨rfl, List.forall_mem_singleton.2 rfl⟩
  obtain ⟨merged, hmerged, -, -, -, halone, hjoins, -⟩ := merge_joins hi hname
  obtain ⟨bucket, hbucket, hjoin⟩ := hjoins "k" (by decide)
  refine ⟨hi, hname, merged, bucket, hmerged, hbucket, fun id => ?_, ?_, halone "x" _ rfl⟩
  · have hin : bucketsIn [first, second, third] "k" =
        [.ofWeighted [(3, one), (1, .zero)], .ofWeighted [(1, one), (2, one)]] := rfl
    rw [hjoin.mem_items, hin]
    simp [Pool.items_ofWeighted]
    tauto
  · exact (hjoin.first 1 .zero).2 rfl

end Merge

end WeightedStore.HashIndex
