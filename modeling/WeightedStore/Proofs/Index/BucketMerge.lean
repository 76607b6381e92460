import WeightedStore.Index.Hash
import WeightedStore.Proofs.Attribute.Keyed

/-!
Buckets of one value that are merged. The pairs of a merged bucket stand in the order of their ids
and hold of each id what the pairs of the buckets hold first. So it does not matter which of several
buckets are merged beforehand, as long as they keep their order.
-/

namespace WeightedStore

theorem Pool.ofColumns_eq_ok {α : Type} {items : List α} {weights : List Binary32}
    (hlength : items.length = weights.length) (hweights : ∀ w ∈ weights, w.isWeight = true) :
    ofColumns items weights = .ok (.ofWeighted (items.zip weights)) := by
  obtain ⟨p, hp⟩ := (ofColumns_eq_ok_iff items weights).2 ⟨hlength, hweights⟩
  rw [hp, eq_ofWeighted_of_ofColumns hp]

namespace HashIndex

variable {ι : Type}

abbrev Pooled (bucket : Pool ι) : Prop := bucket = .ofWeighted bucket.pairs

theorem pooled_ofWeighted (pairs : List (ι × Binary32)) : Pooled (.ofWeighted pairs) := by
  rw [Pooled, Pool.pairs_ofWeighted]

structure Sound (bucket : Pool ι) : Prop where
  pooled : Pooled bucket
  weights : ∀ p ∈ bucket.pairs, p.2.isWeight = true

theorem sound_ofWeighted {pairs : List (ι × Binary32)} (h : ∀ p ∈ pairs, p.2.isWeight = true) :
    Sound (.ofWeighted pairs) :=
  ⟨pooled_ofWeighted pairs, by rwa [Pool.pairs_ofWeighted]⟩

theorem sound_of_ofColumns {items : List ι} {weights : List Binary32} {bucket : Pool ι}
    (h : Pool.ofColumns items weights = .ok bucket) : Sound bucket := by
  rw [Pool.eq_ofWeighted_of_ofColumns h]
  have hweights := ((Pool.ofColumns_eq_ok_iff items weights).1 ⟨bucket, h⟩).2
  exact sound_ofWeighted fun p hp => hweights p.2 (List.of_mem_zip hp).2

theorem Sound.items_eq {bucket : Pool ι} (h : Sound bucket) :
    bucket.items = bucket.pairs.map Prod.fst :=
  (congrArg Pool.items h.pooled).trans (Pool.items_ofWeighted _)

theorem Sound.weights_eq {bucket : Pool ι} (h : Sound bucket) :
    bucket.weights = bucket.pairs.map Prod.snd :=
  congrArg Pool.weights h.pooled

theorem ofPairs_eq_ok {pairs : List (ι × Binary32)} (h : ∀ p ∈ pairs, p.2.isWeight = true) :
    Pool.ofPairs pairs = .ok (.ofWeighted pairs) := by
  have hzip : (pairs.map Prod.fst).zip (pairs.map Prod.snd) = pairs := by
    rw [List.zip_map', List.map_id' pairs]
  rw [Pool.ofPairs, Pool.ofColumns_eq_ok (by simp) (List.forall_mem_map.2 h), hzip]

variable [Identifier ι] {pairs others : List (ι × Binary32)}

theorem get?_firsts (id : ι) (pairs : List (ι × Binary32)) :
    Keyed.get? id (firsts pairs) = Keyed.get? id pairs := by
  induction pairs with
  | nil => rfl
  | cons p pairs ih =>
    obtain ⟨first, w⟩ := p
    by_cases hid : first = id
    · subst hid
      rw [Keyed.get?_cons_self, firsts]
      split
      · exact Keyed.get?_cons_self _ _ _
      · split <;> exact Keyed.get?_cons_self _ _ _
    · rw [Keyed.get?_cons_of_ne hid, ← ih, firsts]
      split
      · rename_i hnil
        rw [Keyed.get?_cons_of_ne hid, hnil]
      · rename_i q rest hcons
        split
        · rename_i hq
          have hq : q.1 ≠ id := fun h => hid (hq.trans h)
          rw [Keyed.get?_cons_of_ne hid, hcons, Keyed.get?_cons_of_ne hq]
        · rw [Keyed.get?_cons_of_ne hid, hcons]

theorem firsts_sublist (pairs : List (ι × Binary32)) : (firsts pairs).Sublist pairs := by
  induction pairs with
  | nil => exact List.Sublist.refl _
  | cons p pairs ih =>
    rw [firsts]
    split
    · exact (List.nil_sublist _).cons_cons p
    · rename_i q rest hcons
      rw [hcons] at ih
      split
      · exact ((List.sublist_cons_self q rest).trans ih).cons_cons p
      · exact ih.cons_cons p

theorem ascending_firsts (h : Attribute.OrderedBy Prod.fst pairs) :
    Keyed.Ascending (firsts pairs) := by
  induction pairs with
  | nil => exact List.Pairwise.nil
  | cons p pairs ih =>
    obtain ⟨hp, hpairs⟩ := List.pairwise_cons.1 h
    have hrest := ih hpairs
    rw [firsts]
    split
    · exact List.pairwise_singleton _ _
    · rename_i q rest hcons
      rw [hcons] at hrest
      have hq := (List.pairwise_cons.1 hrest).1
      split
      · rename_i hid
        exact List.pairwise_cons.2 ⟨fun e he => hid ▸ hq e he, (List.pairwise_cons.1 hrest).2⟩
      · rename_i hid
        have hle : Attribute.atMost p.1 q.1 = true :=
          hp q ((firsts_sublist pairs).subset (hcons ▸ List.mem_cons_self))
        refine List.pairwise_cons.2 ⟨fun e he => ?_, hrest⟩
        rcases List.mem_cons.1 he with rfl | he
        · exact (Attribute.before_eq_true_iff _ _).2 ⟨hle, hid⟩
        · exact Attribute.before_of_atMost_of_before hle (hq e he)

theorem get?_byId (id : ι) (pairs : List (ι × Binary32)) :
    Keyed.get? id (byId pairs) = Keyed.get? id pairs := by
  rw [byId, get?_firsts, Keyed.get?_eq_head?_run, Keyed.get?_eq_head?_run, Attribute.run_sortBy]

theorem ascending_byId (pairs : List (ι × Binary32)) : Keyed.Ascending (byId pairs) :=
  ascending_firsts (Attribute.orderedBy_sortBy Prod.fst pairs)

theorem byId_congr (h : ∀ id, Keyed.get? id pairs = Keyed.get? id others) :
    byId pairs = byId others :=
  (ascending_byId pairs).eq_of_get?_eq (ascending_byId others) fun id => by
    rw [get?_byId, get?_byId, h]

theorem mem_byId_iff {p : ι × Binary32} : p ∈ byId pairs ↔ Keyed.get? p.1 pairs = some p.2 := by
  rw [← get?_byId, (ascending_byId pairs).get?_eq_some_iff]

theorem mem_ids_byId_iff {id : ι} :
    id ∈ (byId pairs).map Prod.fst ↔ id ∈ pairs.map Prod.fst := by
  rw [← Keyed.isSome_get?_iff, ← Keyed.isSome_get?_iff, get?_byId]

/-- The bucket that the buckets of one value make, in their order. One alone stays as it is. -/
def joined : List (Pool ι) → Option (Pool ι)
  | [] => none
  | [bucket] => some bucket
  | buckets => some (.ofWeighted (byId (buckets.flatMap Pool.pairs)))

variable {xs ys zs : List (Pool ι)} {bucket : Pool ι}

theorem joined_of_two_le (h : 2 ≤ xs.length) :
    joined xs = some (.ofWeighted (byId (xs.flatMap Pool.pairs))) := by
  match xs, h with
  | _ :: _ :: _, _ => rfl

theorem joined_eq_none_iff : joined xs = none ↔ xs = [] := by
  match xs with
  | [] => simp [joined]
  | [_] => simp [joined]
  | _ :: _ :: _ => simp [joined]

/-- Joining some of the buckets beforehand does not show once all are joined. -/
theorem joined_joined (xs ys zs : List (Pool ι)) :
    joined (xs ++ (joined ys).toList ++ zs) = joined (xs ++ ys ++ zs) := by
  match ys with
  | [] => rfl
  | [_] => rfl
  | y :: y' :: ys =>
    have hys : joined (y :: y' :: ys) =
        some (.ofWeighted (byId ((y :: y' :: ys).flatMap Pool.pairs))) := joined_of_two_le (by simp)
    rw [hys, Option.toList_some]
    by_cases halone : xs = [] ∧ zs = []
    · obtain ⟨rfl, rfl⟩ := halone
      simp [joined]
    · have hlength : 0 < xs.length + zs.length := by
        rw [← List.length_append, List.length_pos_iff]
        simpa using halone
      rw [joined_of_two_le (by simp; omega), joined_of_two_le (by simp; omega)]
      refine congrArg (fun pairs => some (Pool.ofWeighted pairs)) (byId_congr fun id => ?_)
      simp only [List.flatMap_append, List.flatMap_singleton, Pool.pairs_ofWeighted,
        Keyed.get?_append, get?_byId]

theorem joined_append_joined (xs ys : List (Pool ι)) :
    joined ((joined xs).toList ++ (joined ys).toList) = joined (xs ++ ys) := by
  have hright := joined_joined (joined xs).toList ys []
  have hleft := joined_joined [] xs ys
  simp only [List.append_nil, List.nil_append] at hright hleft
  rw [hright, hleft]

theorem weights_byId (h : ∀ p ∈ pairs, p.2.isWeight = true) :
    ∀ p ∈ byId pairs, p.2.isWeight = true :=
  fun p hp => h p (Keyed.mem_of_get? (mem_byId_iff.1 hp))

theorem mergeBuckets_eq_ok {left right : Pool ι} (hl : Sound left) (hr : Sound right) :
    mergeBuckets left right = .ok (.ofWeighted (byId (left.pairs ++ right.pairs))) := by
  refine ofPairs_eq_ok (weights_byId fun p hp => ?_)
  exact (List.mem_append.1 hp).elim (hl.weights p) (hr.weights p)

theorem sound_of_joined (hxs : ∀ b ∈ xs, Sound b) (h : joined xs = some bucket) : Sound bucket := by
  match xs, h with
  | [_], rfl => exact hxs _ List.mem_cons_self
  | _ :: _ :: _, rfl =>
    refine sound_ofWeighted (weights_byId fun p hp => ?_)
    obtain ⟨b, hb, hp⟩ := List.mem_flatMap.1 hp
    exact (hxs b hb).weights p hp

end HashIndex

end WeightedStore
