import WeightedStore.Proofs.Bytes.Records
import WeightedStore.Proofs.Index.BucketMerge

/-!
The buckets of a hash index. However an index came about, its values stand in strictly ascending
order, so that each has one bucket, and every bucket passed the check of its columns. Taking buckets
into such an index is never refused, and joins under each value the buckets in the order they come.
-/

namespace WeightedStore.HashIndex

variable {ι α : Type}

variable [Attribute α]

structure WellFormed (index : HashIndex ι α) : Prop where
  ascending : Keyed.Ascending index.buckets
  sound : ∀ e ∈ index.buckets, Sound e.2

theorem wellFormed_empty (name : String) : WellFormed (empty name : HashIndex ι α) :=
  ⟨List.Pairwise.nil, nofun⟩

namespace WellFormed

variable {index other : HashIndex ι α}

theorem nodup (h : index.WellFormed) : (index.buckets.map Prod.fst).Nodup :=
  h.ascending.nodup_keys

theorem pooled (h : index.WellFormed) : ∀ e ∈ index.buckets, Pooled e.2 :=
  fun e he => (h.sound e he).pooled

theorem sound_of_get? {value : α} {bucket : Pool ι} (h : index.WellFormed)
    (hget : index.get? value = some bucket) : Sound bucket :=
  h.sound (value, bucket) (Keyed.mem_of_get? hget)

theorem put (h : index.WellFormed) (value : α) {bucket : Pool ι} (hbucket : Sound bucket) :
    (index.put value bucket).WellFormed :=
  ⟨Keyed.ascending_put h.ascending, fun e he => (Keyed.mem_put he).elim
    (fun heq => heq ▸ hbucket) (h.sound e)⟩

theorem add {added : HashIndex ι α} {value : α} {ids : List ι} {weights : List Binary32}
    (h : index.WellFormed) (hadd : index.add value ids weights = .ok added) : added.WellFormed := by
  rw [HashIndex.add] at hadd
  split at hadd
  · cases hadd
  · split at hadd
    · cases hadd
    · rename_i bucket hbucket
      obtain rfl := Except.ok.inj hadd
      exact h.put value (sound_of_ofColumns hbucket)

theorem eq_of_get?_eq (hi : index.WellFormed) (ho : other.WellFormed)
    (hname : index.name = other.name) (h : ∀ v, index.get? v = other.get? v) : index = other := by
  obtain ⟨name, buckets⟩ := index
  obtain ⟨otherName, others⟩ := other
  obtain rfl : buckets = others := hi.ascending.eq_of_get?_eq ho.ascending h
  exact congrArg (HashIndex.mk · buckets) hname

end WellFormed

def bucketsOf (value : α) (bs : List (α × Pool ι)) : List (Pool ι) :=
  (Attribute.run Prod.fst value bs).map Prod.snd

@[simp] theorem bucketsOf_append (value : α) (bs cs : List (α × Pool ι)) :
    bucketsOf value (bs ++ cs) = bucketsOf value bs ++ bucketsOf value cs := by
  rw [bucketsOf, Attribute.run_append, List.map_append]
  rfl

theorem bucketsOf_cons (value : α) (e : α × Pool ι) (bs : List (α × Pool ι)) :
    bucketsOf value (e :: bs) = (if e.1 = value then [e.2] else []) ++ bucketsOf value bs := by
  by_cases h : e.1 = value
  · subst h
    rw [if_pos rfl, bucketsOf, Attribute.run_cons_self]
    rfl
  · rw [if_neg h, bucketsOf, Attribute.run_cons_of_ne h]
    rfl

theorem WellFormed.bucketsOf_buckets {index : HashIndex ι α} (h : index.WellFormed) (value : α) :
    bucketsOf value index.buckets = (index.get? value).toList := h.ascending.run_eq value

variable [Identifier ι]

/-- The hash indexes that come about: new ones and those that were read, and what buckets that are
added or merged in make of such. -/
inductive Reached : HashIndex ι α → Prop
  | empty (name : String) : Reached (.empty name)
  | add {index added : HashIndex ι α} {value : α} {ids : List ι} {weights : List Binary32} :
      Reached index → index.add value ids weights = .ok added → Reached added
  | deserialize {name : String} {bytes : List UInt8} {index : HashIndex ι α} :
      deserialize name bytes = .ok index → Reached index
  | merge {index other merged : HashIndex ι α} :
      Reached index → Reached other → index.merge other = .ok merged → Reached merged

structure TakesIn (index : HashIndex ι α) (bs : List (α × Pool ι)) (taken : HashIndex ι α) :
    Prop where
  name : taken.name = index.name
  wellFormed : taken.WellFormed
  get? : ∀ v, taken.get? v = joined ((index.get? v).toList ++ bucketsOf v bs)

variable {value : α} {bucket : Pool ι} {bs : List (α × Pool ι)} {index other : HashIndex ι α}

theorem TakesIn.append {cs : List (α × Pool ι)} {next taken : HashIndex ι α}
    (h : index.TakesIn bs next) (h' : next.TakesIn cs taken) : index.TakesIn (bs ++ cs) taken := by
  refine ⟨h'.name.trans h.name, h'.wellFormed, fun v => ?_⟩
  have hjoin := joined_joined [] ((index.get? v).toList ++ bucketsOf v bs) (bucketsOf v cs)
  rw [h'.get?, h.get?, bucketsOf_append, ← List.append_assoc]
  exact hjoin

/-- What comes of taking buckets in depends on the buckets of each value and their order. -/
theorem TakesIn.eq_of_bucketsOf_eq {cs : List (α × Pool ι)} {taken taken' : HashIndex ι α}
    (h : index.TakesIn bs taken) (h' : index.TakesIn cs taken')
    (heq : ∀ v, bucketsOf v bs = bucketsOf v cs) : taken = taken' :=
  h.wellFormed.eq_of_get?_eq h'.wellFormed (h.name.trans h'.name.symm) fun v => by
    rw [h.get?, h'.get?, heq]

theorem takesIn_put (h : index.WellFormed) {put : Pool ι} (hput : Sound put)
    (hjoined : joined ((index.get? value).toList ++ [bucket]) = some put) :
    index.TakesIn [(value, bucket)] (index.put value put) := by
  refine ⟨rfl, h.put value hput, fun v => ?_⟩
  rw [bucketsOf_cons, HashIndex.get?, HashIndex.put]
  by_cases hv : value = v
  · subst hv
    rw [if_pos rfl, Keyed.get?_put_self]
    exact hjoined.symm
  · rw [if_neg hv, Keyed.get?_put_of_ne hv]
    change index.get? v = joined ((index.get? v).toList ++ [])
    cases index.get? v <;> rfl

theorem exists_absorb (h : index.WellFormed) (value : α) (hbucket : Sound bucket) :
    ∃ taken, index.absorb (value, bucket) = (taken, none) ∧ index.TakesIn [(value, bucket)] taken := by
  rw [absorb]
  cases hget : index.get? value with
  | none => exact ⟨index.put value bucket, rfl, takesIn_put h hbucket (by rw [hget]; rfl)⟩
  | some present =>
    have hpresent := h.sound_of_get? hget
    have hjoined : joined ((index.get? value).toList ++ [bucket]) =
        some (.ofWeighted (byId (present.pairs ++ bucket.pairs))) := by
      rw [hget]
      simp [joined]
    have hsound : ∀ b ∈ (index.get? value).toList ++ [bucket], Sound b := by
      rw [hget]
      exact List.forall_mem_cons.2 ⟨hpresent, List.forall_mem_singleton.2 hbucket⟩
    dsimp only
    rw [mergeBuckets_eq_ok hpresent hbucket]
    exact ⟨_, rfl, takesIn_put h (sound_of_joined hsound hjoined) hjoined⟩

theorem exists_absorbAll (h : index.WellFormed) (hbs : ∀ e ∈ bs, Sound e.2) :
    ∃ taken, index.absorbAll bs = (taken, none) ∧ index.TakesIn bs taken := by
  induction bs generalizing index with
  | nil =>
    refine ⟨index, rfl, rfl, h, fun v => ?_⟩
    cases index.get? v <;> rfl
  | cons e bs ih =>
    obtain ⟨he, hbs⟩ := List.forall_mem_cons.1 hbs
    obtain ⟨next, hnext, htakes⟩ := exists_absorb h e.1 he
    obtain ⟨taken, htaken, htakes'⟩ := ih htakes.wellFormed hbs
    refine ⟨taken, ?_, htakes.append htakes'⟩
    rw [absorbAll, Steps.run, show index.absorb e = (next, none) from hnext]
    exact htaken

theorem exists_merge (hi : index.WellFormed) (ho : other.WellFormed)
    (hname : other.name = index.name) :
    ∃ merged, index.merge other = .ok merged ∧ index.mergeInto other = (merged, none) ∧
      index.TakesIn other.buckets merged := by
  obtain ⟨merged, hmerged, htakes⟩ := exists_absorbAll hi ho.sound
  have hinto : index.mergeInto other = (merged, none) := by
    rw [mergeInto, if_neg (by simp [hname]), hmerged]
    rfl
  exact ⟨merged, by rw [merge, hinto]; rfl, hinto, htakes⟩

theorem name_of_merge {merged : HashIndex ι α} (h : index.merge other = .ok merged) :
    other.name = index.name := by
  rw [merge, mergeInto] at h
  split at h
  · cases h
  · rename_i hname
    exact (not_not.1 hname).symm

theorem sound_of_bucketDecoder {c c' : Cursor} {e : α × Pool ι}
    (h : bucketDecoder c = .ok e c') : Sound e.2 := by
  simp only [bucketDecoder, Decoder.bind_eq_ok_iff] at h
  obtain ⟨_, _, -, ids, _, -, weights, _, -, h⟩ := h
  cases hbucket : Pool.ofColumns ids weights with
  | ok bucket =>
    rw [hbucket] at h
    obtain ⟨rfl, -⟩ := Decoder.pure_eq_ok_iff.1 h
    exact sound_of_ofColumns hbucket
  | error fault =>
    rw [hbucket] at h
    exact absurd h Decoder.throw_ne_ok

theorem exists_deserialize (name : String) (bytes : List UInt8) :
    ∃ taken, (empty name : HashIndex ι α).TakesIn (Decoder.records bucketDecoder bytes).1 taken ∧
      deserialize name bytes = match (Decoder.records (α := α × Pool ι) bucketDecoder bytes).2 with
        | some fault => .error (.corrupt name fault)
        | none => .ok taken := by
  have hsound : ∀ e ∈ (Decoder.records (bucketDecoder : Decoder (α × Pool ι)) bytes).1, Sound e.2 :=
    Decoder.forall_recordsWithin (fun _ _ _ => sound_of_bucketDecoder) bytes.length (.start bytes)
  obtain ⟨taken, htaken, htakes⟩ := exists_absorbAll (wellFormed_empty name) hsound
  refine ⟨taken, htakes, ?_⟩
  rw [deserialize]
  generalize Decoder.records (bucketDecoder : Decoder (α × Pool ι)) bytes = read at htaken ⊢
  obtain ⟨records, fault?⟩ := read
  dsimp only at htaken ⊢
  rw [htaken]
  cases fault? <;> rfl

theorem Reached.wellFormed {index : HashIndex ι α} (h : index.Reached) : index.WellFormed := by
  induction h with
  | empty name => exact wellFormed_empty name
  | add _ hadd ih => exact ih.add hadd
  | @deserialize name bytes index hread =>
    obtain ⟨taken, htakes, heq⟩ := exists_deserialize (ι := ι) (α := α) name bytes
    rw [hread] at heq
    split at heq
    · cases heq
    · obtain rfl := Except.ok.inj heq
      exact htakes.wellFormed
  | merge _ _ hmerge ih ihother =>
    obtain ⟨merged, hok, -, htakes⟩ := exists_merge ih ihother (name_of_merge hmerge)
    obtain rfl := Except.ok.inj (hmerge.symm.trans hok)
    exact htakes.wellFormed

end WeightedStore.HashIndex
