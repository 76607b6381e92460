import WeightedStore.Attribute.Keyed
import WeightedStore.Proofs.Attribute.StableSort

/-!
Entries in the order of their keys. Looking a key up finds its first entry, in a list in order its
only one, so that such a list is known from what is found in it. Putting an entry keeps the order and
changes what is found under its key alone.
-/

namespace WeightedStore.Keyed

variable {κ β : Type} [Attribute κ] {key k : κ} {x : β} {xs ys : List (κ × β)}

abbrev Ascending (xs : List (κ × β)) : Prop :=
  xs.Pairwise fun a b => Attribute.before a.1 b.1 = true

theorem get?_cons_self (key : κ) (x : β) (xs : List (κ × β)) :
    get? key ((key, x) :: xs) = some x := by
  simp [get?]

theorem get?_cons_of_ne (h : key ≠ k) (x : β) (xs : List (κ × β)) :
    get? k ((key, x) :: xs) = get? k xs := by
  simp [get?, h]

theorem get?_append (k : κ) (xs ys : List (κ × β)) :
    get? k (xs ++ ys) = (get? k xs).or (get? k ys) := by
  rw [get?, List.find?_append, Option.map_or]
  rfl

theorem get?_eq_head?_run (k : κ) (xs : List (κ × β)) :
    get? k xs = (Attribute.run Prod.fst k xs).head?.map Prod.snd := by
  rw [get?, Attribute.run, List.head?_filter]

theorem mem_of_get? (h : get? k xs = some x) : (k, x) ∈ xs := by
  obtain ⟨e, he, rfl⟩ := Option.map_eq_some_iff.1 h
  have hkey : e.1 = k := by simpa using List.find?_some he
  exact hkey ▸ List.mem_of_find?_eq_some he

theorem get?_eq_none_iff : get? k xs = none ↔ k ∉ xs.map Prod.fst := by
  rw [get?, Option.map_eq_none_iff, List.find?_eq_none, List.mem_map]
  constructor
  · rintro h ⟨e, he, rfl⟩
    exact h e he (decide_eq_true rfl)
  · intro h e he hkey
    exact h ⟨e, he, of_decide_eq_true hkey⟩

theorem isSome_get?_iff : (get? k xs).isSome = true ↔ k ∈ xs.map Prod.fst := by
  rw [← Option.ne_none_iff_isSome, ne_eq, get?_eq_none_iff, not_not]

theorem get?_eq_some_iff_of_nodup (h : (xs.map Prod.fst).Nodup) :
    get? k xs = some x ↔ (k, x) ∈ xs := by
  refine ⟨mem_of_get?, fun hmem => ?_⟩
  induction xs with
  | nil => cases hmem
  | cons e xs ih =>
    obtain ⟨key, y⟩ := e
    obtain ⟨hkey, hxs⟩ := List.nodup_cons.1 h
    rcases List.mem_cons.1 hmem with heq | hmem
    · obtain ⟨rfl, rfl⟩ := Prod.mk.inj heq
      exact get?_cons_self _ _ _
    · have hne : key ≠ k := by
        rintro rfl
        exact hkey (List.mem_map.2 ⟨_, hmem, rfl⟩)
      rw [get?_cons_of_ne hne, ih hxs hmem]

theorem get?_eq_of_perm (h : (xs.map Prod.fst).Nodup) (hperm : ys.Perm xs) (k : κ) :
    get? k ys = get? k xs := by
  have h' : (ys.map Prod.fst).Nodup := (hperm.map Prod.fst).nodup_iff.2 h
  refine Option.ext fun x => ?_
  rw [get?_eq_some_iff_of_nodup h, get?_eq_some_iff_of_nodup h', hperm.mem_iff]

namespace Ascending

theorem nodup_keys (h : Ascending xs) : (xs.map Prod.fst).Nodup :=
  (List.pairwise_map.2 h).imp fun hab => ((Attribute.before_eq_true_iff _ _).1 hab).2

theorem get?_eq_some_iff (h : Ascending xs) : get? k xs = some x ↔ (k, x) ∈ xs :=
  get?_eq_some_iff_of_nodup h.nodup_keys

theorem eq_of_perm (hx : Ascending xs) (hy : Ascending ys) (hperm : xs.Perm ys) : xs = ys := by
  refine hperm.eq_of_pairwise (fun a b _ _ hab hba => ?_) hx hy
  have := Attribute.before_of_before_of_atMost hab (Attribute.atMost_of_before hba)
  simp at this

theorem eq_of_get?_eq (hx : Ascending xs) (hy : Ascending ys) (h : ∀ k, get? k xs = get? k ys) :
    xs = ys := by
  have hmem : ∀ e, e ∈ xs ↔ e ∈ ys := fun (k, x) => by
    rw [← hx.get?_eq_some_iff, h, hy.get?_eq_some_iff]
  exact hx.eq_of_perm hy
    ((List.perm_ext_iff_of_nodup hx.nodup_keys.of_map hy.nodup_keys.of_map).2 hmem)

theorem run_eq (h : Ascending xs) (k : κ) :
    (Attribute.run Prod.fst k xs).map Prod.snd = (get? k xs).toList := by
  have hlength : (Attribute.run Prod.fst k xs).length ≤ 1 := by
    have hkeys : ((Attribute.run Prod.fst k xs).map Prod.fst).Nodup :=
      h.nodup_keys.sublist (List.filter_sublist.map _)
    have hall : ∀ key ∈ (Attribute.run Prod.fst k xs).map Prod.fst, key = k := fun key hkey => by
      obtain ⟨e, he, rfl⟩ := List.mem_map.1 hkey
      exact (Attribute.mem_run.1 he).2
    rw [List.eq_replicate_of_mem hall, List.nodup_replicate] at hkeys
    simpa using hkeys
  rw [get?_eq_head?_run]
  match hrun : Attribute.run Prod.fst k xs, hlength with
  | [], _ => rfl
  | [e], _ => rfl

theorem run_of_get? (h : Ascending xs) (hget : get? k xs = some x) :
    Attribute.run Prod.fst k xs = [(k, x)] := by
  have hsecond := h.run_eq k
  rw [hget, Option.toList_some, List.map_eq_singleton_iff] at hsecond
  obtain ⟨e, hrun, rfl⟩ := hsecond
  have hkey : e.1 = k := (Attribute.mem_run.1 (hrun ▸ List.mem_singleton_self e)).2
  rw [hrun, ← hkey]

end Ascending

theorem mem_put {e : κ × β} (h : e ∈ put key x xs) : e = (key, x) ∨ e ∈ xs := by
  fun_induction put key x xs with
  | case1 => exact Or.inl (List.mem_singleton.1 h)
  | case2 y rest => exact (List.mem_cons.1 h).imp_right (List.mem_cons_of_mem _)
  | case3 k y rest _ _ => exact List.mem_cons.1 h
  | case4 k y rest _ _ ih =>
    rcases List.mem_cons.1 h with rfl | h
    · exact Or.inr List.mem_cons_self
    · exact (ih h).imp_right (List.mem_cons_of_mem _)

theorem ascending_put (h : Ascending xs) : Ascending (put key x xs) := by
  fun_induction put key x xs with
  | case1 => exact List.pairwise_singleton _ _
  | case2 y rest => exact List.pairwise_cons.2 (List.pairwise_cons.1 h)
  | case3 k y rest _ hbefore =>
    refine List.pairwise_cons.2 ⟨fun e he => ?_, h⟩
    rcases List.mem_cons.1 he with rfl | he
    · exact hbefore
    · have hk := (List.pairwise_cons.1 h).1 e he
      exact Attribute.before_of_before_of_atMost hbefore (Attribute.atMost_of_before hk)
  | case4 k y rest hne hbefore ih =>
    obtain ⟨hk, hrest⟩ := List.pairwise_cons.1 h
    refine List.pairwise_cons.2 ⟨fun e he => ?_, ih hrest⟩
    rcases mem_put he with rfl | he
    · -- the key put in is neither `k` nor before it
      rw [Attribute.before_eq_true_iff]
      exact ⟨by simpa [Attribute.before] using hbefore, hne⟩
    · exact hk e he

theorem perm_put (h : get? key xs = none) : (put key x xs).Perm ((key, x) :: xs) := by
  fun_induction put key x xs with
  | case1 => exact List.Perm.refl _
  | case2 y rest => simp [get?_cons_self] at h
  | case3 k y rest _ _ => exact List.Perm.refl _
  | case4 k y rest hne _ ih =>
    rw [get?_cons_of_ne hne] at h
    exact ((ih h).cons (k, y)).trans (List.Perm.swap _ _ _)

theorem get?_put_self (key : κ) (x : β) (xs : List (κ × β)) : get? key (put key x xs) = some x := by
  fun_induction put key x xs with
  | case1 => exact get?_cons_self _ _ _
  | case2 y rest => exact get?_cons_self _ _ _
  | case3 k y rest _ _ => exact get?_cons_self _ _ _
  | case4 k y rest hne _ ih => rw [get?_cons_of_ne hne, ih]

theorem get?_put_of_ne (h : key ≠ k) (x : β) (xs : List (κ × β)) :
    get? k (put key x xs) = get? k xs := by
  fun_induction put key x xs with
  | case1 => exact get?_cons_of_ne h _ _
  | case2 y rest => rw [get?_cons_of_ne h, get?_cons_of_ne h]
  | case3 k' y rest _ _ => exact get?_cons_of_ne h _ _
  | case4 k' y rest _ _ ih =>
    by_cases hk : k' = k
    · subst hk
      rw [get?_cons_self, get?_cons_self]
    · rw [get?_cons_of_ne hk, get?_cons_of_ne hk, ih]

end WeightedStore.Keyed
