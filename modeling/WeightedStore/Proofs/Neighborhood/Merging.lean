import WeightedStore.Neighborhood.Order
import WeightedStore.Proofs.Neighborhood.Built
import WeightedStore.Proofs.Node.Records

/-!
Neighbors merged by id. Each step takes a front with the least id, so lists come out in the order of
their ids exactly if each of them goes in so. The groups of a neighborhood that is built do; a record is
not asked whether its groups do.
-/

namespace WeightedStore

namespace NeighborGroup

theorem ids_neighbors (g : NeighborGroup) (edgeType : Nat) :
    (g.neighbors edgeType).map Neighbor.id = g.members.map Prod.fst := by
  have hlength : g.members.length ≤ (Running.weights g.totals).length := by
    rw [Running.length_weights, totals, List.length_map]
  have hids := congrArg (List.map Prod.fst) (List.map_fst_zip hlength)
  rw [List.map_map] at hids
  rw [neighbors, ← List.map_uncurry_zip_eq_zipWith, List.map_map]
  exact hids

end NeighborGroup

namespace Neighborhood

variable {lists rest : List (List Neighbor)} {n : Neighbor} {count : Nat}

def InIdOrder (neighbors : List Neighbor) : Prop := neighbors.Pairwise fun m n => m.id ≤ n.id

theorem inIdOrder_neighbors_iff {g : NeighborGroup} {edgeType : Nat} :
    InIdOrder (g.neighbors edgeType) ↔ g.InIdOrder := by
  rw [NeighborGroup.InIdOrder, ← NeighborGroup.ids_neighbors g edgeType, List.pairwise_map, InIdOrder]

theorem pop?_eq_none_iff : pop? lists = none ↔ lists.flatten = [] := by
  induction lists with
  | nil => exact iff_of_true rfl rfl
  | cons l lists ih =>
    cases l with
    | nil => rw [pop?, Option.map_eq_none_iff, ih, List.flatten_cons, List.nil_append]
    | cons a as =>
      refine iff_of_false ?_ nofun
      rw [pop?]
      split
      · exact nofun
      · split <;> exact nofun

theorem exists_of_pop? (h : pop? lists = some (n, rest)) :
    ∃ before l after, lists = before ++ (n :: l) :: after ∧ rest = before ++ l :: after ∧
      (∀ other ∈ lists, ∀ m, other.head? = some m → n.id ≤ m.id) ∧
        ∀ other ∈ before, ∀ m, other.head? = some m → n.id < m.id := by
  induction lists generalizing n rest with
  | nil => cases h
  | cons first lists ih =>
    cases first with
    | nil =>
      rw [pop?, Option.map_eq_some_iff] at h
      obtain ⟨⟨_, others⟩, htail, heq⟩ := h
      obtain ⟨rfl, rfl⟩ := Prod.mk.inj heq
      obtain ⟨before, l, after, rfl, rfl, hleast, hbefore⟩ := ih htail
      exact ⟨[] :: before, l, after, rfl, rfl, List.forall_mem_cons.2 ⟨nofun, hleast⟩,
        List.forall_mem_cons.2 ⟨nofun, hbefore⟩⟩
    | cons a as =>
      have hself : ∀ m, (a :: as).head? = some m → a.id ≤ m.id := by
        rintro _ ⟨⟩
        exact UInt64.le_refl _
      rw [pop?] at h
      cases htail : pop? lists with
      | none =>
        rw [htail] at h
        obtain ⟨rfl, rfl⟩ := Prod.mk.inj (Option.some.inj h)
        refine ⟨[], as, lists, rfl, rfl,
          List.forall_mem_cons.2 ⟨hself, fun other hother m hm => ?_⟩, nofun⟩
        -- nothing is left in the other lists
        have hempty := List.flatten_eq_nil_iff.1 (pop?_eq_none_iff.1 htail) other hother
        rw [hempty] at hm
        cases hm
      | some popped =>
        obtain ⟨b, others⟩ := popped
        obtain ⟨before, l, after, rfl, rfl, hleast, hbefore⟩ := ih htail
        rw [htail] at h
        dsimp only at h
        split at h
        · rename_i hlt
          obtain ⟨rfl, rfl⟩ := Prod.mk.inj (Option.some.inj h)
          refine ⟨(a :: as) :: before, l, after, rfl, rfl, List.forall_mem_cons.2 ⟨?_, hleast⟩,
            List.forall_mem_cons.2 ⟨?_, hbefore⟩⟩
          · rintro _ ⟨⟩
            exact UInt64.le_of_lt hlt
          · rintro _ ⟨⟩
            exact hlt
        · rename_i hle
          obtain ⟨rfl, rfl⟩ := Prod.mk.inj (Option.some.inj h)
          refine ⟨[], as, _, rfl, rfl,
            List.forall_mem_cons.2 ⟨hself, fun other hother m hm => ?_⟩, nofun⟩
          exact UInt64.le_trans (UInt64.not_lt.1 hle) (hleast other hother m hm)

theorem perm_of_pop? (h : pop? lists = some (n, rest)) : lists.flatten.Perm (n :: rest.flatten) := by
  obtain ⟨before, l, after, rfl, rfl, -⟩ := exists_of_pop? h
  rw [List.flatten_append, List.flatten_append, List.flatten_cons, List.flatten_cons, List.cons_append]
  exact List.perm_middle

theorem length_le_of_pop? (h : pop? lists = some (n, rest))
    (hcount : lists.flatten.length ≤ count + 1) : rest.flatten.length ≤ count := by
  have hlength := (perm_of_pop? h).length_eq
  rw [List.length_cons] at hlength
  rw [hlength] at hcount
  exact Nat.le_of_succ_le_succ hcount

theorem le_of_pop? (hlists : ∀ l ∈ lists, InIdOrder l) (h : pop? lists = some (n, rest)) :
    ∀ m ∈ lists.flatten, n.id ≤ m.id := by
  obtain ⟨-, -, -, -, -, hleast, -⟩ := exists_of_pop? h
  intro m hm
  obtain ⟨l, hl, hml⟩ := List.mem_flatten.1 hm
  have horder := hlists l hl
  cases l with
  | nil => cases hml
  | cons head others =>
    have hhead := hleast _ hl head rfl
    rcases List.mem_cons.1 hml with rfl | hml
    · exact hhead
    · exact UInt64.le_trans hhead ((List.pairwise_cons.1 horder).1 m hml)

theorem inIdOrder_of_pop? (hlists : ∀ l ∈ lists, InIdOrder l) (h : pop? lists = some (n, rest)) :
    ∀ l ∈ rest, InIdOrder l := by
  obtain ⟨before, tail, after, rfl, rfl, -⟩ := exists_of_pop? h
  obtain ⟨hbefore, hothers⟩ := List.forall_mem_append.1 hlists
  obtain ⟨hfront, hafter⟩ := List.forall_mem_cons.1 hothers
  exact List.forall_mem_append.2
    ⟨hbefore, List.forall_mem_cons.2 ⟨(List.pairwise_cons.1 hfront).2, hafter⟩⟩

theorem perm_interleave (h : lists.flatten.length ≤ count) :
    (interleave count lists).Perm lists.flatten := by
  induction count generalizing lists with
  | zero =>
    rw [List.length_eq_zero_iff.1 (Nat.le_zero.1 h)]
    rfl
  | succ count ih =>
    rw [interleave]
    cases hpop : pop? lists with
    | none =>
      rw [pop?_eq_none_iff.1 hpop]
    | some popped =>
      obtain ⟨n, rest⟩ := popped
      exact ((ih (length_le_of_pop? hpop h)).cons n).trans (perm_of_pop? hpop).symm

theorem sublist_interleave (h : lists.flatten.length ≤ count) :
    ∀ l ∈ lists, l.Sublist (interleave count lists) := by
  induction count generalizing lists with
  | zero =>
    intro l hl
    rw [List.flatten_eq_nil_iff.1 (List.length_eq_zero_iff.1 (Nat.le_zero.1 h)) l hl]
    exact List.nil_sublist _
  | succ count ih =>
    intro l hl
    rw [interleave]
    cases hpop : pop? lists with
    | none =>
      have hnil := List.flatten_eq_nil_iff.1 (pop?_eq_none_iff.1 hpop) l hl
      rw [hnil]
    | some popped =>
      obtain ⟨n, rest⟩ := popped
      have hrest := ih (length_le_of_pop? hpop h)
      obtain ⟨before, tail, after, rfl, rfl, -⟩ := exists_of_pop? hpop
      dsimp only
      rcases List.mem_append.1 hl with hbefore | hl
      · exact (hrest l (List.mem_append_left _ hbefore)).cons n
      rcases List.mem_cons.1 hl with rfl | hafter
      · exact (hrest tail (List.mem_append_right _ List.mem_cons_self)).cons_cons n
      · exact (hrest l (List.mem_append_right _ (List.mem_cons_of_mem _ hafter))).cons n

theorem inIdOrder_interleave (h : lists.flatten.length ≤ count) (hlists : ∀ l ∈ lists, InIdOrder l) :
    InIdOrder (interleave count lists) := by
  induction count generalizing lists with
  | zero => exact List.Pairwise.nil
  | succ count ih =>
    rw [interleave]
    cases hpop : pop? lists with
    | none => exact List.Pairwise.nil
    | some popped =>
      obtain ⟨n, rest⟩ := popped
      have hcount := length_le_of_pop? hpop h
      refine List.pairwise_cons.2 ⟨fun m hm => ?_, ih hcount (inIdOrder_of_pop? hlists hpop)⟩
      have hrest := (perm_interleave hcount).mem_iff.1 hm
      exact le_of_pop? hlists hpop m ((perm_of_pop? hpop).mem_iff.2 (List.mem_cons_of_mem n hrest))

theorem inIdOrder_interleave_iff (h : lists.flatten.length ≤ count) :
    InIdOrder (interleave count lists) ↔ ∀ l ∈ lists, InIdOrder l := by
  constructor
  · intro horder l hl
    exact horder.sublist (sublist_interleave h l hl)
  · exact inIdOrder_interleave h

/-- The neighbors of some groups come in the order of their ids exactly if those of each group stand so.
In a neighborhood that is built they do. -/
theorem inIdOrder_sortedFull_iff (a : Neighborhood) (edgeTypes : List Int) :
    (InIdOrder (a.sortedFull edgeTypes) ↔
      ∀ g ∈ a.requested edgeTypes, (a.groupAt g).InIdOrder) ∧
    (a.Built → InIdOrder (a.sortedFull edgeTypes)) := by
  have hmerged : InIdOrder (a.sortedFull edgeTypes) ↔
      ∀ g ∈ a.requested edgeTypes, (a.groupAt g).InIdOrder := by
    rw [sortedFull, inIdOrder_interleave_iff (Nat.le_refl _), List.forall_mem_map]
    simp only [inIdOrder_neighbors_iff]
  refine ⟨hmerged, fun hbuilt => hmerged.2 fun g _ => ?_⟩
  rw [groupAt, List.getD_eq_getElem?_getD]
  cases hgroup : a.groups[g]? with
  | none => exact List.Pairwise.nil
  | some group => exact hbuilt.inIdOrder group (List.mem_of_getElem? hgroup)

theorem inIdOrder_sortedFull_iff_shared_id :
    let one : Binary32 := .ofBits 0x3f800000
    let two : Binary32 := .ofBits 0x40000000
    let a : Neighborhood :=
      ⟨[⟨[(1, one), (2, two)]⟩, ⟨[(1, two)]⟩], .ofWeighted [(0, two), (1, two)]⟩
    a.Built ∧ a.sortedFull [1, 0] = [⟨1, two, 1⟩, ⟨1, one, 0⟩, ⟨2, one, 0⟩] ∧
      InIdOrder (a.sortedFull [1, 0]) := by
  intro one two a
  have hfirst : NeighborGroup.ofPairs [(2, one), (1, one)] = ⟨[(1, one), (2, two)]⟩ := by
    rw [NeighborGroup.ofPairs_pair (by decide)]
    decide +kernel
  have hsecond : NeighborGroup.ofPairs [(1, two)] = ⟨[(1, two)]⟩ := by
    rw [NeighborGroup.ofPairs, List.mergeSort_singleton]
    decide +kernel
  have hgroups : [[(2, one), (1, one)], [(1, two)]].map NeighborGroup.ofPairs = a.groups := by
    rw [List.map_cons, List.map_cons, hfirst, hsecond]
    rfl
  have hrefusal : refusal? 0 0 [[(2, one), (1, one)], [(1, two)]] = none :=
    (refusal?_eq_none_iff (by decide)).2 ⟨by decide, by decide⟩
  have hbuild : build [[(2, one), (1, one)], [(1, two)]] = .ok a := by
    rw [build, hrefusal, hgroups]
    rfl
  have hbuilt : a.Built := .ofGroups hbuild
  exact ⟨hbuilt, by decide +kernel, (inIdOrder_sortedFull_iff a [1, 0]).2 hbuilt⟩

end Neighborhood

namespace Node

/-- A record is accepted whose one group does not stand in the order of its ids, and so are its neighbors
returned. -/
theorem sortedFull_of_record_descends :
    let one : Binary32 := .ofBits 0x3f800000
    let bytes : List UInt8 :=
      [7, 0, 0, 0, 0, 0, 0, 0, 0, 0, 0, 0, 0, 0, 128, 63,
        1, 0, 0, 0, 0, 0, 0, 0, 1, 0, 0, 0, 0, 0, 0, 64, 1, 0, 0, 0, 2, 0, 0, 0,
        2, 0, 0, 0, 2, 0, 0, 0, 0, 0, 0, 0, 1, 0, 0, 0, 0, 0, 0, 0,
        2, 0, 0, 0, 0, 0, 128, 63, 0, 0, 0, 64,
        0, 0, 0, 0, 0, 0, 0, 0, 0, 0, 0, 0, 0, 0, 0, 0, 0, 0, 0, 0,
        0, 0, 0, 0, 0, 0, 0, 0, 0, 0, 0, 0, 0, 0, 0, 0, 0, 0, 0, 0, 0, 0, 0, 0]
    ∃ n : Node, decode bytes = .ok n ∧
      n.outgoing.sortedFull [0] = [⟨2, one, 0⟩, ⟨1, one, 0⟩] ∧
      ¬Neighborhood.InIdOrder (n.outgoing.sortedFull [0]) := by
  intro one bytes
  let two : Binary32 := .ofBits 0x40000000
  let n : Node := ⟨7, 0, one, ⟨[⟨[(2, one), (1, two)]⟩], .ofWeighted [(0, two)]⟩,
    ⟨[], .ofWeighted []⟩, .empty⟩
  have hfeatures : n.features.Sound := ⟨by decide, by decide, by decide⟩
  have hincoming : n.incoming.Sound := Neighborhood.sound_of_no_group
  have houtgoing : n.outgoing.Sound :=
    ⟨rfl, by decide, rfl, Neighborhood.holds_iff.1 (by decide +kernel)⟩
  have hbytes : n.encode = .ok bytes := by decide +kernel
  have hdecode : decode bytes = .ok n :=
    decode_eq_ok_iff.2 ⟨hbytes, houtgoing, hincoming, hfeatures⟩
  have hneighbors : n.outgoing.sortedFull [0] = [⟨2, one, 0⟩, ⟨1, one, 0⟩] := by decide +kernel
  refine ⟨n, hdecode, hneighbors, fun horder => ?_⟩
  rw [hneighbors] at horder
  have hle := (List.pairwise_cons.1 horder).1 _ (List.mem_singleton_self _)
  exact absurd hle (by decide)

end Node

end WeightedStore
