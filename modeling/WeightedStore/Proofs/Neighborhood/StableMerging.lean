import WeightedStore.Attribute.Instances
import WeightedStore.Proofs.Attribute.StableSort
import WeightedStore.Proofs.Neighborhood.Merging
import WeightedStore.Proofs.Neighborhood.Requests

/-!
The neighbors of a neighborhood that is built, and their order. A group reports the neighbors it was given
in a stable sort by id, with the weights that its running totals still tell. The groups asked for come one
after the other as they are first mentioned; merged by id they are this one list in a stable sort.
-/

namespace WeightedStore

open Floating

theorem Floating.value_sub_of_exact {f : Format} {x w total : Floating f} (hx : x.IsAmount)
    (hw : w.isWeight = true) (ht : total.IsAmount) (h : total.value = x.value + w.value) :
    (total - x).value = w.value := by
  obtain ⟨hlt, hsign⟩ := isWeight_iff.1 hw
  have hvalue : w.value = w.units := by
    cases hn : w.negative with
    | false => simp [value, hn]
    | true => simp [value, hn, hsign hn]
  rw [hx.value, ht.value, hvalue] at h
  have hle : x.word ≤ total.word := by
    rw [← Nat.not_lt, ← Format.units_lt_units_iff (f := f)]
    change ¬total.units < x.units
    omega
  have hdifference : total.units - x.units = f.units w.word := by
    change _ = w.units
    omega
  rw [sub_eq_ofWord ht hx hle, hdifference, Format.round_units (Nat.le_of_lt hlt), hvalue,
    (isAmount_ofWord hlt).value, units, word_ofWord w.word_lt]
  rfl

namespace Running

variable {ws : List Binary32} {i : Nat}

def ExactAt (ws : List Binary32) (i : Nat) : Prop :=
  ∀ w before total, ws[i]? = some w → upTo? (totals ws) i = some before →
    (totals ws)[i]? = some total → total.value = before.value + w.value

theorem value_of_exactAt {w v : Binary32} (hws : ∀ w ∈ ws, w.isWeight = true)
    (hfinite : ∀ t ∈ totals ws, t.isFinite = true) (hw : ws[i]? = some w)
    (hv : (weights (totals ws))[i]? = some v) (h : ExactAt ws i) : v.value = w.value := by
  obtain ⟨before, hbefore, htotal⟩ := exists_before (x := zero) hw
  rw [weights_totals hws] at hv
  obtain rfl := Option.some.inj ((getElem?_weightsFrom hbefore htotal).symm.trans hv)
  have hvalid : ∀ w ∈ ws, w.isFinite = true → w.isWeight = true := fun w hw _ => hws w hw
  have hweight := hws w (List.mem_of_getElem? hw)
  have htotalFinite := hfinite _ (List.mem_of_getElem? htotal)
  have hbeforeAmount := isAmount_of_isFinite hvalid hbefore (isFinite_of_add fraction_pos htotalFinite).1
  exact value_sub_of_exact hbeforeAmount hweight ((isAmount_add_iff hbeforeAmount hweight).2 htotalFinite)
    (h w before (before + w) hw hbefore htotal)

end Running

namespace NeighborGroup

variable {pairs : List (UInt64 × Binary32)}

/-- Whether neighbors of an edge type are those given, in a stable sort by id: none is lost or repeated,
and their weights are what is taken back from the running totals of those given, which is the same wherever
a sum was not rounded. -/
structure Reports (pairs : List (UInt64 × Binary32)) (edgeType : Nat) (neighbors : List Neighbor) :
    Prop where
  ids : neighbors.map Neighbor.id = (Attribute.sortBy Prod.fst pairs).map Prod.fst
  edgeTypes : ∀ n ∈ neighbors, n.edgeType = edgeType
  weights : neighbors.map Neighbor.weight =
    Running.weights (Running.totals ((Attribute.sortBy Prod.fst pairs).map Prod.snd))
  exact : ∀ (i : Nat) n pair, neighbors[i]? = some n → (Attribute.sortBy Prod.fst pairs)[i]? = some pair →
    Running.ExactAt ((Attribute.sortBy Prod.fst pairs).map Prod.snd) i → n.weight.value = pair.2.value

theorem reports_ofPairs (hweights : ∀ w ∈ pairs.map Prod.snd, w.isWeight = true)
    (hfinite : (ofPairs pairs).total.isFinite = true) (edgeType : Nat) :
    Reports pairs edgeType ((ofPairs pairs).neighbors edgeType) := by
  have hcolumn : ((ofPairs pairs).neighbors edgeType).map Neighbor.weight = Running.weights
      (Running.totals ((Attribute.sortBy Prod.fst pairs).map Prod.snd)) := by
    rw [weights_neighbors, totals_ofPairs]
    rfl
  refine ⟨?_, fun n => edgeType_of_mem_neighbors, hcolumn, fun i n pair hn hpair hexact => ?_⟩
  · rw [ids_neighbors, ids_ofPairs]
    rfl
  · obtain ⟨hrising, -⟩ := rising_ofPairs hweights hfinite
    have hsorted : ∀ w ∈ (Attribute.sortBy Prod.fst pairs).map Prod.snd, w.isWeight = true := fun w hw =>
      hweights w (((List.mergeSort_perm pairs _).map Prod.snd).mem_iff.1 hw)
    have htotals : ∀ t ∈ Running.totals ((Attribute.sortBy Prod.fst pairs).map Prod.snd),
        t.isFinite = true := fun t ht => by
      refine isFinite_of_isWeight (hrising.isWeight t ?_)
      rw [totals_ofPairs]
      exact ht
    have hgiven : ((Attribute.sortBy Prod.fst pairs).map Prod.snd)[i]? = some pair.2 := by
      rw [List.getElem?_map, hpair]
      rfl
    have htaken := congrArg (fun weights => weights[i]?) hcolumn
    simp only [List.getElem?_map, hn, Option.map_some] at htaken
    exact Running.value_of_exactAt hsorted htotals hgiven htaken.symm hexact

end NeighborGroup

namespace Neighborhood

variable {a : Neighborhood} {lists rest : List (List Neighbor)} {n : Neighbor} {count : Nat}

theorem run_of_pop? (hlists : ∀ l ∈ lists, InIdOrder l) (h : pop? lists = some (n, rest)) (k : UInt64) :
    Attribute.run Neighbor.id k lists.flatten = Attribute.run Neighbor.id k (n :: rest.flatten) := by
  obtain ⟨before, l, after, rfl, rfl, -, hlarger⟩ := exists_of_pop? h
  simp only [List.flatten_append, List.flatten_cons, List.cons_append]
  by_cases hk : n.id = k
  · subst hk
    have hbefore : Attribute.run Neighbor.id n.id before.flatten = [] := by
      rw [Attribute.run, List.filter_eq_nil_iff]
      intro m hm
      obtain ⟨other, hother, hmem⟩ := List.mem_flatten.1 hm
      have horder := hlists other (List.mem_append_left _ hother)
      cases other with
      | nil => cases hmem
      | cons head others =>
        have hhead := hlarger _ hother head rfl
        have hlt : n.id < m.id := by
          rcases List.mem_cons.1 hmem with rfl | hmem
          · exact hhead
          · exact UInt64.lt_of_lt_of_le hhead ((List.pairwise_cons.1 horder).1 m hmem)
        rw [decide_eq_true_eq]
        exact (UInt64.ne_of_lt hlt).symm
    simp only [Attribute.run_append, Attribute.run_cons_self, hbefore, List.nil_append]
  · simp only [Attribute.run_append, Attribute.run_cons_of_ne hk]

theorem run_interleave (hcount : lists.flatten.length ≤ count) (hlists : ∀ l ∈ lists, InIdOrder l)
    (k : UInt64) :
    Attribute.run Neighbor.id k (interleave count lists) =
      Attribute.run Neighbor.id k lists.flatten := by
  induction count generalizing lists with
  | zero =>
    rw [List.length_eq_zero_iff.1 (Nat.le_zero.1 hcount)]
    rfl
  | succ count ih =>
    rw [interleave]
    cases hpop : pop? lists with
    | none => rw [pop?_eq_none_iff.1 hpop]
    | some popped =>
      obtain ⟨n, rest⟩ := popped
      have hrest := ih (length_le_of_pop? hpop hcount) (inIdOrder_of_pop? hlists hpop)
      rw [run_of_pop? hlists hpop]
      by_cases hk : n.id = k
      · subst hk
        rw [Attribute.run_cons_self, Attribute.run_cons_self, hrest]
      · rw [Attribute.run_cons_of_ne hk, Attribute.run_cons_of_ne hk, hrest]

theorem orderedBy_of_inIdOrder {neighbors : List Neighbor} (h : InIdOrder neighbors) :
    Attribute.OrderedBy Neighbor.id neighbors := h.imp fun hle => decide_eq_true hle

theorem interleave_eq_sortBy (hcount : lists.flatten.length ≤ count)
    (hlists : ∀ l ∈ lists, InIdOrder l) :
    interleave count lists = Attribute.sortBy Neighbor.id lists.flatten := by
  have hordered := orderedBy_of_inIdOrder (inIdOrder_interleave hcount hlists)
  refine Attribute.eq_of_run_eq hordered (Attribute.orderedBy_sortBy _ _) fun k => ?_
  rw [run_interleave hcount hlists, Attribute.run_sortBy]

theorem sortedFull_eq_sortBy {edgeTypes : List Int}
    (h : ∀ g ∈ a.requested edgeTypes, (a.groupAt g).InIdOrder) :
    a.sortedFull edgeTypes = Attribute.sortBy Neighbor.id (a.full edgeTypes) := by
  rw [sortedFull, full, List.flatMap_def]
  refine interleave_eq_sortBy (Nat.le_refl _) (List.forall_mem_map.2 fun g hg => ?_)
  exact inIdOrder_neighbors_iff.2 (h g hg)

theorem zip_unzipped {α β : Type} (pairs : List (α × β)) :
    (pairs.map Prod.fst).zip (pairs.map Prod.snd) = pairs := by
  rw [List.zip_map']
  exact List.map_id _

theorem ofLists_unzipped (groups : List (List (UInt64 × Binary32))) :
    ofLists (groups.map (List.map Prod.fst)) (groups.map (List.map Prod.snd)) = build groups := by
  have hlengths : (groups.map (List.map Prod.fst)).length = (groups.map (List.map Prod.snd)).length := by
    rw [List.length_map, List.length_map]
  have hpairs : (groups.map (List.map Prod.fst)).zip (groups.map (List.map Prod.snd)) =
      groups.map fun group => (group.map Prod.fst, group.map Prod.snd) := List.zip_map' ..
  rw [ofLists, if_neg (not_not.2 hlengths), hpairs]
  dsimp only
  split
  · rename_i ids weights g hfound
    obtain ⟨group, -, hgroup⟩ :=
      List.mem_map.1 (List.fst_mem_of_mem_zipIdx (List.mem_of_find?_eq_some hfound))
    obtain ⟨rfl, rfl⟩ := Prod.mk.inj hgroup
    have huneven := List.find?_some hfound
    simp at huneven
  · rw [List.map_map]
    exact congrArg build ((List.map_congr_left fun group _ => zip_unzipped group).trans (List.map_id _))

/-- Groups that are built report their neighbors in the order in which the groups are first asked for;
merged by id they are this one list in a stable sort. Lists of ids and of weights give the same. -/
theorem full_sortedFull_of_build {groups : List (List (UInt64 × Binary32))} (h : build groups = .ok a)
    (edgeTypes : List Int) :
    (∃ types lists, FirstMentions groups.length edgeTypes types ∧
      List.Forall₂ (fun t l => ∃ pairs, groups[t]? = some pairs ∧ NeighborGroup.Reports pairs t l)
        types lists ∧
      a.full edgeTypes = lists.flatten) ∧
    a.sortedFull edgeTypes = Attribute.sortBy Neighbor.id (a.full edgeTypes) ∧
    ofLists (groups.map (List.map Prod.fst)) (groups.map (List.map Prod.snd)) = .ok a := by
  obtain ⟨hrefusal, -, htotals, hgroups, -⟩ := exists_of_build h
  have hweights := ((refusal?_eq_none_iff (by decide)).1 hrefusal).1
  have hcount : a.groupCount = groups.length := by
    rw [groupCount, hgroups, List.length_map]
  refine ⟨⟨a.requested edgeTypes, (a.requested edgeTypes).map fun g => (a.groupAt g).neighbors g,
    hcount ▸ firstMentions_requested a edgeTypes, ?_, ?_⟩, ?_, ?_⟩
  · rw [List.forall₂_map_right_iff, List.forall₂_same]
    intro g hg
    have hlt : g < groups.length := hcount ▸ (mem_requested.1 hg).1
    have hpairs := List.getElem_mem hlt
    have hgroup : a.groupAt g = NeighborGroup.ofPairs groups[g] := by
      rw [groupAt, hgroups, List.getD_eq_getElem?_getD, List.getElem?_map, List.getElem?_eq_getElem hlt]
      rfl
    rw [hgroup]
    exact ⟨groups[g], List.getElem?_eq_getElem hlt, NeighborGroup.reports_ofPairs
      (hweights _ hpairs) (isFinite_of_isWeight (htotals _ hpairs)) g⟩
  · rw [full, List.flatMap_def]
  · refine sortedFull_eq_sortBy fun g hg => ?_
    have hgroup := getElem?_groups (mem_requested.1 hg).1
    exact (Built.ofGroups h).inIdOrder _ (List.mem_of_getElem? hgroup)
  · rw [ofLists_unzipped, h]

theorem full_sortedFull_of_build_ties :
    let one : Binary32 := .ofBits 0x3f800000
    let two : Binary32 := .ofBits 0x40000000
    let groups : List (List (UInt64 × Binary32)) := [[(5, one), (3, two), (3, one)], [], [(3, one)]]
    let lists : List (List Neighbor) := [[⟨3, one, 2⟩], [⟨3, two, 0⟩, ⟨3, one, 0⟩, ⟨5, one, 0⟩]]
    ∃ a, build groups = .ok a ∧ a.full [2, 7, 0, 2] = lists.flatten ∧
      (∃ types lists, FirstMentions groups.length [2, 7, 0, 2] types ∧
        List.Forall₂ (fun t l => ∃ pairs, groups[t]? = some pairs ∧ NeighborGroup.Reports pairs t l)
          types lists ∧
        a.full [2, 7, 0, 2] = lists.flatten) ∧
      a.sortedFull [2, 7, 0, 2] = Attribute.sortBy Neighbor.id (a.full [2, 7, 0, 2]) ∧
      ofLists (groups.map (List.map Prod.fst)) (groups.map (List.map Prod.snd)) = .ok a := by
  intro one two groups lists
  let three : Binary32 := .ofBits 0x40400000
  let four : Binary32 := .ofBits 0x40800000
  let a : Neighborhood := ⟨[⟨[(3, two), (3, three), (5, four)]⟩, ⟨[]⟩, ⟨[(3, one)]⟩],
    .ofWeighted [(0, four), (1, .zero), (2, one)]⟩
  have hsorted : ([(5, one), (3, two), (3, one)].mergeSort fun a b : UInt64 × Binary32 => a.1 ≤ b.1) =
      [(3, two), (3, one), (5, one)] := by cbv
  have hgroups : groups.map NeighborGroup.ofPairs = a.groups := by
    simp only [groups, List.map_cons, List.map_nil, NeighborGroup.ofPairs, hsorted,
      List.mergeSort_nil, List.mergeSort_singleton]
    decide +kernel
  have hbuild : build groups = .ok a := build_eq_ok (by decide) (by decide) hgroups rfl
  exact ⟨a, hbuild, by decide +kernel, full_sortedFull_of_build hbuild [2, 7, 0, 2]⟩

end Neighborhood

end WeightedStore
