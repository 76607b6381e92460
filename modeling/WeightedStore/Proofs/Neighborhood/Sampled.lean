import WeightedStore.Proofs.Neighborhood.Attempts
import WeightedStore.Proofs.Neighborhood.Misnumbered
import WeightedStore.Proofs.Weighted.Sums

/-!
What sampling gives. It picks groups among those that are asked for, one of them straight away and several
out of their pool, and draws a neighbor of the group it picked. So it gives neighbors of these groups, as
many as are wanted or none.
-/

namespace WeightedStore

open Floating Draw

theorem Floating.IsSum.sub_zero {x : Binary32} (h : x.IsSum) : x - zero = x := by
  rcases h.isTotal_or with htotal | rfl
  · exact htotal.sub_zero (by decide)
  · decide

theorem Running.ensures_select_all {totals : List Binary32} (h : (totals.getLastD zero).IsSum) :
    (select totals 0 totals.length).Ensures fun drawn =>
      (drawn.isSome = true ↔ zero.below (totals.getLastD zero) = true) := by
  have hlast : upTo totals totals.length = totals.getLastD zero := by
    rw [upTo, upTo?]
    cases totals with
    | nil => rfl
    | cons t ts =>
      rw [List.length_cons, List.getElem?_cons_succ, List.getLastD_eq_getLast?,
        List.getLast?_eq_getElem?, List.length_cons, Nat.add_sub_cancel]
  have hweight : upTo totals totals.length - upTo totals 0 = totals.getLastD zero := by
    rw [hlast]
    exact h.sub_zero
  rw [select]
  split
  · rename_i hplaces
    have hnil : totals = [] := List.length_eq_zero_iff.1 (by omega)
    subst hnil
    exact ensures_pure (by decide)
  · dsimp only
    rw [hweight]
    split
    · rename_i hzero
      exact ensures_pure (iff_of_false Bool.false_ne_true (h.atMost_zero_iff.1 hzero))
    · rename_i hzero
      rw [h.atMost_zero_iff, not_not] at hzero
      exact (ensures_any Draw.coin).bind fun _ _ => ensures_pure (iff_of_true rfl hzero)

namespace Neighborhood

variable {a : Neighborhood} {g count : Nat} {groups : List Nat} {edgeTypes : List Int}
  {stream : WordStream} {pick : Draw (Option Nat)}

def sampleCounted (a : Neighborhood) (groups : List Nat) (count : Nat) :
    StateT Nat Draw (List Neighbor) :=
  match a.picker? groups count with
  | none => return []
  | some pick => do
    return (← drawMany (counted pick) (fun g => liftM (a.drawIn g)) allowedMisses count).getD []

theorem ensures_drawIn (h : a.Sound) (hg : g < a.groupCount) : (a.drawIn g).Ensures fun drawn =>
    (∀ n ∈ drawn, n ∈ (a.groupAt g).neighbors g) ∧
      (drawn.isSome = true ↔ zero.below (a.weightOf g) = true) := by
  have hholds := h.holds g _ (getElem?_groups hg)
  have htotal : (a.groupAt g).total.IsSum := by
    refine isSum_of_isWeight ?_
    rw [NeighborGroup.total]
    rcases List.mem_cons.1 (List.getLastD_mem_cons (l := (a.groupAt g).totals) (a := zero)) with hzero | hmem
    · rw [hzero]
      decide
    · exact hholds.rising.isWeight _ hmem
  have hagree : zero.below (a.weightOf g) = zero.below (a.groupAt g).total :=
    of_decide_eq_true (Bool.and_eq_true_iff.1 hholds.agree).1
  have hlength : (a.groupAt g).totals.length = (a.groupAt g).members.length := List.length_map _
  have hplace : (Running.select (a.groupAt g).totals 0 (a.groupAt g).members.length).Ensures fun drawn =>
      ∀ i ∈ drawn, 0 ≤ i ∧ i < (a.groupAt g).members.length :=
    Running.ensures_select
  have hsome := Running.ensures_select_all htotal
  rw [hlength] at hsome
  rw [drawIn_of_getElem? (getElem?_groups hg), hagree]
  intro stream used drawn used' hdrawn
  rw [bind_apply, Option.bind_eq_some_iff] at hdrawn
  obtain ⟨⟨place, used''⟩, hselect, hdrawn⟩ := hdrawn
  cases hdrawn
  have hplace := hplace _ _ _ _ hselect
  have hsome : place.isSome = true ↔ zero.below (a.groupAt g).total = true := hsome _ _ _ _ hselect
  rw [← hsome]
  cases place with
  | none => exact ⟨nofun, Iff.rfl⟩
  | some i =>
    obtain ⟨-, hi⟩ := hplace i rfl
    rw [← NeighborGroup.length_neighbors _ g] at hi
    rw [Option.bind_some, List.getElem?_eq_getElem hi]
    refine ⟨?_, iff_of_true rfl rfl⟩
    rintro _ ⟨⟩
    exact List.getElem_mem hi

theorem returns_drawIn (hg : g < a.groupCount) (stream : WordStream) : Returns stream (a.drawIn g) := by
  rw [drawIn_of_getElem? (getElem?_groups hg)]
  refine Returns.bind ?_ fun _ => returns_pure _
  rw [Running.select]
  split
  · exact returns_pure _
  · dsimp only
    split
    · exact returns_pure _
    · exact returns_coin.bind fun _ => returns_pure _

theorem mem_chosen_scope : g ∈ a.chosen (a.scope edgeTypes) ↔ g ∈ a.requested (a.scope edgeTypes) := by
  rw [mem_chosen, mem_requested]

theorem ne_nil_of_chosen (hone : a.chosen edgeTypes = [g]) : edgeTypes ≠ [] := by
  rintro rfl
  simp [chosen] at hone

theorem poolOf_chosen (h : a.Sound) (hvalid : ∀ t ∈ edgeTypes, a.HasType t)
    (hnumbers : (a.chosen (a.scope edgeTypes)).length ≤ Offsets.limit) :
    a.poolOf (a.chosen edgeTypes) =
      .ofWeighted ((a.chosen (a.scope edgeTypes)).map fun g => (g, a.weightOf g)) := by
  have hstored (hcount : a.groupCount ≤ Offsets.limit) :
      a.pool = .ofWeighted ((List.range a.groupCount).map fun g => (g, a.weightOf g)) := by
    rw [h.pool_eq, pool_columns hcount]
    congr 1
    refine List.ext_getElem (by simp [h.length_weights]) fun g hg _ => ?_
    rw [List.length_zip, h.length_weights, List.length_range, Nat.min_self] at hg
    have hweight : g < a.pool.weights.length := h.length_weights.symm ▸ hg
    simp [weightOf, hweight]
  rw [poolOf]
  split
  · rename_i hwhole
    have hlength := length_chosen_scope_of_whole hvalid hwhole
    have hrange : a.chosen (a.scope edgeTypes) = List.range a.groupCount :=
      List.filter_sublist.eq_of_length (hlength.trans List.length_range.symm)
    rw [hstored (hlength ▸ hnumbers), hrange]
  · rename_i hpart
    rw [scope_of_ne_nil fun hnil => hpart (Or.inl (by rw [hnil]; simp [chosen]))]

theorem isWeight_weightOf (h : a.Sound) (g : Nat) : (a.weightOf g).isWeight = true := by
  rw [weightOf, List.getD_eq_getElem?_getD]
  cases hg : a.pool.weights[g]? with
  | none => decide
  | some w => exact h.isWeight w (List.mem_of_getElem? hg)

theorem isWeight_of_mem_weights (h : a.Sound) :
    ∀ w ∈ (groups.map fun g => (g, a.weightOf g)).map Prod.snd, w.isWeight = true := by
  intro w hw
  obtain ⟨x, hx, rfl⟩ := List.mem_map.1 hw
  obtain ⟨g, -, rfl⟩ := List.mem_map.1 hx
  exact isWeight_weightOf h g

theorem total_pool (a : Neighborhood) (groups : List Nat) :
    (Pool.ofWeighted (groups.map fun g => (g, a.weightOf g))).total = sum (groups.map a.weightOf) := by
  change sum ((groups.map fun g => (g, a.weightOf g)).map Prod.snd) = _
  rw [List.map_map]
  rfl

theorem isSum_total (h : a.Sound) (groups : List Nat) :
    (Pool.ofWeighted (groups.map fun g => (g, a.weightOf g))).total.IsSum :=
  isSum_sum Running.fraction_pos (isWeight_of_mem_weights h)

theorem zero_below_total (h : a.Sound) (hg : g ∈ groups) (hpos : zero.below (a.weightOf g) = true) :
    zero.below (Pool.ofWeighted (groups.map fun g => (g, a.weightOf g))).total = true := by
  have hmem := List.mem_map_of_mem (f := Prod.snd) (List.mem_map_of_mem (f := fun g => (g, a.weightOf g)) hg)
  exact zero_below_sum Running.fraction_pos (isWeight_of_mem_weights h) hmem hpos

theorem picker?_cases (h : a.Sound) (hvalid : ∀ t ∈ edgeTypes, a.HasType t)
    (hnumbers : (a.chosen (a.scope edgeTypes)).length ≤ Offsets.limit)
    (hpicker : a.picker? (a.chosen edgeTypes) count = some pick) :
    (∃ g, a.chosen (a.scope edgeTypes) = [g] ∧ pick = pure (some g)) ∨
      ∃ pool, pool = Pool.ofWeighted ((a.chosen (a.scope edgeTypes)).map fun g => (g, a.weightOf g)) ∧
        zero.below pool.total = true ∧ pick = do return (← pool.draw).map Prod.fst := by
  rw [picker?.eq_def] at hpicker
  split at hpicker
  · cases hpicker
  split at hpicker
  · rename_i g hone
    split at hpicker
    · cases hpicker
    · rw [scope_of_ne_nil (ne_nil_of_chosen hone)]
      exact Or.inl ⟨g, hone, (Option.some.inj hpicker).symm⟩
  · split at hpicker
    · cases hpicker
    · rename_i htotal
      rw [poolOf_chosen h hvalid hnumbers] at htotal hpicker
      have hpos := (isSum_total h (a.chosen (a.scope edgeTypes))).atMost_zero_iff.not.1 htotal
      exact Or.inr ⟨_, rfl, not_not.1 hpos, (Option.some.inj hpicker).symm⟩

theorem ensures_picker (h : a.Sound) (hvalid : ∀ t ∈ edgeTypes, a.HasType t)
    (hnumbers : (a.chosen (a.scope edgeTypes)).length ≤ Offsets.limit)
    (hpicker : a.picker? (a.chosen edgeTypes) count = some pick) :
    pick.Ensures fun picked => ∃ g, picked = some g ∧ g ∈ a.chosen (a.scope edgeTypes) := by
  rcases picker?_cases h hvalid hnumbers hpicker with ⟨g, hone, rfl⟩ | ⟨_, rfl, hpos, rfl⟩
  · exact ensures_pure ⟨g, rfl, hone ▸ List.mem_cons_self⟩
  · refine (Pool.ensures_draw_some hpos).bind ?_
    rintro _ ⟨x, rfl, hx⟩
    obtain ⟨g, hg, rfl⟩ := List.mem_map.1 hx
    exact ensures_pure ⟨g, rfl, hg⟩

theorem ensures_picker_lt (h : a.Sound) (hvalid : ∀ t ∈ edgeTypes, a.HasType t)
    (hnumbers : (a.chosen (a.scope edgeTypes)).length ≤ Offsets.limit)
    (hpicker : a.picker? (a.chosen edgeTypes) count = some pick) :
    pick.Ensures fun picked => ∀ g ∈ picked, g < a.groupCount := by
  rintro stream used picked used' hpicked g rfl
  obtain ⟨_, ⟨⟩, hmem⟩ := ensures_picker h hvalid hnumbers hpicker stream used _ used' hpicked
  exact (mem_chosen.1 hmem).1

theorem returns_picker (h : a.Sound) (hvalid : ∀ t ∈ edgeTypes, a.HasType t)
    (hnumbers : (a.chosen (a.scope edgeTypes)).length ≤ Offsets.limit)
    (hserves : stream.Serves (a.chosen (a.scope edgeTypes)).length)
    (hpicker : a.picker? (a.chosen edgeTypes) count = some pick) : Returns stream pick := by
  rcases picker?_cases h hvalid hnumbers hpicker with ⟨g, -, rfl⟩ | ⟨_, rfl, hpos, rfl⟩
  · exact returns_pure _
  · rw [← List.length_map (f := fun g => (g, a.weightOf g))] at hserves
    exact (Pool.returns_draw hpos hserves).bind fun _ => returns_pure _

theorem exists_picker (h : a.Sound) (hvalid : ∀ t ∈ edgeTypes, a.HasType t)
    (hnumbers : (a.chosen (a.scope edgeTypes)).length ≤ Offsets.limit) (hcount : count ≠ 0)
    (hg : g ∈ a.chosen (a.scope edgeTypes)) (hpos : zero.below (a.weightOf g) = true) :
    ∃ pick, a.picker? (a.chosen edgeTypes) count = some pick := by
  have hgroups : ¬(count = 0 ∨ a.groupCount = 0) := by
    have := (mem_chosen.1 hg).1
    omega
  rw [picker?.eq_def, if_neg hgroups]
  split
  · rename_i g' hone
    rw [scope_of_ne_nil (ne_nil_of_chosen hone), hone, List.mem_singleton] at hg
    subst hg
    rw [if_neg fun hzero => (isSum_of_isWeight (isWeight_weightOf h g)).atMost_zero_iff.1 hzero hpos]
    exact ⟨_, rfl⟩
  · rw [poolOf_chosen h hvalid hnumbers,
      if_neg fun hzero => (isSum_total h _).atMost_zero_iff.1 hzero (zero_below_total h hg hpos)]
    exact ⟨_, rfl⟩

theorem returns_sampleGroups (h : a.Sound) (hvalid : ∀ t ∈ edgeTypes, a.HasType t)
    (hnumbers : (a.chosen (a.scope edgeTypes)).length ≤ Offsets.limit)
    (hserves : stream.Serves (a.chosen (a.scope edgeTypes)).length) :
    Returns stream (a.sampleGroups (a.chosen edgeTypes) count) := by
  rw [sampleGroups]
  cases hpicker : a.picker? (a.chosen edgeTypes) count with
  | none => exact returns_pure _
  | some pick =>
    exact (returns_drawMany (returns_picker h hvalid hnumbers hserves hpicker)
      (ensures_picker_lt h hvalid hnumbers hpicker) (fun g hg => returns_drawIn hg stream) _ _).bind
      fun _ => returns_pure _

variable {used used' : Nat} {neighbors : List Neighbor}

theorem attempts_of_sampleGroups
    (hsample : a.sampleGroups groups count stream used = some (neighbors, used')) :
    a.picker? groups count = none ∧ neighbors = [] ∧ used' = used ∨
      ∃ pick result picks, a.picker? groups count = some pick ∧ neighbors = result.getD [] ∧
        Attempts pick a.drawIn stream allowedMisses count used result used' picks := by
  rw [sampleGroups] at hsample
  cases hpicker : a.picker? groups count with
  | none =>
    rw [hpicker] at hsample
    cases hsample
    exact Or.inl ⟨rfl, rfl, rfl⟩
  | some pick =>
    rw [hpicker] at hsample
    dsimp only at hsample
    rw [bind_apply, Option.bind_eq_some_iff] at hsample
    obtain ⟨⟨result, used''⟩, hdraw, hresult⟩ := hsample
    cases hresult
    obtain ⟨picks, hattempts⟩ := exists_attempts hdraw
    exact Or.inr ⟨pick, result, picks, rfl, rfl, hattempts⟩

theorem sampleCounted_eq
    (hsample : a.sampleGroups groups count stream used = some (neighbors, used')) :
    ∃ picks ≤ count + allowedMisses,
      a.sampleCounted groups count 0 stream used = some ((neighbors, picks), used') := by
  rw [sampleCounted]
  rcases attempts_of_sampleGroups hsample with
    ⟨hpicker, rfl, rfl⟩ | ⟨pick, result, picks, hpicker, rfl, hattempts⟩
  · rw [hpicker]
    exact ⟨0, Nat.zero_le _, rfl⟩
  · rw [hpicker]
    refine ⟨picks, hattempts.picks_le, ?_⟩
    change (drawMany (counted pick) (fun g => liftM (a.drawIn g)) allowedMisses count 0 stream used).bind
      _ = _
    rw [hattempts.drawMany_counted, Nat.zero_add]
    rfl

section Attempted

variable (hsample : a.sampleGroups (a.chosen edgeTypes) count stream used = some (neighbors, used'))
  (h : a.Sound) (hvalid : ∀ t ∈ edgeTypes, a.HasType t)
  (hnumbers : (a.chosen (a.scope edgeTypes)).length ≤ Offsets.limit)
include hsample h hvalid hnumbers

theorem length_sampleGroups : (neighbors = [] ∨ neighbors.length = count) ∧
    ∀ n ∈ neighbors, n ∈ a.full (a.scope edgeTypes) := by
  rcases attempts_of_sampleGroups hsample with ⟨-, rfl, -⟩ | ⟨pick, result, picks, hpicker, rfl, hattempts⟩
  · exact ⟨Or.inl rfl, nofun⟩
  have hpick := ensures_picker h hvalid hnumbers hpicker
  have hmember (g : Nat) (hg : g ∈ a.chosen (a.scope edgeTypes)) :
      Gives stream (a.drawIn g) fun drawn => ∀ n ∈ drawn, n ∈ a.full (a.scope edgeTypes) :=
    fun used drawn used' hdraw n hn =>
      List.mem_flatMap.2 ⟨g, mem_chosen_scope.1 hg,
        (ensures_drawIn h (mem_chosen.1 hg).1 stream used drawn used' hdraw).1 n hn⟩
  have hresult := hattempts.length_eq (hpick stream) hmember
  cases result with
  | none => exact ⟨Or.inl rfl, nofun⟩
  | some neighbors =>
    obtain ⟨hlength, hall⟩ := hresult neighbors rfl
    exact ⟨Or.inr hlength, hall⟩

theorem length_eq_of_picker (hg : g ∈ a.chosen (a.scope edgeTypes)) (hpos : zero.below (a.weightOf g) = true)
    (hpicker : ∀ pick, a.picker? (a.chosen edgeTypes) count = some pick →
      pick.Ensures fun picked => ∀ g ∈ picked, zero.below (a.weightOf g) = true) :
    neighbors.length = count := by
  rcases attempts_of_sampleGroups hsample with
    ⟨hnone, rfl, -⟩ | ⟨pick, result, picks, hsome, rfl, hattempts⟩
  · by_contra hcount
    obtain ⟨pick, hsome⟩ := exists_picker h hvalid hnumbers (Ne.symm hcount) hg hpos
    rw [hnone] at hsome
    cases hsome
  have hpick : Gives stream pick fun picked =>
      ∃ g, picked = some g ∧ g < a.groupCount ∧ zero.below (a.weightOf g) = true := by
    intro used picked used' hpicked
    obtain ⟨g, rfl, hmem⟩ := ensures_picker h hvalid hnumbers hsome stream used picked used' hpicked
    exact ⟨g, rfl, (mem_chosen.1 hmem).1, hpicker pick hsome stream used _ used' hpicked g rfl⟩
  have hdrawn := hattempts.isSome hpick fun g hg used drawn used' hdraw =>
    (ensures_drawIn h hg.1 stream used drawn used' hdraw).2.2 hg.2
  obtain ⟨neighbors, rfl⟩ := Option.isSome_iff_exists.1 hdrawn
  have hany (g : Nat) (_ : g < a.groupCount ∧ zero.below (a.weightOf g) = true) :
      Gives stream (a.drawIn g) fun drawn => ∀ n ∈ drawn, True := fun _ _ _ _ _ _ => trivial
  exact (hattempts.length_eq hpick hany neighbors rfl).1

end Attempted

/-- Sampling is refused exactly if the neighborhood does not have one of the edge types, and depends on
nothing but which ones are asked for. It draws as many neighbors as are wanted, or none: each of a group that
is asked for, or of any group if none is. A group is picked no more often than neighbors are wanted and misses
allowed. From a single group that has weight, all that is wanted is drawn. For all this 32 bits have to say the
numbers of the groups, and what is wanted has to have room. -/
theorem sample_full_or_empty (h : a.Obtained) (edgeTypes : List Int) (count : Nat) :
    (∀ e, a.sampleInRoom edgeTypes count = .error e ↔ a.Refuses edgeTypes e) ∧
    ((∀ t ∈ edgeTypes, a.HasType t) → a.Numbered edgeTypes → count < Neighbor.tooMany →
      ∃ draw, a.sampleInRoom edgeTypes count = .ok (some draw) ∧
      (∀ others : List Int, (∀ t, t ∈ others ↔ t ∈ edgeTypes) →
        a.sampleInRoom others count = .ok (some draw)) ∧
      ∀ stream used,
        (stream.Serves (a.chosen (a.scope edgeTypes)).length →
          ∃ neighbors used', draw stream used = some (neighbors, used')) ∧
        ∀ neighbors used', draw stream used = some (neighbors, used') →
          (neighbors = [] ∨ neighbors.length = count) ∧
          (∀ n ∈ neighbors, n ∈ a.full (a.scope edgeTypes)) ∧
          (∃ picks ≤ count + 64,
            a.sampleCounted (a.chosen edgeTypes) count 0 stream used = some ((neighbors, picks), used')) ∧
          ∀ g, a.requested (a.scope edgeTypes) = [g] → zero.below (a.weightOf g) = true →
            neighbors.length = count) := by
  constructor
  · exact fun e => bind_selected_eq_error_iff _
  intro hvalid hnumbered hroom
  have hsound := h.sound
  have hnumbers := hnumbered.length_le
  have hsample {others : List Int} (hothers : ∀ t, t ∈ others ↔ t ∈ edgeTypes) :
      a.sampleInRoom others count = .ok (some (a.sampleGroups (a.chosen edgeTypes) count)) := by
    rw [sampleInRoom_of_lt a others hroom, sample,
      selected_of_hasType fun t ht => hvalid t ((hothers t).1 ht), chosen_congr hothers]
    rfl
  refine ⟨_, hsample fun _ => Iff.rfl, fun others => hsample, fun stream used =>
    ⟨fun hserves => returns_sampleGroups hsound hvalid hnumbers hserves used, fun neighbors used' hdraw => ?_⟩⟩
  obtain ⟨hlength, hmember⟩ := length_sampleGroups hdraw hsound hvalid hnumbers
  refine ⟨hlength, hmember, sampleCounted_eq hdraw, fun g hone hpos => ?_⟩
  have hchosen : a.chosen (a.scope edgeTypes) = [g] := by
    have hperm := perm_chosen_requested a (a.scope edgeTypes)
    rw [hone] at hperm
    exact List.perm_singleton.1 hperm
  refine length_eq_of_picker hdraw hsound hvalid hnumbers (hchosen ▸ List.mem_cons_self) hpos
    fun pick hpicker => ?_
  rintro stream used picked used' hpicked g' rfl
  obtain ⟨_, ⟨⟩, hmem⟩ := ensures_picker hsound hvalid hnumbers hpicker stream used _ used' hpicked
  rw [hchosen, List.mem_singleton] at hmem
  rwa [hmem]

theorem sample_full_or_empty_twice :
    let one : Binary32 := .ofBits 0x3f800000
    let groups : List (List (UInt64 × Binary32)) := [[], [(7, one)], [(9, one)]]
    let stream : WordStream := ⟨fun _ => 0, 1⟩
    ∃ a, build groups = .ok a ∧ stream.Serves (a.chosen (a.scope [1, 1])).length ∧
      a.requested (a.scope [1, 1]) = [1] ∧ zero.below (a.weightOf 1) = true ∧
      a.Refuses [1, 3] (.invalidEdgeType 3 3) ∧ a.sampleInRoom [1, 3] 2 = .error (.invalidEdgeType 3 3) ∧
      ∃ draw, a.sampleInRoom [1, 1] 2 = .ok (some draw) ∧ a.sampleInRoom [1] 2 = .ok (some draw) ∧
        ∃ neighbors used', draw stream 0 = some (neighbors, used') ∧ neighbors.length = 2 ∧
          (∀ n ∈ neighbors, n ∈ [(⟨7, one, 1⟩ : Neighbor)]) ∧
          ∃ picks ≤ 2 + 64,
            a.sampleCounted (a.chosen [1, 1]) 2 0 stream 0 = some ((neighbors, picks), used') := by
  intro one groups stream
  let a : Neighborhood := ⟨[⟨[]⟩, ⟨[(7, one)]⟩, ⟨[(9, one)]⟩],
    .ofWeighted [(0, .zero), (1, one), (2, one)]⟩
  have hgroups : groups.map NeighborGroup.ofPairs = a.groups := by
    simp only [groups, List.map_cons, List.map_nil, NeighborGroup.ofPairs_nil,
      NeighborGroup.ofPairs_singleton]
    decide +kernel
  have hbuild : build groups = .ok a := build_eq_ok (by decide) (by decide) hgroups rfl
  have hserves : stream.Serves (a.chosen (a.scope [1, 1])).length := WordStream.serves_zeros _
  have hone : a.requested (a.scope [1, 1]) = [1] := by decide
  have hpos : zero.below (a.weightOf 1) = true := by decide
  have hobtained : a.Obtained := .built (.ofGroups hbuild)
  have hrefuses : a.sampleInRoom [1, 3] 2 = .error (.invalidEdgeType 3 3) := rfl
  obtain ⟨draw, hdraw, hothers, hruns⟩ :=
    (sample_full_or_empty hobtained [1, 1] 2).2 (by decide) (Or.inl (by decide)) (by decide)
  obtain ⟨neighbors, used', hresult⟩ := (hruns stream 0).1 hserves
  obtain ⟨-, hmember, hcounted, hlength⟩ := (hruns stream 0).2 neighbors used' hresult
  exact ⟨a, hbuild, hserves, hone, hpos, ((sample_full_or_empty hobtained [1, 3] 2).1 _).1 hrefuses,
    hrefuses, draw, hdraw, hothers [1] (by simp), neighbors, used', hresult, hlength 1 hone hpos, hmember,
    hcounted⟩

theorem build_infinite_total :
    let most : Binary32 := .ofBits 0x7f7fffff
    build [[], [(1, most)], [(2, most)]] = .ok ⟨[⟨[]⟩, ⟨[(1, most)]⟩, ⟨[(2, most)]⟩],
      .ofWeighted [(0, .zero), (1, most), (2, most)]⟩ := by
  intro most
  refine build_eq_ok (by decide) (by decide) ?_ rfl
  simp only [List.map_cons, List.map_nil, NeighborGroup.ofPairs_nil, NeighborGroup.ofPairs_singleton]
  decide +kernel

/-- More is wanted of three groups than there is room for, and a record has more groups than numbers with a
sign can say. -/
theorem sample_breaks_off :
    let most : Binary32 := .ofBits 0x7f7fffff
    (∃ a, build [[], [(1, most)], [(2, most)]] = .ok a ∧ a.sampleInRoom [] Neighbor.tooMany = .ok none) ∧
    ∃ (a : Neighborhood) (draw : Draw (List Neighbor)) (stream : WordStream), a.Obtained ∧
      stream.Serves (a.chosen (a.scope [])).length ∧ a.sampleInRoom [] 1 = .ok (some draw) ∧
      draw stream 0 = none := by
  intro most
  let a : Neighborhood := ⟨[⟨[]⟩, ⟨[(1, most)]⟩, ⟨[(2, most)]⟩],
    .ofWeighted [(0, .zero), (1, most), (2, most)]⟩
  have hpicks : (a.picker? [] Neighbor.tooMany).isSome = true := by decide +kernel
  have hroom : a.sampleInRoom [] Neighbor.tooMany = .ok none :=
    congrArg Except.ok (if_pos ⟨hpicks, Nat.le_refl _⟩)
  refine ⟨⟨a, build_infinite_total, hroom⟩, ?_⟩
  obtain ⟨bytes, n, hdecode, houtgoing⟩ := exists_decode_lastWeighs
  obtain ⟨draw, hsample, hdraw⟩ := sample_lastWeighs
  refine ⟨n.outgoing, draw, _, .read hdecode .outgoing, ?_, ?_, hdraw⟩
  · rw [chosen_scope_nil, List.length_range, houtgoing, groupCount_lastWeighs]
    exact fun _ used => ⟨_, _, below_landing (by decide) (by decide) used⟩
  · rw [sampleInRoom_of_lt _ _ (by decide), houtgoing, hsample]
    rfl

end Neighborhood

end WeightedStore
