import WeightedStore.Proofs.Neighborhood.Sampled
import WeightedStore.Proofs.Weighted.Weightless

/-!
When sampling gives up. Among not too many groups it never does so, if one of them has weight and their
weights have a finite total. Where the total is infinite, the pool of the groups draws those without weight as
well, and there are streams on which it draws no other.
-/

namespace WeightedStore

open Floating Draw

namespace Neighborhood

variable {a : Neighborhood} {g count : Nat} {edgeTypes : List Int}

theorem exists_pick_landing (h : a.Sound) (hvalid : ∀ t ∈ edgeTypes, a.HasType t)
    (hnumbers : (a.chosen (a.scope edgeTypes)).length ≤ Offsets.limit)
    (hinfinite : (sum ((a.chosen (a.scope edgeTypes)).map a.weightOf)).isFinite = false) {i : Nat}
    (hi : (a.chosen (a.scope edgeTypes))[i]? = some g) {pick : Draw (Option Nat)}
    (hpicker : a.picker? (a.chosen edgeTypes) count = some pick) (used : Nat) :
    ∃ used', pick (.landing (a.chosen (a.scope edgeTypes)).length i) used = some (some g, used') := by
  rcases picker?_cases h hvalid hnumbers hpicker with ⟨g', hone, rfl⟩ | ⟨_, rfl, hpos, rfl⟩
  · rw [hone] at hi
    obtain rfl : g' = g := List.mem_singleton.1 (List.mem_of_getElem? hi) |>.symm
    exact ⟨used, rfl⟩
  · have hlength : ((a.chosen (a.scope edgeTypes)).map fun g => (g, a.weightOf g)).length ≤ UInt32.size := by
      rw [List.length_map]
      exact Nat.le_trans hnumbers (by decide)
    rw [← total_pool] at hinfinite
    have hx : ((a.chosen (a.scope edgeTypes)).map fun g => (g, a.weightOf g))[i]? =
        some (g, a.weightOf g) := by
      rw [List.getElem?_map, hi]
      rfl
    obtain ⟨hplace, -⟩ := List.getElem?_eq_some_iff.1 hx
    have hwhole := Pool.whole_of_infinite (isWeight_of_mem_weights h) ((List.length_map _).symm ▸ hlength)
      ((List.length_map _).symm ▸ hplace) hinfinite
    obtain ⟨used', hdraw⟩ := Pool.exists_draw_landing hpos (Nat.le_trans hlength (by decide)) hx hwhole used
    rw [List.length_map] at hdraw
    refine ⟨used', ?_⟩
    rw [bind_apply, hdraw]
    rfl

theorem exists_sampleGroups_nil (h : a.Sound) (hvalid : ∀ t ∈ edgeTypes, a.HasType t)
    (hnumbers : (a.chosen (a.scope edgeTypes)).length ≤ Offsets.limit)
    (hinfinite : (sum ((a.chosen (a.scope edgeTypes)).map a.weightOf)).isFinite = false) {i : Nat}
    (hi : (a.chosen (a.scope edgeTypes))[i]? = some g) (hg : ¬zero.below (a.weightOf g) = true)
    (hcount : 0 < count) (used : Nat) : ∃ used',
      a.sampleGroups (a.chosen edgeTypes) count (.landing (a.chosen (a.scope edgeTypes)).length i) used =
        some ([], used') := by
  rw [sampleGroups]
  cases hpicker : a.picker? (a.chosen edgeTypes) count with
  | none => exact ⟨used, rfl⟩
  | some pick =>
    have hlanding := exists_pick_landing h hvalid hnumbers hinfinite hi hpicker
    have hreturns : Returns (.landing (a.chosen (a.scope edgeTypes)).length i) pick := fun used =>
      ⟨some g, hlanding used⟩
    have hpick : Gives (.landing (a.chosen (a.scope edgeTypes)).length i) pick fun picked =>
        ∃ g', picked = some g' ∧ g' = g := by
      intro used picked used' hpicked
      obtain ⟨used'', hdraw⟩ := hlanding used
      rw [hdraw] at hpicked
      cases hpicked
      exact ⟨g, rfl, rfl⟩
    have hdrawn : Gives (.landing (a.chosen (a.scope edgeTypes)).length i) (a.drawIn g)
        fun drawn => drawn = none := by
      intro used drawn used' hdraw
      have hsome := (ensures_drawIn h (mem_chosen.1 (List.mem_of_getElem? hi)).1 _ _ _ _ hdraw).2
      rwa [← hsome, Option.not_isSome_iff_eq_none] at hg
    obtain ⟨result, used', hmany⟩ := returns_drawMany hreturns
      (ensures_picker_lt h hvalid hnumbers hpicker) (fun g hg => returns_drawIn hg _) allowedMisses count used
    obtain ⟨picks, hattempts⟩ := exists_attempts hmany
    obtain rfl := hattempts.eq_none hpick (fun _ hg' => hg' ▸ hdrawn) hcount
    refine ⟨used', ?_⟩
    dsimp only
    rw [bind_apply, hmany]
    rfl

theorem ensures_weighted (h : a.Sound) (hvalid : ∀ t ∈ edgeTypes, a.HasType t)
    (hfew : (a.chosen (a.scope edgeTypes)).length ≤ 2 ^ (11 : Nat))
    (hfinite : (sum ((a.chosen (a.scope edgeTypes)).map a.weightOf)).isFinite = true)
    (hg : g ∈ a.chosen (a.scope edgeTypes)) (hpos : zero.below (a.weightOf g) = true)
    {pick : Draw (Option Nat)} (hpicker : a.picker? (a.chosen edgeTypes) count = some pick) :
    pick.Ensures fun picked => ∀ g ∈ picked, zero.below (a.weightOf g) = true := by
  have hnumbers : (a.chosen (a.scope edgeTypes)).length ≤ Offsets.limit := Nat.le_trans hfew (by decide)
  rcases picker?_cases h hvalid hnumbers hpicker with ⟨g', hone, rfl⟩ | ⟨_, rfl, -, rfl⟩
  · rw [hone, List.mem_singleton] at hg
    subst hg
    refine ensures_pure ?_
    rintro _ ⟨⟩
    exact hpos
  · rw [← total_pool] at hfinite
    rw [← List.length_map (f := fun g => (g, a.weightOf g))] at hfew
    refine (Pool.ensures_draw_weighted (isWeight_of_mem_weights h) hfew hfinite).bind
      fun drawn hdrawn => ensures_pure fun g hg => ?_
    obtain ⟨x, hx, rfl⟩ := Option.map_eq_some_iff.1 hg
    obtain ⟨hmem, hpos⟩ := hdrawn x hx
    obtain ⟨g, -, rfl⟩ := List.mem_map.1 hmem
    exact hpos

/-- Among at most `2 ^ 11` groups of which one has weight, all that is wanted is drawn from every stream
exactly if the weights have a finite total or each of the groups has weight. -/
theorem sample_always_full_iff (h : a.Obtained) (hvalid : ∀ t ∈ edgeTypes, a.HasType t) (hcount : 0 < count)
    (hfew : (a.chosen (a.scope edgeTypes)).length ≤ 2 ^ (11 : Nat))
    (hpos : ∃ g ∈ a.chosen (a.scope edgeTypes), zero.below (a.weightOf g) = true) :
    ∃ draw, a.sample edgeTypes count = .ok draw ∧
      (∀ stream used, stream.Serves (a.chosen (a.scope edgeTypes)).length →
        ∃ neighbors used', draw stream used = some (neighbors, used')) ∧
      ((∀ stream used neighbors used', draw stream used = some (neighbors, used') →
          neighbors.length = count) ↔
        (sum ((a.chosen (a.scope edgeTypes)).map a.weightOf)).isFinite = true ∨
          ∀ g ∈ a.chosen (a.scope edgeTypes), zero.below (a.weightOf g) = true) := by
  have hsound := h.sound
  have hnumbers : (a.chosen (a.scope edgeTypes)).length ≤ Offsets.limit := Nat.le_trans hfew (by decide)
  have hsample : a.sample edgeTypes count = .ok (a.sampleGroups (a.chosen edgeTypes) count) := by
    rw [sample, selected_of_hasType hvalid]
    rfl
  refine ⟨_, hsample, fun stream used hserves => returns_sampleGroups hsound hvalid hnumbers hserves used, ?_, ?_⟩
  · intro hfull
    by_contra hnot
    rw [not_or, Bool.not_eq_true, not_forall] at hnot
    obtain ⟨hinfinite, g, hnot⟩ := hnot
    rw [Classical.not_imp] at hnot
    obtain ⟨i, hi⟩ := List.mem_iff_getElem?.1 hnot.1
    obtain ⟨used', hdraw⟩ := exists_sampleGroups_nil hsound hvalid hnumbers hinfinite hi hnot.2 hcount 0
    exact Nat.ne_of_lt hcount (hfull _ _ _ _ hdraw)
  · intro hweights stream used neighbors used' hdraw
    obtain ⟨g, hg, hpos⟩ := hpos
    refine length_eq_of_picker hdraw hsound hvalid hnumbers hg hpos fun pick hpicker => ?_
    rcases hweights with hfinite | hall
    · exact ensures_weighted hsound hvalid hfew hfinite hg hpos hpicker
    · rintro stream used picked used' hpicked g' rfl
      obtain ⟨_, ⟨⟩, hmem⟩ := ensures_picker hsound hvalid hnumbers hpicker stream used _ used' hpicked
      exact hall g' hmem

theorem sample_always_full_iff_two_weighted :
    let one : Binary32 := .ofBits 0x3f800000
    ∃ a, build [[], [(7, one)], [(9, one)]] = .ok a ∧ a.chosen (a.scope []) = [0, 1, 2] ∧
      zero.below (a.weightOf 0) = false ∧ zero.below (a.weightOf 1) = true ∧
      ∃ draw, a.sample [] 3 = .ok draw ∧
        (∃ neighbors used', draw ⟨fun _ => 0, 1⟩ 0 = some (neighbors, used')) ∧
        ∀ stream used neighbors used', draw stream used = some (neighbors, used') →
          neighbors.length = 3 := by
  intro one
  let groups : List (List (UInt64 × Binary32)) := [[], [(7, one)], [(9, one)]]
  let a : Neighborhood := ⟨[⟨[]⟩, ⟨[(7, one)]⟩, ⟨[(9, one)]⟩],
    .ofWeighted [(0, .zero), (1, one), (2, one)]⟩
  have hgroups : groups.map NeighborGroup.ofPairs = a.groups := by
    simp only [groups, List.map_cons, List.map_nil, NeighborGroup.ofPairs_nil,
      NeighborGroup.ofPairs_singleton]
    decide +kernel
  have hbuild : build groups = .ok a := build_eq_ok (by decide) (by decide) hgroups rfl
  have hpos : zero.below (a.weightOf 1) = true := by decide
  have hvalid : ∀ t ∈ ([] : List Int), a.HasType t := nofun
  have hcount : 0 < 3 := by decide
  obtain ⟨draw, hdraw, hreturns, hfull⟩ := sample_always_full_iff (.built (.ofGroups hbuild)) hvalid hcount
    (by decide) ⟨1, by decide, hpos⟩
  exact ⟨a, hbuild, by decide, by decide, hpos, draw, hdraw, hreturns _ 0 (WordStream.serves_zeros _),
    hfull.2 (.inl (by decide +kernel))⟩

/-- Two groups of the greatest weight are asked for beside one that has none, and each draw falls on the
latter. -/
theorem sample_gives_up_on_infinite_total :
    let most : Binary32 := .ofBits 0x7f7fffff
    ∃ a, build [[], [(1, most)], [(2, most)]] = .ok a ∧
      (∃ g ∈ a.chosen (a.scope []), zero.below (a.weightOf g) = true) ∧
      ∃ draw used', a.sample [] 1 = .ok draw ∧ draw ⟨fun _ => 0, 1⟩ 0 = some ([], used') := by
  intro most
  let a : Neighborhood := ⟨[⟨[]⟩, ⟨[(1, most)]⟩, ⟨[(2, most)]⟩],
    .ofWeighted [(0, .zero), (1, most), (2, most)]⟩
  have hbuild : build [[], [(1, most)], [(2, most)]] = .ok a := build_infinite_total
  have hobtained : a.Obtained := .built (.ofGroups hbuild)
  have hvalid : ∀ t ∈ ([] : List Int), a.HasType t := nofun
  have hfirst : (a.chosen (a.scope []))[0]? = some 0 := by decide
  have hstream : WordStream.landing (a.chosen (a.scope [])).length 0 = ⟨fun _ => 0, 1⟩ :=
    congrArg (WordStream.mk · 1) (funext fun _ => by decide)
  obtain ⟨used', hdraw⟩ := exists_sampleGroups_nil hobtained.sound hvalid (by decide) (by decide +kernel) hfirst
    (by decide) Nat.one_pos 0
  rw [hstream] at hdraw
  exact ⟨a, hbuild, ⟨1, by decide, by decide⟩, _, used', rfl, hdraw⟩

end Neighborhood

end WeightedStore
