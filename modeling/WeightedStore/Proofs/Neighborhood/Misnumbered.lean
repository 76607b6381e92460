import WeightedStore.Proofs.Neighborhood.FlatSampling
import WeightedStore.Proofs.Weighted.Weightless

/-!
Groups that 32 bits cannot number. A record may have one group more than numbers with a sign can say. The
number of that group is below zero and stands for a place that is not there, so that drawing from all groups
breaks off where it is picked.
-/

namespace WeightedStore

open Floating Draw

namespace Neighborhood

variable {a : Neighborhood} {pick : Draw (Option Nat)} {stream : WordStream} {used used' g : Nat}

theorem drawMany_eq_none (hpick : pick stream used = some (some g, used')) (habsent : a.groups[g]? = none)
    (misses wanted : Nat) : drawMany pick a.drawIn misses (wanted + 1) stream used = none := by
  have hdraw : a.drawIn g = failure := by rw [drawIn, habsent]
  rw [drawMany.eq_def]
  dsimp only
  rw [bind_apply, hpick, Option.bind_some]
  dsimp only
  rw [bind_apply, hdraw]
  rfl

def lastWeighs (n : Nat) : Neighborhood where
  groups := List.replicate n ⟨[]⟩ ++ [⟨[(7, .ofNat 1)]⟩]
  pool := .ofWeighted ((((List.range (n + 1)).map Int32.ofNat).map placeOfNumber).zip
    (List.replicate n .zero ++ [.ofNat 1]))

theorem groupCount_lastWeighs (n : Nat) : (lastWeighs n).groupCount = n + 1 := by
  simp [groupCount, lastWeighs]

theorem neighborCount_lastWeighs (n : Nat) : (lastWeighs n).neighborCount = 1 := by
  simp [neighborCount, lastWeighs]

theorem weights_lastWeighs (n : Nat) :
    (lastWeighs n).pool.weights = List.replicate n .zero ++ [.ofNat 1] := by
  refine List.map_snd_zip ?_
  simp

theorem of_getElem?_lastWeighs {n : Nat} {group : NeighborGroup} (h : (lastWeighs n).groups[g]? = some group) :
    group = ⟨[]⟩ ∧ (lastWeighs n).weightOf g = .zero ∨
      group = ⟨[(7, .ofNat 1)]⟩ ∧ (lastWeighs n).weightOf g = .ofNat 1 := by
  rw [weightOf, weights_lastWeighs, List.getD_eq_getElem?_getD]
  simp only [lastWeighs, List.getElem?_append, List.length_replicate, List.getElem?_replicate] at h ⊢
  split at h
  · rename_i hg
    rw [if_pos hg, if_pos hg]
    exact .inl ⟨(Option.some.inj h).symm, rfl⟩
  · rename_i hg
    obtain ⟨hlast, rfl⟩ := List.getElem?_eq_some_iff.1 h
    rw [List.length_singleton] at hlast
    rw [if_neg hg]
    simp [Nat.lt_one_iff.1 hlast]

theorem sound_lastWeighs (n : Nat) : (lastWeighs n).Sound := by
  have hweights := weights_lastWeighs n
  have hfaultless : groupsFault? (.ofWeighted [(0, .zero), (1, .ofNat 1)]) 0 0
      [⟨[]⟩, ⟨[(7, .ofNat 1)]⟩] = none := by decide +kernel
  have hgroups : ∀ g group, [⟨[]⟩, ⟨[(7, .ofNat 1)]⟩][g]? = some group →
      Holds ([.zero, .ofNat 1].getD g .zero) group := holds_iff.1 hfaultless
  -- every group is one of these two, so the check of each can be run
  refine ⟨?_, ?_, ?_, ?_⟩
  · rw [hweights, groupCount_lastWeighs]
    simp
  · rw [hweights]
    intro w hw
    rcases List.mem_append.1 hw with hw | hw
    · rw [List.eq_of_mem_replicate hw]
      decide
    · rw [List.mem_singleton.1 hw]
      decide
  · rw [Columns.pool, columns, hweights, groupCount_lastWeighs]
    rfl
  · intro g group hgroup
    rcases of_getElem?_lastWeighs hgroup with ⟨rfl, hweight⟩ | ⟨rfl, hweight⟩
    · rw [hweight]
      exact hgroups 0 _ rfl
    · rw [hweight]
      exact hgroups 1 _ rfl

theorem exists_draw_lastWeighs {n : Nat} (hn : n < UInt32.size) (used : Nat) : ∃ used',
    (lastWeighs n).pool.draw (.landing (n + 1) n) used =
      some (some (placeOfNumber (Int32.ofNat n), .ofNat 1), used') := by
  let numbers := ((List.range (n + 1)).map Int32.ofNat).map placeOfNumber
  let weights : List Binary32 := List.replicate n .zero ++ [.ofNat 1]
  have hlength : (numbers.zip weights).length = n + 1 := by simp [numbers, weights]
  have hlast : (numbers.zip weights)[n]? = some (placeOfNumber (Int32.ofNat n), .ofNat 1) := by
    simp [numbers, weights]
  have hone : zero.below (.ofNat 1 : Binary32) = true := by decide
  have hweights : ∀ w ∈ (numbers.zip weights).map Prod.snd, w.isWeight = true :=
    (sound_lastWeighs n).isWeight
  obtain ⟨y, used', hmem, hpos, hdraw⟩ := Pool.exists_draw_landing_weighs hweights
    (Nat.le_trans (Nat.le_of_eq hlength) hn) hlast hone used
  refine ⟨used', ?_⟩
  rw [hlength] at hdraw
  refine hdraw.trans (congrArg (fun x => some (some x, used')) ?_)
  obtain ⟨i, hi⟩ := List.mem_iff_getElem?.1 hmem
  have hi' := (List.getElem?_zip_eq_some.1 hi).2
  -- no group before the last one has weight
  rcases Nat.lt_trichotomy i n with hlt | rfl | hgt
  · simp only [weights, List.getElem?_append, List.length_replicate, if_pos hlt, List.getElem?_replicate] at hi'
    rw [← Option.some.inj hi'] at hpos
    cases hpos
  · exact Option.some.inj (hi.symm.trans hlast)
  · rw [List.getElem?_eq_none (by omega)] at hi
    cases hi

theorem atMost_total_lastWeighs (n : Nat) : (lastWeighs n).pool.total.atMost .zero = false := by
  have hone : zero.below (.ofNat 1 : Binary32) = true := by decide
  have hsum := isSum_sum Running.fraction_pos (sound_lastWeighs n).isWeight
  have hlast : .ofNat 1 ∈ (lastWeighs n).pool.weights := by
    rw [weights_lastWeighs]
    exact List.mem_append_right _ (List.mem_singleton_self _)
  have hpos := zero_below_sum Running.fraction_pos (sound_lastWeighs n).isWeight hlast hone
  exact Bool.eq_false_iff.2 fun hzero => hsum.atMost_zero_iff.1 hzero hpos

theorem selected_nil (a : Neighborhood) : a.selected [] = .ok [] := by
  rw [selected_of_hasType (List.forall_mem_nil _), chosen]
  simp

section Sampling

def wideDraw : Draw (Option Nat) := do return (← (lastWeighs Offsets.limit).pool.draw).map Prod.fst

theorem exists_wideDraw (used : Nat) : ∃ g used',
    wideDraw (.landing (Offsets.limit + 1) Offsets.limit) used = some (some g, used') ∧
      (lastWeighs Offsets.limit).groupCount < g := by
  obtain ⟨used', hdraw⟩ := exists_draw_lastWeighs (by decide : Offsets.limit < UInt32.size) used
  refine ⟨placeOfNumber (Int32.ofNat Offsets.limit), used', ?_, ?_⟩
  · rw [wideDraw, bind_apply, hdraw]
    rfl
  · rw [groupCount_lastWeighs]
    decide

theorem groupCount_ne_zero_lastWeighs (n : Nat) : ¬(1 = 0 ∨ (lastWeighs n).groupCount = 0) := by
  rw [groupCount_lastWeighs]
  omega

theorem sample_lastWeighs : ∃ draw, (lastWeighs Offsets.limit).sample [] 1 = .ok draw ∧
    draw (.landing (Offsets.limit + 1) Offsets.limit) 0 = none := by
  obtain ⟨g, used', hpick, habsent⟩ := exists_wideDraw 0
  have hpool : (lastWeighs Offsets.limit).poolOf [] = (lastWeighs Offsets.limit).pool := if_pos (.inl rfl)
  have hpicker : (lastWeighs Offsets.limit).picker? [] 1 = some wideDraw := by
    rw [picker?, if_neg (groupCount_ne_zero_lastWeighs _)]
    · rw [hpool, if_neg (atMost_total_lastWeighs _ ▸ Bool.false_ne_true)]
      rfl
    · exact fun g hg => absurd hg (List.cons_ne_nil g []).symm
  refine ⟨(lastWeighs Offsets.limit).sampleGroups [] 1, ?_, ?_⟩
  · rw [sample, selected_nil]
    rfl
  · rw [sampleGroups, hpicker]
    dsimp only
    rw [bind_apply, drawMany_eq_none hpick (List.getElem?_eq_none (Nat.le_of_lt habsent))]
    rfl

end Sampling

theorem exists_decode_lastWeighs : ∃ bytes n, Node.decode bytes = .ok n ∧
    n.outgoing = lastWeighs Offsets.limit := by
  have houtgoing := sound_lastWeighs Offsets.limit
  have hfeatures : Features.empty.Sound := ⟨by decide, by decide, by decide⟩
  have hgroups : (lastWeighs Offsets.limit).groupCount < UInt32.size := by
    rw [groupCount_lastWeighs]
    decide
  have hneighbors : (lastWeighs Offsets.limit).neighborCount < UInt32.size := by
    rw [neighborCount_lastWeighs]
    decide
  obtain ⟨outgoing, hout⟩ := exists_encode houtgoing hgroups hneighbors
  obtain ⟨incoming, hin⟩ := exists_encode sound_of_no_group (by decide) (by decide)
  obtain ⟨features, hwritten⟩ : ∃ bytes, Features.empty.encode = .ok bytes := ⟨_, rfl⟩
  let n : Node := ⟨7, 0, .ofNat 1, lastWeighs Offsets.limit, ⟨[], .ofWeighted []⟩, .empty⟩
  have hsound : n.Sound := ⟨houtgoing, sound_of_no_group, hfeatures⟩
  obtain ⟨bytes, hbytes⟩ : ∃ bytes, n.encode = .ok bytes :=
    ⟨_, Node.encode_eq_ok_iff.2 ⟨outgoing, incoming, features, hout, hin, hwritten, rfl⟩⟩
  exact ⟨bytes, n, Node.decode_eq_ok_iff.2 ⟨hbytes, hsound⟩, rfl⟩

end Neighborhood

end WeightedStore
