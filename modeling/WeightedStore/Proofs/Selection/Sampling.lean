import WeightedStore.Proofs.Index.BucketMerge
import WeightedStore.Proofs.Weighted.Answers
import WeightedStore.Selection.Basic

/-!
Samples of a selection, one after the other. The pool that the first of them makes and the others keep is the
pool of the entries, so each sample answers like the first one, and whether there is anything to draw is known
from the weights.
-/

namespace WeightedStore

open Floating Draw

namespace Selection

/-- Whether there is nothing to draw: a weight is negative or not finite, or the weights do not add up to more
than zero. -/
def Barren (s : Selection) : Prop :=
  (∃ w ∈ s.weights, w.isWeight = false) ∨ zero.below (sum s.weights) = false

variable {s : Selection}

theorem not_barren_iff :
    ¬s.Barren ↔ (∀ w ∈ s.weights, w.isWeight = true) ∧ zero.below (sum s.weights) = true := by
  simp [Barren]

theorem pool?_of_barren (h : s.Barren) : s.pool? = none := by
  unfold pool? Pool.ofPairs
  cases hpool : Pool.ofColumns (s.entries.map Prod.fst) (s.entries.map Prod.snd) with
  | error fault => rfl
  | ok pool =>
    obtain ⟨hlength, hweights⟩ := (Pool.ofColumns_eq_ok_iff _ _).1 ⟨pool, hpool⟩
    obtain rfl := Pool.eq_ofWeighted_of_ofColumns hpool
    have hcolumn : ((s.entries.map Prod.fst).zip (s.entries.map Prod.snd)).map Prod.snd = s.weights :=
      List.map_snd_zip (Nat.le_of_eq hlength.symm)
    rcases h with ⟨w, hw, hbad⟩ | htotal
    · exact absurd (hweights w hw) (Bool.eq_false_iff.1 hbad)
    · apply if_neg
      show ¬zero.below (sum (((s.entries.map Prod.fst).zip (s.entries.map Prod.snd)).map Prod.snd)) = true
      rw [hcolumn, htotal]
      exact Bool.false_ne_true

theorem pool?_of_not_barren (h : ¬s.Barren) :
    s.pool? = some (.ofWeighted s.entries) ∧ zero.below (Pool.ofWeighted s.entries).total = true := by
  obtain ⟨hweights, htotal⟩ := not_barren_iff.1 h
  have hpool : Pool.ofPairs s.entries = .ok (.ofWeighted s.entries) :=
    HashIndex.ofPairs_eq_ok fun x hx => hweights x.2 (List.mem_map_of_mem hx)
  refine ⟨?_, htotal⟩
  rw [pool?, hpool]
  exact if_pos htotal

end Selection

namespace Sampled

def samples (s : Sampled) : List Nat → Draw (List (List Entry) × Sampled)
  | [] => return ([], s)
  | count :: counts => do
    let (drawn, s) ← s.sample count
    let (rest, s) ← samples s counts
    return (drawn :: rest, s)

/-- What searches and combinations of selections give, and what is left of it by samples. -/
inductive Reached : Sampled → Prop
  | fresh (selection : Selection) : Reached { selection := selection }
  | sampled {s after : Sampled} {count used used' : Nat} {stream : WordStream} {drawn : List Entry}
      (h : Reached s) (hrun : s.sample count stream used = some ((drawn, after), used')) : Reached after
  | listed {s : Sampled} (h : Reached s) : Reached s.toListing
  | intersected {l r : Sampled} (hl : Reached l) (hr : Reached r) : Reached (l.intersection r)
  | united {l r : Sampled} (hl : Reached l) (hr : Reached r) : Reached (l.union r)

def Current (s : Sampled) : Prop := ∀ pool? ∈ s.prepared, pool? = s.selection.pool?

variable {s : Sampled} {stream : WordStream}

theorem Current.sample_eq (h : s.Current) (count : Nat) :
    s.sample count = sample { selection := s.selection } count := by
  have hpool : s.prepared.getD s.selection.pool? = s.selection.pool? := by
    cases hprepared : s.prepared with
    | none => rfl
    | some pool? => exact h pool? hprepared
  unfold sample
  rw [hpool]
  rfl

structure Answers (selection : Selection) (count : Nat) (drawn : List Entry) : Prop where
  of_barren : selection.Barren → drawn = []
  of_not_barren : ¬selection.Barren → drawn.length = count
  mem : ∀ x ∈ drawn, x ∈ selection.entries

theorem Current.ensures_sample (h : s.Current) (count : Nat) : (s.sample count).Ensures fun result =>
    Answers s.selection count result.1 ∧ result.2.selection = s.selection ∧ result.2.Current := by
  have hkept : Current { selection := s.selection, prepared := some s.selection.pool? } := by
    rintro _ ⟨⟩
    rfl
  rw [h.sample_eq]
  by_cases hbarren : s.selection.Barren
  · rw [Selection.pool?_of_barren hbarren] at hkept
    unfold sample
    rw [Option.getD_none, Selection.pool?_of_barren hbarren]
    exact ensures_pure ⟨⟨fun _ => rfl, fun hnot => absurd hbarren hnot, nofun⟩, rfl, hkept⟩
  · obtain ⟨hpool, htotal⟩ := Selection.pool?_of_not_barren hbarren
    rw [hpool] at hkept
    unfold sample
    rw [Option.getD_none, hpool]
    refine (ensures_repeated (Pool.ensures_draw_some htotal) count).bind fun drawn hdrawn => ?_
    exact ensures_pure ⟨⟨fun hnot => absurd hnot hbarren, fun _ => hdrawn.1, hdrawn.2⟩, rfl, hkept⟩

theorem Current.returns_sample (h : s.Current) (hserves : stream.Serves s.selection.entries.length)
    (count : Nat) : Returns stream (s.sample count) := by
  rw [h.sample_eq]
  unfold sample
  rw [Option.getD_none]
  by_cases hbarren : s.selection.Barren
  · rw [Selection.pool?_of_barren hbarren]
    exact returns_pure _
  · obtain ⟨hpool, htotal⟩ := Selection.pool?_of_not_barren hbarren
    rw [hpool]
    exact (returns_repeated (Pool.returns_draw htotal hserves) count).bind fun _ => returns_pure _

theorem Reached.current (h : s.Reached) : s.Current := by
  induction h with
  | fresh selection => exact nofun
  | sampled h hrun ih => exact (ih.ensures_sample _ _ _ _ _ hrun).2.2
  | @listed s h ih =>
    unfold toListing
    split
    · exact ih
    · exact nofun
  | intersected hl hr ihl ihr => exact nofun
  | united hl hr ihl ihr => exact nofun

/-- However often it is sampled before, a selection is not changed and each sample answers as it must. -/
theorem Current.ensures_samples (h : s.Current) (counts : List Nat) : (s.samples counts).Ensures fun result =>
    List.Forall₂ (Answers s.selection) counts result.1 ∧ result.2.selection = s.selection ∧
      result.2.Current := by
  induction counts generalizing s with
  | nil => exact ensures_pure ⟨.nil, rfl, h⟩
  | cons count counts ih =>
    refine (h.ensures_sample count).bind ?_
    rintro ⟨drawn, next⟩ ⟨hdrawn, hselection, hnext⟩
    have hrest := ih hnext
    rw [hselection] at hrest
    refine hrest.bind ?_
    rintro ⟨rest, after⟩ ⟨hrest, hafter, hcurrent⟩
    exact ensures_pure ⟨.cons hdrawn hrest, hafter, hcurrent⟩

theorem Current.returns_samples (h : s.Current) (hserves : stream.Serves s.selection.entries.length)
    (counts : List Nat) : Returns stream (s.samples counts) := by
  induction counts generalizing s with
  | nil => exact returns_pure _
  | cons count counts ih =>
    refine (h.returns_sample hserves count).bind_ensured (h.ensures_sample count) ?_
    rintro ⟨drawn, next⟩ ⟨-, hselection, hnext⟩
    exact (ih hnext (hselection ▸ hserves)).bind fun _ => returns_pure _

/-- Of a barren selection nothing is ever drawn, of another one as many entries as are wanted, whatever was
drawn before, and the pool that is kept answers like one that is made anew. -/
theorem samples_full_or_empty (h : s.Reached) (counts : List Nat) :
    (∀ stream : WordStream, stream.Serves s.selection.entries.length → Returns stream (s.samples counts)) ∧
      (s.samples counts).Ensures fun result => List.Forall₂ (Answers s.selection) counts result.1 ∧
        ∀ count, result.2.sample count = sample { selection := s.selection } count := by
  refine ⟨fun stream hserves => h.current.returns_samples hserves counts, ?_⟩
  intro stream used result used' hrun
  obtain ⟨hanswers, hselection, hcurrent⟩ := h.current.ensures_samples counts _ _ _ _ hrun
  refine ⟨hanswers, fun count => ?_⟩
  rw [← hselection]
  exact hcurrent.sample_eq count

theorem samples_full_or_empty_falling :
    let one : Binary32 := .ofBits 0x3f800000
    let cut : Sampled := { selection := .cut ⟨"price", ⟨⟨1, 0⟩, [(7, one), (8, .zero)]⟩, [⟨0, 2⟩]⟩ }
    let listing : Sampled := { selection := .listing ⟨"price", [(7, one), (8, one)], by decide⟩ }
    cut.selection.weights = [one, .ofBits 0xbf800000] ∧ cut.Reached ∧ listing.Reached ∧
      (∃ after used', cut.samples [2, 3] ⟨fun _ => 0, 1⟩ 0 = some (([[], []], after), used')) ∧
      ∃ first second after used',
        listing.samples [2, 3] ⟨fun _ => 0, 1⟩ 0 = some (([first, second], after), used') ∧
        first.length = 2 ∧ second.length = 3 ∧ ∀ x ∈ first, x ∈ [(7, one), (8, one)] := by
  intro one cut listing
  have hcut : cut.Reached := .fresh _
  have hlisting : listing.Reached := .fresh _
  have hweights : cut.selection.weights = [one, .ofBits 0xbf800000] := by decide +kernel
  have hbarren : cut.selection.Barren := by
    refine Or.inl ⟨.ofBits 0xbf800000, ?_, by decide⟩
    rw [hweights]
    exact List.mem_cons_of_mem _ List.mem_cons_self
  have hdrawn : ¬listing.selection.Barren := Selection.not_barren_iff.2 ⟨by decide, by decide +kernel⟩
  refine ⟨hweights, hcut, hlisting, ?_, ?_⟩
  · obtain ⟨hreturns, hanswers⟩ := samples_full_or_empty hcut [2, 3]
    obtain ⟨⟨answers, after⟩, used', hrun⟩ := hreturns _ (WordStream.serves_zeros _) 0
    obtain ⟨first, _, hfirst, hrest, rfl⟩ := List.forall₂_cons_left_iff.1 (hanswers _ _ _ _ hrun).1
    obtain ⟨second, _, hsecond, hnone, rfl⟩ := List.forall₂_cons_left_iff.1 hrest
    obtain rfl := List.forall₂_nil_left_iff.1 hnone
    rw [hfirst.of_barren hbarren, hsecond.of_barren hbarren] at hrun
    exact ⟨after, used', hrun⟩
  · obtain ⟨hreturns, hanswers⟩ := samples_full_or_empty hlisting [2, 3]
    obtain ⟨⟨answers, after⟩, used', hrun⟩ := hreturns _ (WordStream.serves_zeros _) 0
    obtain ⟨first, _, hfirst, hrest, rfl⟩ := List.forall₂_cons_left_iff.1 (hanswers _ _ _ _ hrun).1
    obtain ⟨second, _, hsecond, hnone, rfl⟩ := List.forall₂_cons_left_iff.1 hrest
    obtain rfl := List.forall₂_nil_left_iff.1 hnone
    exact ⟨first, second, after, used', hrun, hfirst.of_not_barren hdrawn, hsecond.of_not_barren hdrawn,
      hfirst.mem⟩

end Sampled

end WeightedStore
