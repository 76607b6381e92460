import WeightedStore.Weighted.Alias

/-!
Alias tables under construction. Each step reads and fills columns that are there, so a construction that
checks every place it comes to gives the table itself, and each column of the table goes over to one of
its outcomes.
-/

namespace WeightedStore

def set? {α : Type} (xs : List α) (i : Nat) (x : α) : Option (List α) :=
  if i < xs.length then some (xs.set i x) else none

theorem set?_eq {α : Type} {xs : List α} {i : Nat} (h : i < xs.length) (x : α) :
    set? xs i x = some (xs.set i x) := if_pos h

namespace AliasTable

structure WellFormed (t : AliasTable) : Prop where
  length_redirect : t.redirect.length = t.length
  redirect_lt : ∀ r ∈ t.redirect, r < t.length

namespace Sweep

def fill? (s : Sweep) (count average : Binary64) (less more : Nat) : Option Sweep := do
  let light ← s.mass[less]?
  let heavy ← s.mass[more]?
  return {
    mass := ← set? s.mass more (heavy + light - average)
    acceptance := ← set? s.acceptance less (light * count).clampUnit.convert
    redirect := ← set? s.redirect less (more % UInt32.size) }

def accept? (s : Sweep) (i : Nat) : Option Sweep := do
  return { s with acceptance := ← set? s.acceptance i (.ofNat 1) }

def run? (count average : Binary64) (s : Sweep) (small large : List Nat) : Option Sweep :=
  match small, large with
  | less :: small, more :: large => do
    let s ← s.fill? count average less more
    if average.below (← s.mass[more]?) then run? count average s small (more :: large)
    else run? count average s (more :: small) large
  | small, large => (small ++ large).foldlM accept? s
termination_by small.length + large.length

variable {s : Sweep} {n less more : Nat} {count average : Binary64}

structure Fits (n : Nat) (s : Sweep) : Prop where
  length_mass : s.mass.length = n
  length_acceptance : s.acceptance.length = n
  length_redirect : s.redirect.length = n
  redirect_lt : ∀ r ∈ s.redirect, r < n

theorem Fits.massAt_eq (h : s.Fits n) {i : Nat} (hi : i < n) : s.mass[i]? = some (s.massAt i) := by
  have hmass : i < s.mass.length := h.length_mass.symm ▸ hi
  rw [massAt, List.getD_eq_getElem?_getD, List.getElem?_eq_getElem hmass]
  rfl

theorem Fits.fill (h : s.Fits n) (hmore : more < n) : (s.fill count average less more).Fits n := by
  refine ⟨?_, ?_, ?_, fun r hr => ?_⟩
  · rw [Sweep.fill, List.length_set]
    exact h.length_mass
  · rw [Sweep.fill, List.length_set]
    exact h.length_acceptance
  · rw [Sweep.fill, List.length_set]
    exact h.length_redirect
  · rcases List.mem_or_eq_of_mem_set hr with hr | rfl
    · exact h.redirect_lt r hr
    · exact Nat.lt_of_le_of_lt (Nat.mod_le more UInt32.size) hmore

theorem Fits.fill?_eq (h : s.Fits n) (hless : less < n) (hmore : more < n) :
    s.fill? count average less more = some (s.fill count average less more) := by
  have hmass : more < s.mass.length := h.length_mass.symm ▸ hmore
  have hacceptance : less < s.acceptance.length := h.length_acceptance.symm ▸ hless
  have hredirect : less < s.redirect.length := h.length_redirect.symm ▸ hless
  simp only [fill?, h.massAt_eq hless, h.massAt_eq hmore, Option.bind_eq_bind, Option.bind_some,
    set?_eq hmass, set?_eq hacceptance, set?_eq hredirect]
  rfl

theorem Fits.accept (h : s.Fits n) (i : Nat) : (s.accept i).Fits n := by
  refine ⟨h.length_mass, ?_, h.length_redirect, h.redirect_lt⟩
  rw [Sweep.accept, List.length_set]
  exact h.length_acceptance

theorem Fits.accept?_eq (h : s.Fits n) {i : Nat} (hi : i < n) : s.accept? i = some (s.accept i) := by
  have hacceptance : i < s.acceptance.length := h.length_acceptance.symm ▸ hi
  rw [accept?, set?_eq hacceptance]
  rfl

theorem Fits.foldl_accept (h : s.Fits n) {rest : List Nat} (hrest : ∀ i ∈ rest, i < n) :
    (rest.foldl Sweep.accept s).Fits n ∧ rest.foldlM accept? s = some (rest.foldl Sweep.accept s) := by
  induction rest generalizing s with
  | nil => exact ⟨h, rfl⟩
  | cons i rest ih =>
    obtain ⟨hi, hrest⟩ := List.forall_mem_cons.1 hrest
    rw [List.foldl_cons, List.foldlM_cons, h.accept?_eq hi]
    exact ih (h.accept i) hrest

theorem Fits.run (h : s.Fits n) {small large : List Nat} (hsmall : ∀ i ∈ small, i < n)
    (hlarge : ∀ i ∈ large, i < n) :
    (s.run count average small large).Fits n ∧
      s.run? count average small large = some (s.run count average small large) := by
  fun_induction Sweep.run count average s small large with
  | case1 s less small more large s' hover ih =>
    obtain ⟨hless, hsmall⟩ := List.forall_mem_cons.1 hsmall
    have hmore := hlarge more List.mem_cons_self
    have hfill : s'.Fits n := h.fill hmore
    rw [run?, h.fill?_eq hless hmore, Option.bind_eq_bind, Option.bind_some, hfill.massAt_eq hmore,
      Option.bind_eq_bind, Option.bind_some, if_pos hover]
    exact ih hfill hsmall hlarge
  | case2 s less small more large s' hunder ih =>
    obtain ⟨hless, hsmall⟩ := List.forall_mem_cons.1 hsmall
    obtain ⟨hmore, hlarge⟩ := List.forall_mem_cons.1 hlarge
    have hfill : s'.Fits n := h.fill hmore
    rw [run?, h.fill?_eq hless hmore, Option.bind_eq_bind, Option.bind_some, hfill.massAt_eq hmore,
      Option.bind_eq_bind, Option.bind_some, if_neg hunder]
    exact ih hfill (List.forall_mem_cons.2 ⟨hmore, hsmall⟩) hlarge
  | case3 s small large hnone =>
    have hrest : ∀ i ∈ small ++ large, i < n := List.forall_mem_append.2 ⟨hsmall, hlarge⟩
    rw [run?]
    · exact h.foldl_accept hrest
    · exact hnone

end Sweep

def ofProbabilities? (probabilities : List Binary32) : Option AliasTable := do
  let n := probabilities.length
  let count : Binary64 := .ofNat n
  let average := .ofNat 1 / count
  let mass : List Binary64 := probabilities.map Floating.convert
  let start : Sweep := ⟨mass, List.replicate n .zero, List.replicate n 0⟩
  let large := (List.range n).filter fun i => average.below (start.massAt i)
  let small := (List.range n).filter fun i => !average.below (start.massAt i)
  let done ← start.run? count average small.reverse large.reverse
  return ⟨done.acceptance, done.redirect⟩

theorem wellFormed_empty : AliasTable.empty.WellFormed := ⟨rfl, nofun⟩

theorem wellFormed_ofProbabilities (probabilities : List Binary32) :
    (ofProbabilities probabilities).WellFormed ∧
      (ofProbabilities probabilities).length = probabilities.length ∧
      ofProbabilities? probabilities = some (ofProbabilities probabilities) := by
  have hstart : Sweep.Fits probabilities.length ⟨probabilities.map Floating.convert,
      List.replicate probabilities.length .zero, List.replicate probabilities.length 0⟩ := by
    refine ⟨List.length_map _, List.length_replicate, List.length_replicate, fun r hr => ?_⟩
    rw [List.mem_replicate] at hr
    rw [hr.2]
    exact Nat.pos_of_ne_zero hr.1
  have hside (p : Nat → Bool) :
      ∀ i ∈ ((List.range probabilities.length).filter p).reverse, i < probabilities.length :=
    fun i hi => List.mem_range.1 (List.mem_filter.1 (List.mem_reverse.1 hi)).1
  obtain ⟨hfits, hrun⟩ := hstart.run (hside _) (hside _)
  have hlength : (ofProbabilities probabilities).length = probabilities.length :=
    hfits.length_acceptance
  refine ⟨⟨?_, ?_⟩, hlength, ?_⟩
  · rw [hlength]
    exact hfits.length_redirect
  · rw [hlength]
    exact hfits.redirect_lt
  · rw [ofProbabilities?, hrun]
    rfl

end AliasTable

end WeightedStore
