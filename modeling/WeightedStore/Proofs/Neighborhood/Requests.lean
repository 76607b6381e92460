import Mathlib.Data.List.Basic
import Mathlib.Data.List.Perm.Subperm
import WeightedStore.Proofs.Neighborhood.Built
import WeightedStore.Proofs.Neighborhood.Flat
import WeightedStore.Proofs.Node.Records

/-!
What is asked of a neighborhood. It is one that was built or read, and has the edge types from zero to
before the number of its groups. Where others are left out, the groups asked for come in the order in which
they are first mentioned; where others are refused, only the set of edge types counts.
-/

namespace WeightedStore

namespace NeighborGroup

theorem weights_neighbors (g : NeighborGroup) (edgeType : Nat) :
    (g.neighbors edgeType).map Neighbor.weight = Running.weights g.totals := by
  have hlength : (Running.weights g.totals).length ≤ g.members.length := by
    rw [Running.length_weights, totals, List.length_map]
  have hweights := congrArg (List.map id) (List.map_snd_zip hlength)
  rw [List.map_map, List.map_id] at hweights
  rw [neighbors, ← List.map_uncurry_zip_eq_zipWith, List.map_map]
  exact hweights

theorem edgeType_of_mem_neighbors {g : NeighborGroup} {edgeType : Nat} {n : Neighbor}
    (h : n ∈ g.neighbors edgeType) : n.edgeType = edgeType := by
  rw [neighbors, ← List.map_uncurry_zip_eq_zipWith] at h
  obtain ⟨_, -, rfl⟩ := List.mem_map.1 h
  rfl

end NeighborGroup

namespace Neighborhood

variable {a : Neighborhood} {t : Int} {g : Nat} {edgeTypes others : List Int}

/-- Neighborhoods that are built, and those of nodes that are read from a record. -/
inductive Obtained : Neighborhood → Prop
  | built {a : Neighborhood} (h : a.Built) : Obtained a
  | read {bytes : List UInt8} {n : Node} (h : Node.decode bytes = .ok n) (d : Direction) :
      Obtained (n.neighborhood d)

theorem Obtained.sound (h : a.Obtained) : a.Sound := by
  cases h with
  | built h => exact h.sound
  | read h d =>
    have hsound := (Node.decode_eq_ok_iff.1 h).2
    cases d with
    | outgoing => exact hsound.outgoing
    | incoming => exact hsound.incoming

def HasType (a : Neighborhood) (t : Int) : Prop := 0 ≤ t ∧ t < a.groupCount

instance (a : Neighborhood) (t : Int) : Decidable (a.HasType t) :=
  inferInstanceAs (Decidable (0 ≤ t ∧ t < a.groupCount))

theorem group?_eq_some_iff : a.group? t = some g ↔ t = g ∧ g < a.groupCount := by
  rw [group?]
  split
  · rw [Option.some.injEq]
    omega
  · constructor
    · rintro ⟨⟩
    · omega

theorem group?_eq_none_iff : a.group? t = none ↔ ¬a.HasType t := by
  rw [group?, HasType]
  split <;> simp_all

theorem hasType_iff_exists : a.HasType t ↔ ∃ g : Nat, g < a.groupCount ∧ t = g := by
  constructor
  · rintro ⟨hpos, hlt⟩
    exact ⟨t.toNat, by omega, by omega⟩
  · rintro ⟨g, hg, rfl⟩
    exact ⟨by omega, by omega⟩

/-- Whether numbers of groups are those that edge types name among `count` groups, each once and in the
order in which it is first mentioned. -/
structure FirstMentions (count : Nat) (edgeTypes : List Int) (groups : List Nat) : Prop where
  mem_iff : ∀ g, g ∈ groups ↔ g < count ∧ (g : Int) ∈ edgeTypes
  order : groups.Pairwise fun g h : Nat => edgeTypes.idxOf (g : Int) < edgeTypes.idxOf (h : Int)

theorem FirstMentions.nodup {count : Nat} {groups : List Nat} (h : FirstMentions count edgeTypes groups) :
    groups.Nodup :=
  h.order.imp fun hlt heq =>
    Nat.ne_of_lt hlt (congrArg (fun g : Nat => edgeTypes.idxOf (g : Int)) heq)

theorem idxOf_lt_idxOf_of_filter {p : Int → Bool} {s t : Int} (hs : p s = true) (ht : p t = true)
    (h : (edgeTypes.filter p).idxOf s < (edgeTypes.filter p).idxOf t) :
    edgeTypes.idxOf s < edgeTypes.idxOf t := by
  induction edgeTypes with
  | nil => exact h
  | cons first rest ih =>
    have hskip {u : Int} (hu : first ≠ u) (rest : List Int) :
        (first :: rest).idxOf u = rest.idxOf u + 1 := List.idxOf_cons_ne rest hu
    by_cases hfirst : p first = true
    · rw [List.filter_cons_of_pos hfirst] at h
      by_cases hft : first = t
      · rw [hft, List.idxOf_cons_self] at h
        exact absurd h (Nat.not_lt_zero _)
      · rw [hskip hft] at h ⊢
        by_cases hfs : first = s
        · rw [hfs, List.idxOf_cons_self]
          exact Nat.succ_pos _
        · rw [hskip hfs] at h ⊢
          exact Nat.succ_lt_succ (ih (Nat.lt_of_succ_lt_succ h))
    · rw [List.filter_cons_of_neg hfirst] at h
      have hfs : first ≠ s := fun heq => hfirst (heq ▸ hs)
      have hft : first ≠ t := fun heq => hfirst (heq ▸ ht)
      rw [hskip hfs, hskip hft]
      exact Nat.succ_lt_succ (ih h)

theorem requested_cons_of_none (h : a.group? t = none) :
    a.requested (t :: edgeTypes) = a.requested edgeTypes := by
  rw [requested, List.filterMap_cons_none h, requested]

theorem requested_cons_of_some (h : a.group? t = some g) :
    a.requested (t :: edgeTypes) = g :: a.requested (edgeTypes.filter (· ≠ t)) := by
  rw [requested, List.filterMap_cons_some h, List.eraseDups_cons, requested]
  congr 2
  obtain ⟨rfl, hg⟩ := group?_eq_some_iff.1 h
  induction edgeTypes with
  | nil => rfl
  | cons s rest ih =>
    by_cases hs : s = g
    · subst hs
      rw [List.filterMap_cons_some h, List.filter_cons_of_neg (by simp), ih,
        List.filter_cons_of_neg (by simp)]
    · rw [List.filter_cons_of_pos (by simpa using hs)]
      cases hgroup : a.group? s with
      | none => rw [List.filterMap_cons_none hgroup, List.filterMap_cons_none hgroup, ih]
      | some g' =>
        have hne : g' ≠ g := by
          rintro rfl
          exact hs (group?_eq_some_iff.1 hgroup).1
        rw [List.filterMap_cons_some hgroup, List.filterMap_cons_some hgroup,
          List.filter_cons_of_pos (by simpa using hne), ih]

theorem mem_requested : g ∈ a.requested edgeTypes ↔ g < a.groupCount ∧ (g : Int) ∈ edgeTypes := by
  rw [requested, List.mem_eraseDups, List.mem_filterMap]
  constructor
  · rintro ⟨t, ht, hgroup⟩
    obtain ⟨rfl, hg⟩ := group?_eq_some_iff.1 hgroup
    exact ⟨hg, ht⟩
  · rintro ⟨hg, ht⟩
    exact ⟨g, ht, group?_eq_some_iff.2 ⟨rfl, hg⟩⟩

theorem order_requested (a : Neighborhood) (edgeTypes : List Int) :
    (a.requested edgeTypes).Pairwise fun g h : Nat =>
      edgeTypes.idxOf (g : Int) < edgeTypes.idxOf (h : Int) := by
  cases edgeTypes with
  | nil => exact List.Pairwise.nil
  | cons t rest =>
    have hskip {s : Int} (hs : t ≠ s) : (t :: rest).idxOf s = rest.idxOf s + 1 :=
      List.idxOf_cons_ne rest hs
    cases hgroup : a.group? t with
    | none =>
      have hother {g : Nat} (hg : g ∈ a.requested rest) : t ≠ g := fun heq =>
        group?_eq_none_iff.1 hgroup (hasType_iff_exists.2 ⟨g, (mem_requested.1 hg).1, heq⟩)
      rw [requested_cons_of_none hgroup]
      refine (order_requested a rest).imp_of_mem fun hg hh hlt => ?_
      rw [hskip (hother hg), hskip (hother hh)]
      exact Nat.succ_lt_succ hlt
    | some g =>
      obtain ⟨rfl, -⟩ := group?_eq_some_iff.1 hgroup
      have hkept {h : Nat} (hh : h ∈ a.requested (rest.filter (· ≠ (g : Int)))) :
          decide ((h : Int) ≠ g) = true := (List.mem_filter.1 (mem_requested.1 hh).2).2
      have hother {h : Nat} (hh : h ∈ a.requested (rest.filter (· ≠ (g : Int)))) : (g : Int) ≠ h :=
        (of_decide_eq_true (hkept hh)).symm
      rw [requested_cons_of_some hgroup, List.pairwise_cons]
      refine ⟨fun h hh => ?_, (order_requested a _).imp_of_mem fun hh hh' hlt => ?_⟩
      · rw [List.idxOf_cons_self, hskip (hother hh)]
        exact Nat.succ_pos _
      · rw [hskip (hother hh), hskip (hother hh')]
        exact Nat.succ_lt_succ (idxOf_lt_idxOf_of_filter (hkept hh) (hkept hh') hlt)
termination_by edgeTypes.length
decreasing_by
  · exact Nat.lt_succ_self _
  · exact Nat.lt_succ_of_le (List.length_filter_le _ _)

theorem firstMentions_requested (a : Neighborhood) (edgeTypes : List Int) :
    FirstMentions a.groupCount edgeTypes (a.requested edgeTypes) :=
  ⟨fun _ => mem_requested, order_requested a edgeTypes⟩

/-- Whether edge types are refused: for the first one that the neighborhood does not have. -/
def Refuses (a : Neighborhood) (edgeTypes : List Int) (e : NodeError) : Prop :=
  ∃ before t after, edgeTypes = before ++ t :: after ∧ (∀ s ∈ before, a.HasType s) ∧ ¬a.HasType t ∧
    e = .invalidEdgeType t a.groupCount

theorem refuses_cons_iff {e : NodeError} (h : a.HasType t) :
    a.Refuses (t :: edgeTypes) e ↔ a.Refuses edgeTypes e := by
  constructor
  · rintro ⟨before, s, after, heq, hbefore, hs, rfl⟩
    cases before with
    | nil =>
      obtain ⟨rfl, -⟩ := List.cons.inj heq
      exact absurd h hs
    | cons first before =>
      obtain ⟨-, rfl⟩ := List.cons.inj heq
      exact ⟨before, s, after, rfl, (List.forall_mem_cons.1 hbefore).2, hs, rfl⟩
  · rintro ⟨before, s, after, rfl, hbefore, hs, rfl⟩
    exact ⟨t :: before, s, after, rfl, List.forall_mem_cons.2 ⟨h, hbefore⟩, hs, rfl⟩

theorem resolve_eq_error_iff {e : NodeError} :
    a.resolve edgeTypes = .error e ↔ a.Refuses edgeTypes e := by
  induction edgeTypes with
  | nil =>
    refine iff_of_false nofun ?_
    rintro ⟨before, t, after, heq, -⟩
    exact List.append_ne_nil_of_right_ne_nil before (List.cons_ne_nil t after) heq.symm
  | cons t rest ih =>
    rw [resolve]
    cases hgroup : a.group? t with
    | none =>
      have ht : ¬a.HasType t := group?_eq_none_iff.1 hgroup
      constructor
      · intro h
        exact ⟨[], t, rest, rfl, nofun, ht, (Except.error.inj h).symm⟩
      · rintro ⟨before, s, after, heq, hbefore, -, rfl⟩
        cases before with
        | nil =>
          obtain ⟨rfl, -⟩ := List.cons.inj heq
          rfl
        | cons first before =>
          obtain ⟨rfl, -⟩ := List.cons.inj heq
          exact absurd (hbefore t List.mem_cons_self) ht
    | some g =>
      obtain ⟨rfl, hg⟩ := group?_eq_some_iff.1 hgroup
      rw [refuses_cons_iff (hasType_iff_exists.2 ⟨g, hg, rfl⟩), ← ih]
      cases a.resolve rest with
      | error e' => rfl
      | ok groups => exact iff_of_false nofun nofun

theorem resolve_of_hasType (h : ∀ t ∈ edgeTypes, a.HasType t) :
    a.resolve edgeTypes = .ok (edgeTypes.map Int.toNat) := by
  induction edgeTypes with
  | nil => rfl
  | cons t rest ih =>
    obtain ⟨ht, hrest⟩ := List.forall_mem_cons.1 h
    obtain ⟨g, hg, rfl⟩ := hasType_iff_exists.1 ht
    rw [resolve, group?_eq_some_iff.2 ⟨rfl, hg⟩, ih hrest]
    rfl

def chosen (a : Neighborhood) (edgeTypes : List Int) : List Nat :=
  (List.range a.groupCount).filter fun g => (g : Int) ∈ edgeTypes

theorem mem_chosen : g ∈ a.chosen edgeTypes ↔ g < a.groupCount ∧ (g : Int) ∈ edgeTypes := by
  rw [chosen, List.mem_filter, List.mem_range, decide_eq_true_eq]

theorem nodup_chosen (a : Neighborhood) (edgeTypes : List Int) : (a.chosen edgeTypes).Nodup :=
  List.nodup_range.filter _

theorem chosen_congr (h : ∀ t, t ∈ others ↔ t ∈ edgeTypes) : a.chosen others = a.chosen edgeTypes := by
  rw [chosen, chosen]
  exact List.filter_congr fun g _ => decide_eq_decide.2 (h g)

theorem perm_chosen_requested (a : Neighborhood) (edgeTypes : List Int) :
    (a.chosen edgeTypes).Perm (a.requested edgeTypes) := by
  refine (List.perm_ext_iff_of_nodup (nodup_chosen a edgeTypes)
    (firstMentions_requested a edgeTypes).nodup).2 fun g => ?_
  rw [mem_chosen, mem_requested]

theorem bind_selected_eq_error_iff {β : Type} (f : List Nat → β) {e : NodeError} :
    (do return f (← a.selected edgeTypes)) = .error e ↔ a.Refuses edgeTypes e := by
  rw [← resolve_eq_error_iff, selected]
  cases a.resolve edgeTypes with
  | error e' =>
    constructor
    · rintro ⟨⟩
      rfl
    · rintro ⟨⟩
      rfl
  | ok picked => constructor <;> rintro ⟨⟩

theorem selected_of_hasType (h : ∀ t ∈ edgeTypes, a.HasType t) :
    a.selected edgeTypes = .ok (a.chosen edgeTypes) := by
  rw [selected, resolve_of_hasType h, chosen]
  refine congrArg Except.ok (List.filter_congr fun g _ => ?_)
  rw [Bool.eq_iff_iff, List.contains_iff_mem, List.mem_map, decide_eq_true_eq]
  constructor
  · rintro ⟨t, ht, rfl⟩
    rwa [Int.toNat_of_nonneg (h t ht).1]
  · intro hg
    exact ⟨g, hg, Int.toNat_natCast g⟩

/-- The edge types that are sampled: those that are asked for, or all if none is. -/
def scope (a : Neighborhood) (edgeTypes : List Int) : List Int :=
  if edgeTypes = [] then (List.range a.groupCount).map Int.ofNat else edgeTypes

theorem scope_of_ne_nil (h : edgeTypes ≠ []) : a.scope edgeTypes = edgeTypes := if_neg h

theorem chosen_scope_nil (a : Neighborhood) : a.chosen (a.scope []) = List.range a.groupCount := by
  rw [scope, if_pos rfl, chosen, List.filter_eq_self]
  intro g hg
  exact decide_eq_true (List.mem_map_of_mem (f := Int.ofNat) hg)

theorem chosen_ne_nil (hne : edgeTypes ≠ []) (hvalid : ∀ t ∈ edgeTypes, a.HasType t) :
    a.chosen edgeTypes ≠ [] := by
  obtain ⟨t, ht⟩ := List.exists_mem_of_ne_nil _ hne
  obtain ⟨g, hg, rfl⟩ := hasType_iff_exists.1 (hvalid t ht)
  exact List.ne_nil_of_mem (mem_chosen.2 ⟨hg, ht⟩)

/-- Whether 32 bits with a sign can say the number of each group that is drawn from: there are not too many
groups, or some are asked for, which they can say. -/
def Numbered (a : Neighborhood) (edgeTypes : List Int) : Prop :=
  a.groupCount ≤ Offsets.limit ∨ edgeTypes ≠ [] ∧ ∀ t ∈ edgeTypes, t < Offsets.limit

theorem Numbered.length_le (h : a.Numbered edgeTypes) :
    (a.chosen (a.scope edgeTypes)).length ≤ Offsets.limit := by
  rcases h with hcount | ⟨hne, hlt⟩
  · have hle : (a.chosen (a.scope edgeTypes)).length ≤ (List.range a.groupCount).length :=
      List.length_filter_le _ _
    rw [List.length_range] at hle
    exact Nat.le_trans hle hcount
  · have hsubset : a.chosen edgeTypes ⊆ List.range Offsets.limit := fun g hg => by
      have := hlt g (mem_chosen.1 hg).2
      exact List.mem_range.2 (by omega)
    have hle := (List.subperm_of_subset (nodup_chosen a edgeTypes) hsubset).length_le
    rwa [List.length_range, ← scope_of_ne_nil hne] at hle

theorem length_chosen_scope_of_whole (hvalid : ∀ t ∈ edgeTypes, a.HasType t)
    (hwhole : a.chosen edgeTypes = [] ∨ (a.chosen edgeTypes).length = a.groupCount) :
    (a.chosen (a.scope edgeTypes)).length = a.groupCount := by
  by_cases hnil : edgeTypes = []
  · rw [hnil, chosen_scope_nil, List.length_range]
  · rw [scope_of_ne_nil hnil]
    exact hwhole.resolve_left (chosen_ne_nil hnil hvalid)

end Neighborhood

end WeightedStore
