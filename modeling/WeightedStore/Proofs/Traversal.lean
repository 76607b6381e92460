import Mathlib.Data.List.Forall2
import WeightedStore.Proofs.Bytes.Encoding

/-!
Going through a list with steps that may fail. There is an outcome exactly if each step has one, and then the
outcomes stand side by side with what they are of.
-/

namespace WeightedStore

variable {ε α β : Type} {f : α → Except ε β} {xs : List α} {ys : List β}

theorem mapM_eq_ok_iff : xs.mapM f = .ok ys ↔ List.Forall₂ (fun x y => f x = .ok y) xs ys := by
  induction xs generalizing ys with
  | nil =>
    rw [List.forall₂_nil_left_iff]
    exact ⟨fun h => (Except.ok.inj h).symm, fun h => congrArg Except.ok h.symm⟩
  | cons x xs ih =>
    rw [List.mapM_cons, List.forall₂_cons_left_iff]
    constructor
    · intro h
      obtain ⟨y, hy, h⟩ := exists_of_bind_eq_ok h
      obtain ⟨rest, hrest, h⟩ := exists_of_bind_eq_ok h
      exact ⟨y, rest, hy, ih.1 hrest, (Except.ok.inj h).symm⟩
    · rintro ⟨y, rest, hy, hrest, rfl⟩
      rw [hy, ih.2 hrest]
      rfl

theorem exists_forall₂_iff {R : α → β → Prop} : (∃ ys, List.Forall₂ R xs ys) ↔ ∀ x ∈ xs, ∃ y, R x y := by
  constructor
  · rintro ⟨ys, h⟩
    induction h with
    | nil => exact nofun
    | cons hx _ ih => exact List.forall_mem_cons.2 ⟨⟨_, hx⟩, ih⟩
  · intro h
    induction xs with
    | nil => exact ⟨[], .nil⟩
    | cons x xs ih =>
      obtain ⟨⟨y, hy⟩, hxs⟩ := List.forall_mem_cons.1 h
      obtain ⟨ys, hys⟩ := ih hxs
      exact ⟨y :: ys, .cons hy hys⟩

theorem exists_mapM_iff : (∃ ys, xs.mapM f = .ok ys) ↔ ∀ x ∈ xs, ∃ y, f x = .ok y := by
  simp only [mapM_eq_ok_iff, exists_forall₂_iff]

theorem eq_filterMap_of_mapM (h : xs.mapM f = .ok ys) : ys = xs.filterMap fun x => (f x).toOption := by
  rw [mapM_eq_ok_iff] at h
  induction h with
  | nil => rfl
  | cons hx _ ih =>
    rw [List.filterMap_cons, hx, ih]
    rfl

theorem eq_ok_of_toOption {result : Except ε β} {y : β} (h : result.toOption = some y) : result = .ok y := by
  cases result with
  | error e => cases h
  | ok x => exact congrArg Except.ok (Option.some.inj h)

end WeightedStore
