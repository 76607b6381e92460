/-!
Steps that change a state one after the other. A step that is refused ends them, and what was done
before it stays done.
-/

namespace WeightedStore.Steps

variable {σ β ε : Type}

def run (step : σ → β → σ × Option ε) (s : σ) : List β → σ × Option ε
  | [] => (s, none)
  | x :: xs => match step s x with
    | (next, none) => run step next xs
    | (stopped, some e) => (stopped, some e)

def outcome : σ × Option ε → Except ε σ
  | (s, none) => .ok s
  | (_, some e) => .error e

theorem run_fst {step : σ → β → σ × Option ε} {p : σ → Prop} {q : β → Prop}
    (h : ∀ s x, p s → q x → p (step s x).1) {s : σ} (hs : p s) {xs : List β}
    (hxs : ∀ x ∈ xs, q x) : p (run step s xs).1 := by
  induction xs generalizing s with
  | nil => exact hs
  | cons x xs ih =>
    obtain ⟨hx, hxs⟩ := List.forall_mem_cons.1 hxs
    have hnext := h s x hs hx
    rw [run]
    split
    · rename_i next hstep
      rw [hstep] at hnext
      exact ih hnext hxs
    · rename_i stopped e hstep
      rw [hstep] at hnext
      exact hnext

theorem run_append {step : σ → β → σ × Option ε} {s t : σ} {front : List β} (h : run step s front = (t, none))
    (back : List β) : run step s (front ++ back) = run step t back := by
  induction front generalizing s with
  | nil =>
    obtain rfl : s = t := congrArg Prod.fst h
    rfl
  | cons x front ih =>
    rw [List.cons_append, run]
    rw [run] at h
    split at h
    · rename_i next hstep
      exact ih h
    · cases h

theorem run_map {τ γ : Type} {step : σ → β → σ × Option ε} {step' : τ → γ → τ × Option ε} {f : σ → τ}
    {g : β → γ} (h : ∀ s x, step' (f s) (g x) = (step s x).map f id) (s : σ) (xs : List β) :
    run step' (f s) (xs.map g) = (run step s xs).map f id := by
  induction xs generalizing s with
  | nil => rfl
  | cons x xs ih =>
    rw [List.map_cons, run, run, h]
    cases step s x with
    | mk next refused =>
      cases refused with
      | none => exact ih next
      | some e => rfl

end WeightedStore.Steps
