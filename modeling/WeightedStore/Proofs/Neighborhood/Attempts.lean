import WeightedStore.Neighborhood.Sampling
import WeightedStore.Proofs.Weighted.Answers

/-!
Drawing neighbor after neighbor, attempt by attempt. An attempt picks a group and either draws a neighbor
of it or misses. All that comes of the attempts is known from what a single one can give.
-/

namespace WeightedStore

namespace Draw

variable {α β : Type} {d : Draw α} {stream : WordStream}

def Gives (stream : WordStream) (d : Draw α) (p : α → Prop) : Prop :=
  ∀ used x used', d stream used = some (x, used') → p x

def counted (d : Draw α) : StateT Nat Draw α := do
  modify (· + 1)
  d

theorem counted_bind_apply (d : Draw α) (f : α → StateT Nat Draw β) (n : Nat) (stream : WordStream)
    (used : Nat) : (counted d >>= f) n stream used =
      (d stream used).bind fun (x, used) => f x (n + 1) stream used := by
  change ((d stream used).bind _).bind _ = _
  cases d stream used <;> rfl

theorem liftM_bind_apply (d : Draw α) (f : α → StateT Nat Draw β) (n : Nat) (stream : WordStream)
    (used : Nat) : (liftM d >>= f) n stream used =
      (d stream used).bind fun (x, used) => f x n stream used := by
  change ((d stream used).bind _).bind _ = _
  cases d stream used <;> rfl

end Draw

namespace Neighborhood

open Draw

variable {pick : Draw (Option Nat)} {drawIn : Nat → Draw (Option Neighbor)} {stream : WordStream}
  {misses wanted used used' : Nat} {result : Option (List Neighbor)}

/-- How drawing neighbor after neighbor goes on a stream: the misses that are allowed still, the neighbors
that are wanted and the words taken before; what comes of it, the words taken then and how often a group was
picked. -/
inductive Attempts (pick : Draw (Option Nat)) (drawIn : Nat → Draw (Option Neighbor))
    (stream : WordStream) : Nat → Nat → Nat → Option (List Neighbor) → Nat → Nat → Prop
  | done {misses used : Nat} : Attempts pick drawIn stream misses 0 used (some []) used 0
  | unpicked {misses wanted used used' : Nat} (hpick : pick stream used = some (none, used')) :
      Attempts pick drawIn stream misses (wanted + 1) used none used' 1
  | drawn {misses wanted used u v used' g picks : Nat} {n : Neighbor}
      {result : Option (List Neighbor)} (hpick : pick stream used = some (some g, u))
      (hdraw : drawIn g stream u = some (some n, v))
      (rest : Attempts pick drawIn stream misses wanted v result used' picks) :
      Attempts pick drawIn stream misses (wanted + 1) used (result.map (n :: ·)) used' (picks + 1)
  | missed {misses wanted used u v used' g picks : Nat} {result : Option (List Neighbor)}
      (hpick : pick stream used = some (some g, u)) (hdraw : drawIn g stream u = some (none, v))
      (rest : Attempts pick drawIn stream misses (wanted + 1) v result used' picks) :
      Attempts pick drawIn stream (misses + 1) (wanted + 1) used result used' (picks + 1)
  | givenUp {wanted used u used' g : Nat} (hpick : pick stream used = some (some g, u))
      (hdraw : drawIn g stream u = some (none, used')) :
      Attempts pick drawIn stream 0 (wanted + 1) used none used' 1

theorem drawMany_succ_apply (pick : Draw (Option Nat)) (drawIn : Nat → Draw (Option Neighbor))
    (misses wanted : Nat) (stream : WordStream) (used : Nat) :
    drawMany pick drawIn misses (wanted + 1) stream used =
      (pick stream used).bind fun
        | (none, u) => some (none, u)
        | (some g, u) => (drawIn g stream u).bind fun
          | (some n, v) => (drawMany pick drawIn misses wanted stream v).bind fun (result, used') =>
              some (result.map (n :: ·), used')
          | (none, v) => match misses with
            | 0 => some (none, v)
            | misses + 1 => drawMany pick drawIn misses (wanted + 1) stream v := by
  rw [drawMany.eq_def]
  dsimp only
  rw [bind_apply]
  refine congrArg (Option.bind (pick stream used)) (funext fun ⟨picked, u⟩ => ?_)
  cases picked with
  | none => rfl
  | some g =>
    dsimp only
    rw [bind_apply]
    refine congrArg (Option.bind (drawIn g stream u)) (funext fun ⟨drawn, v⟩ => ?_)
    cases drawn with
    | some n => rfl
    | none => cases misses <;> rfl

theorem exists_attempts (h : drawMany pick drawIn misses wanted stream used = some (result, used')) :
    ∃ picks, Attempts pick drawIn stream misses wanted used result used' picks := by
  -- an attempt that draws leaves less to draw, one that misses leaves less misses
  induction misses using Nat.strongRecOn generalizing wanted used result with
  | ind misses ihmisses =>
    induction wanted generalizing used result with
    | zero =>
      rw [drawMany] at h
      cases h
      exact ⟨0, .done⟩
    | succ wanted ih =>
      rw [drawMany_succ_apply, Option.bind_eq_some_iff] at h
      obtain ⟨⟨_ | g, u⟩, hpick, h⟩ := h
      · cases h
        exact ⟨1, .unpicked hpick⟩
      dsimp only at h
      rw [Option.bind_eq_some_iff] at h
      obtain ⟨⟨_ | n, v⟩, hdraw, h⟩ := h
      · cases misses with
        | zero =>
          cases h
          exact ⟨1, .givenUp hpick hdraw⟩
        | succ misses =>
          obtain ⟨picks, rest⟩ := ihmisses misses (Nat.lt_succ_self misses) h
          exact ⟨picks + 1, .missed hpick hdraw rest⟩
      · dsimp only at h
        rw [Option.bind_eq_some_iff] at h
        obtain ⟨⟨result', used''⟩, hrest, h⟩ := h
        cases h
        obtain ⟨picks, rest⟩ := ih hrest
        exact ⟨picks + 1, .drawn hpick hdraw rest⟩

theorem returns_drawMany {p : Nat → Prop} (hpick : Returns stream pick)
    (hpicked : pick.Ensures fun picked => ∀ g ∈ picked, p g)
    (hdraw : ∀ g, p g → Returns stream (drawIn g)) (misses wanted : Nat) :
    Returns stream (drawMany pick drawIn misses wanted) := by
  induction misses using Nat.strongRecOn generalizing wanted with
  | ind misses ihmisses =>
    induction wanted with
    | zero =>
      rw [drawMany]
      exact returns_pure _
    | succ wanted ih =>
      rw [drawMany.eq_def]
      refine hpick.bind_ensured hpicked fun picked hg => ?_
      cases picked with
      | none => exact returns_pure _
      | some g =>
        refine (hdraw g (hg g rfl)).bind fun drawn => ?_
        cases drawn with
        | some n => exact ih.bind fun result => returns_pure _
        | none =>
          cases misses with
          | zero => exact returns_pure _
          | succ misses => exact ihmisses misses (Nat.lt_succ_self misses) _

namespace Attempts

variable {picks : Nat} (h : Attempts pick drawIn stream misses wanted used result used' picks)
include h

theorem picks_le : picks ≤ wanted + misses := by
  induction h with
  | done => exact Nat.zero_le _
  | unpicked => omega
  | drawn _ _ _ ih => omega
  | missed _ _ _ ih => omega
  | givenUp => omega

theorem drawMany_counted (n : Nat) :
    drawMany (counted pick) (fun g => liftM (drawIn g)) misses wanted n stream used =
      some ((result, n + picks), used') := by
  induction h generalizing n with
  | done => rw [drawMany]; rfl
  | unpicked hpick =>
    rw [drawMany.eq_def]
    dsimp only
    rw [counted_bind_apply, hpick]
    rfl
  | drawn hpick hdraw rest ih =>
    rw [drawMany.eq_def]
    dsimp only
    rw [counted_bind_apply, hpick, Option.bind_some]
    dsimp only
    rw [liftM_bind_apply, hdraw, Option.bind_some]
    change ((drawMany (counted pick) (fun g => liftM (drawIn g)) _ _ (n + 1) stream _).bind _) = _
    rw [ih, Nat.add_right_comm, ← Nat.add_assoc]
    rfl
  | missed hpick hdraw rest ih =>
    rw [drawMany.eq_def]
    dsimp only
    rw [counted_bind_apply, hpick, Option.bind_some]
    dsimp only
    rw [liftM_bind_apply, hdraw, Option.bind_some, ← Nat.add_assoc, Nat.add_right_comm]
    exact ih (n + 1)
  | givenUp hpick hdraw =>
    rw [drawMany.eq_def]
    dsimp only
    rw [counted_bind_apply, hpick, Option.bind_some]
    dsimp only
    rw [liftM_bind_apply, hdraw]
    rfl

section Ensured

variable {p : Nat → Prop} (hpick : Gives stream pick fun picked => ∃ g, picked = some g ∧ p g)
include hpick

theorem length_eq {q : Neighbor → Prop}
    (hdraw : ∀ g, p g → Gives stream (drawIn g) fun drawn => ∀ n ∈ drawn, q n) :
    ∀ neighbors ∈ result, neighbors.length = wanted ∧ ∀ n ∈ neighbors, q n := by
  induction h with
  | done => rintro _ ⟨⟩; exact ⟨rfl, nofun⟩
  | unpicked => exact nofun
  | drawn hg hn _ ih =>
    intro neighbors hneighbors
    obtain ⟨rest, hrest, rfl⟩ := Option.map_eq_some_iff.1 hneighbors
    obtain ⟨hlength, hall⟩ := ih rest hrest
    obtain ⟨_, ⟨⟩, hp⟩ := hpick _ _ _ hg
    have hq := hdraw _ hp _ _ _ hn _ rfl
    exact ⟨congrArg Nat.succ hlength, List.forall_mem_cons.2 ⟨hq, hall⟩⟩
  | missed _ _ _ ih => exact ih
  | givenUp => exact nofun

theorem isSome (hdraw : ∀ g, p g → Gives stream (drawIn g) fun drawn => drawn.isSome = true) :
    result.isSome = true := by
  induction h with
  | done => rfl
  | unpicked hnone => obtain ⟨_, ⟨⟩, -⟩ := hpick _ _ _ hnone
  | drawn _ _ _ ih => rwa [Option.isSome_map]
  | missed _ _ _ ih => exact ih
  | givenUp hg hnone =>
    obtain ⟨_, ⟨⟩, hp⟩ := hpick _ _ _ hg
    exact hdraw _ hp _ _ _ hnone

theorem eq_none (hdraw : ∀ g, p g → Gives stream (drawIn g) fun drawn => drawn = none)
    (hwanted : 0 < wanted) : result = none := by
  induction h with
  | done => exact absurd hwanted (Nat.lt_irrefl 0)
  | unpicked => rfl
  | drawn hg hn =>
    obtain ⟨_, ⟨⟩, hp⟩ := hpick _ _ _ hg
    exact nomatch hdraw _ hp _ _ _ hn
  | missed _ _ _ ih => exact ih hwanted
  | givenUp => rfl

end Ensured

end Attempts

end Neighborhood

end WeightedStore
