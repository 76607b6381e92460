import WeightedStore.Proofs.Weighted.Answers
import WeightedStore.Proofs.Weighted.Outcomes

/-!
The columns of an alias table one after the other. Each step of the construction settles one column, filling it
up with an outcome or leaving it to its own, and no column is settled twice, whatever the probabilities are. A
column is only filled up with another outcome that is given more than the average, so that a draw answers with
the column that it picks or with such an outcome.
-/

namespace WeightedStore

open Floating Draw

namespace Draw

variable {n attempts used : Nat} {stream : WordStream}

def Lands (n : Nat) (word : UInt64) : Prop := word.toNat * n % UInt64.size ≤ zone n

theorem exists_accepted_iff :
    (∃ answer, accepted n attempts stream used = some answer) ↔
      ∃ k < attempts, Lands n (stream.word (used + k)) := by
  induction attempts generalizing used with
  | zero => exact ⟨nofun, nofun⟩
  | succ attempts ih =>
    rw [accepted_succ]
    split
    · rename_i hlands
      exact ⟨fun _ => ⟨0, Nat.zero_lt_succ _, hlands⟩, fun _ => ⟨_, rfl⟩⟩
    · rename_i hmisses
      rw [ih]
      constructor
      · rintro ⟨k, hk, hlands⟩
        rw [Nat.add_assoc, Nat.add_comm 1 k] at hlands
        exact ⟨k + 1, Nat.succ_lt_succ hk, hlands⟩
      · rintro ⟨k, hk, hlands⟩
        cases k with
        | zero => exact absurd hlands hmisses
        | succ k =>
          rw [Nat.add_comm k 1, ← Nat.add_assoc] at hlands
          exact ⟨k, Nat.lt_of_succ_lt_succ hk, hlands⟩

end Draw

namespace AliasTable

/-- How a column is settled: filled up with another outcome, or left whole to its own. -/
inductive Settling
  | filled (column other : Nat)
  | whole (column : Nat)
  deriving DecidableEq, Repr

def Settling.column : Settling → Nat
  | filled column _ => column
  | whole column => column

def Settling.Stands (t : AliasTable) : Settling → Prop
  | filled column other => t.redirect[column]? = some (other % UInt32.size)
  | whole column => t.acceptance[column]? = some (ofNat 1)

def Settling.Redirects (p : Nat → Prop) : Settling → Prop
  | filled column other => other ≠ column ∧ p other
  | whole _ => True

namespace Sweep

variable {count average : Binary64} {s : Sweep} {small large : List Nat} {steps : List Settling}
  {step : Settling} {p : Nat → Prop}

def table (s : Sweep) : AliasTable := ⟨s.acceptance, s.redirect⟩

def settle (count average : Binary64) (s : Sweep) : Settling → Sweep
  | .filled column other => s.fill count average column other
  | .whole column => s.accept column

def settlings (count average : Binary64) (s : Sweep) (small large : List Nat) : List Settling :=
  match small, large with
  | less :: small, more :: large =>
    let s := s.fill count average less more
    if average.below (s.massAt more) then
      .filled less more :: settlings count average s small (more :: large)
    else .filled less more :: settlings count average s (more :: small) large
  | small, large => (small ++ large).map .whole
termination_by small.length + large.length

theorem run_eq_foldl (count average : Binary64) (s : Sweep) (small large : List Nat) :
    s.run count average small large =
      (s.settlings count average small large).foldl (settle count average) s := by
  fun_induction settlings count average s small large with
  | case1 s less small more large s' hover ih =>
    rw [run, if_pos hover, List.foldl_cons]
    exact ih
  | case2 s less small more large s' hunder ih =>
    rw [run, if_neg hunder, List.foldl_cons]
    exact ih
  | case3 s small large hnone =>
    rw [run, List.foldl_map]
    · rfl
    · exact hnone

theorem perm_settlings (count average : Binary64) (s : Sweep) (small large : List Nat) :
    ((s.settlings count average small large).map Settling.column).Perm (small ++ large) := by
  fun_induction settlings count average s small large with
  | case1 s less small more large s' hover ih =>
    exact ih.cons less
  | case2 s less small more large s' hunder ih =>
    exact (ih.trans List.perm_middle.symm).cons less
  | case3 s small large hnone =>
    rw [List.map_map]
    exact .of_eq (List.map_id _)

theorem redirects_filled {less more : Nat} (hnodup : (less :: small ++ more :: large).Nodup)
    (hmore : p more) : (Settling.filled less more).Redirects p := by
  refine ⟨?_, hmore⟩
  rintro rfl
  exact (List.nodup_cons.1 hnodup).1 (List.mem_append_right _ List.mem_cons_self)

theorem redirects_of_mem_settlings (hnodup : (small ++ large).Nodup) (hlarge : ∀ i ∈ large, p i) :
    ∀ step ∈ s.settlings count average small large, step.Redirects p := by
  fun_induction settlings count average s small large with
  | case1 s less small more large s' hover ih =>
    exact List.forall_mem_cons.2 ⟨redirects_filled hnodup (hlarge more List.mem_cons_self),
      ih (List.nodup_cons.1 hnodup).2 hlarge⟩
  | case2 s less small more large s' hunder ih =>
    obtain ⟨hmore, hlarge⟩ := List.forall_mem_cons.1 hlarge
    exact List.forall_mem_cons.2 ⟨redirects_filled hnodup hmore,
      ih (List.perm_middle.nodup_iff.1 (List.nodup_cons.1 hnodup).2) hlarge⟩
  | case3 s small large hnone =>
    intro step hstep
    obtain ⟨i, -, rfl⟩ := List.mem_map.1 hstep
    exact trivial

theorem length_settle (count average : Binary64) (s : Sweep) (step : Settling) :
    (s.settle count average step).acceptance.length = s.acceptance.length ∧
      (s.settle count average step).redirect.length = s.redirect.length := by
  cases step <;> simp [settle, fill, accept]

theorem stands_settle_of_ne {settled : Settling} (hne : step.column ≠ settled.column)
    (h : settled.Stands s.table) : settled.Stands (s.settle count average step).table := by
  cases step <;> cases settled <;>
    simp_all [Settling.Stands, table, settle, fill, accept, Settling.column, List.getElem?_set_ne]

theorem stands_settle (hacceptance : step.column < s.acceptance.length)
    (hredirect : step.column < s.redirect.length) : step.Stands (s.settle count average step).table := by
  cases step with
  | filled column other => exact List.getElem?_set_self hredirect
  | whole column => exact List.getElem?_set_self hacceptance

theorem stands_foldl_of_notMem {settled : Settling} (hnot : settled.column ∉ steps.map Settling.column)
    (h : settled.Stands s.table) : settled.Stands (steps.foldl (settle count average) s).table := by
  induction steps generalizing s with
  | nil => exact h
  | cons step steps ih =>
    rw [List.map_cons, List.mem_cons, not_or] at hnot
    exact ih hnot.2 (stands_settle_of_ne (Ne.symm hnot.1) h)

theorem stands_foldl (hnodup : (steps.map Settling.column).Nodup)
    (hacceptance : ∀ step ∈ steps, step.column < s.acceptance.length)
    (hredirect : ∀ step ∈ steps, step.column < s.redirect.length) :
    ∀ step ∈ steps, step.Stands (steps.foldl (settle count average) s).table := by
  induction steps generalizing s with
  | nil => exact nofun
  | cons first steps ih =>
    obtain ⟨hnot, hnodup⟩ := List.nodup_cons.1 hnodup
    obtain ⟨hfirst, hacceptance⟩ := List.forall_mem_cons.1 hacceptance
    obtain ⟨hfirst', hredirect⟩ := List.forall_mem_cons.1 hredirect
    obtain ⟨hlength, hlength'⟩ := length_settle count average s first
    rw [List.foldl_cons]
    refine List.forall_mem_cons.2 ⟨stands_foldl_of_notMem hnot (stands_settle hfirst hfirst'), ih hnodup ?_ ?_⟩
    · rwa [hlength]
    · rwa [hlength']

end Sweep

open Sweep

def average (n : Nat) : Binary64 := .ofNat 1 / .ofNat n

def settlings (probabilities : List Binary32) : List Settling :=
  let columns := List.range probabilities.length
  let heavy i := (average probabilities.length).below ((start probabilities).massAt i)
  (start probabilities).settlings (.ofNat probabilities.length) (average probabilities.length)
    (columns.filter fun i => !heavy i).reverse (columns.filter heavy).reverse

variable {probabilities : List Binary32} {column : Nat}

theorem ofProbabilities_eq_foldl (probabilities : List Binary32) :
    ofProbabilities probabilities = ((settlings probabilities).foldl
      (settle (.ofNat probabilities.length) (average probabilities.length)) (start probabilities)).table := by
  rw [settlings, ← run_eq_foldl]
  rfl

theorem perm_column_settlings (probabilities : List Binary32) :
    ((settlings probabilities).map Settling.column).Perm (List.range probabilities.length) :=
  (perm_settlings _ _ _ _ _).trans (perm_sides _ _).symm

def Favoured (probabilities : List Binary32) (i : Nat) : Prop :=
  ∃ p, probabilities[i]? = some p ∧ (average probabilities.length).below p.convert = true

theorem Favoured.lt_length {i : Nat} (h : Favoured probabilities i) : i < probabilities.length := by
  obtain ⟨p, hp, -⟩ := h
  exact (List.getElem?_eq_some_iff.1 hp).1

theorem redirects_settlings (probabilities : List Binary32) :
    ∀ step ∈ settlings probabilities, step.Redirects (Favoured probabilities) := by
  refine redirects_of_mem_settlings ((perm_sides _ _).nodup_iff.1 List.nodup_range) fun i hi => ?_
  obtain ⟨hrange, hheavy⟩ := List.mem_filter.1 (List.mem_reverse.1 hi)
  rw [List.mem_range] at hrange
  rw [massAt_start hrange] at hheavy
  exact ⟨_, List.getElem?_eq_getElem hrange, hheavy⟩

theorem exists_settling (hcolumn : column < probabilities.length) :
    ∃ step ∈ settlings probabilities, step.column = column ∧ step.Stands (ofProbabilities probabilities) := by
  have hperm := perm_column_settlings probabilities
  have hfits := fits_start probabilities
  have hlt : ∀ step ∈ settlings probabilities, step.column < probabilities.length := fun step hstep =>
    List.mem_range.1 (hperm.mem_iff.1 (List.mem_map_of_mem hstep))
  obtain ⟨step, hstep, rfl⟩ := List.mem_map.1 (hperm.mem_iff.2 (List.mem_range.2 hcolumn))
  refine ⟨step, hstep, rfl, ?_⟩
  rw [ofProbabilities_eq_foldl]
  exact stands_foldl (hperm.nodup_iff.2 List.nodup_range) (hfits.length_acceptance ▸ hlt)
    (hfits.length_redirect ▸ hlt) step hstep

/-- A column that does not take a coin goes over to another outcome, one that is given more than the average. -/
theorem favoured_of_rejected (hn : probabilities.length ≤ UInt32.size)
    (hcolumn : column < probabilities.length) {coin : Binary32} (hcoin : coin.IsAmount)
    (hone : coin.units < Format.single.one)
    (hrejected : ¬coin.below ((ofProbabilities probabilities).acceptance.getD column .zero) = true) :
    (ofProbabilities probabilities).redirect.getD column 0 ≠ column ∧
      Favoured probabilities ((ofProbabilities probabilities).redirect.getD column 0) := by
  obtain ⟨step, hstep, rfl, hstands⟩ := exists_settling hcolumn
  rw [List.getD_eq_getElem?_getD] at hrejected ⊢
  cases step with
  | filled column other =>
    have hredirect : (ofProbabilities probabilities).redirect[column]? = some (other % UInt32.size) := hstands
    obtain ⟨hne, hfavoured⟩ := redirects_settlings probabilities _ hstep
    rw [Settling.column, hredirect, Nat.mod_eq_of_lt (Nat.lt_of_lt_of_le hfavoured.lt_length hn)]
    exact ⟨hne, hfavoured⟩
  | whole column =>
    have haccept : (ofProbabilities probabilities).acceptance[column]? = some (.ofNat 1) := hstands
    rw [Settling.column, haccept] at hrejected
    exact absurd (below_one hcoin hone) hrejected

theorem draw_of_length_pos {t : AliasTable} (hlength : 0 < t.length) (stream : WordStream) (used : Nat) :
    t.draw stream used = (below t.length stream used).bind fun (column, taken) =>
      (Draw.coin stream taken).map fun (coin, used') => (some (t.outcome column coin), used') := by
  rw [draw, if_neg (Nat.ne_of_gt hlength)]
  rfl

theorem exists_draw_iff (t : AliasTable) (stream : WordStream) (used : Nat) :
    (∃ answer, t.draw stream used = some answer) ↔
      t.length = 0 ∨ ∃ k < stream.patience, Lands t.length (stream.word (used + k)) := by
  rcases Nat.eq_zero_or_pos t.length with hzero | hpos
  · rw [draw, if_pos hzero]
    exact ⟨fun _ => .inl hzero, fun _ => ⟨_, rfl⟩⟩
  · rw [draw_of_length_pos hpos, ← exists_accepted_iff, ← below_apply]
    constructor
    · rintro ⟨answer, hanswer⟩
      obtain ⟨picked, hpicked, -⟩ := Option.bind_eq_some_iff.1 hanswer
      exact .inr ⟨picked, hpicked⟩
    · rintro (hzero | ⟨picked, hpicked⟩)
      · exact absurd hzero (Nat.ne_of_gt hpos)
      · rw [hpicked]
        exact ⟨_, rfl⟩

theorem exists_of_draw {t : AliasTable} {stream : WordStream} {used used' : Nat} {drawn : Option Nat}
    (hlength : 0 < t.length) (hdraw : t.draw stream used = some (drawn, used')) :
    ∃ column taken coin, drawn = some (t.outcome column coin) ∧
      below t.length stream used = some (column, taken) ∧ Draw.coin stream taken = some (coin, used') := by
  rw [draw_of_length_pos hlength] at hdraw
  obtain ⟨⟨column, taken⟩, hbelow, hdraw⟩ := Option.bind_eq_some_iff.1 hdraw
  obtain ⟨⟨coin, taken'⟩, hcoin, hanswer⟩ := Option.map_eq_some_iff.1 hdraw
  obtain ⟨rfl, rfl⟩ := Prod.mk.inj hanswer
  exact ⟨column, taken, coin, rfl, hbelow, hcoin⟩

theorem exists_of_draw_ofProbabilities {stream : WordStream} {used used' : Nat} {drawn : Option Nat}
    (hpos : 0 < probabilities.length)
    (hdraw : (ofProbabilities probabilities).draw stream used = some (drawn, used')) :
    ∃ i column taken coin, drawn = some i ∧ i < probabilities.length ∧
      below probabilities.length stream used = some (column, taken) ∧
      Draw.coin stream taken = some (coin, used') ∧
      if coin.below ((ofProbabilities probabilities).acceptance.getD column .zero) then i = column
      else probabilities.length ≤ UInt32.size → i ≠ column ∧ Favoured probabilities i := by
  obtain ⟨hwellFormed, hlength, -⟩ := wellFormed_ofProbabilities probabilities
  obtain ⟨column, taken, coin, rfl, hbelow, hcoin⟩ := exists_of_draw (hlength ▸ hpos) hdraw
  have hinside := below_lt (hlength ▸ hpos) hbelow
  have houtcome := outcome_lt hwellFormed hinside coin
  rw [hlength] at hbelow hinside houtcome
  obtain ⟨hamount, hone⟩ := ensures_coin _ _ _ _ hcoin
  refine ⟨_, column, taken, coin, rfl, houtcome, hbelow, hcoin, ?_⟩
  rw [outcome]
  split
  · rfl
  · rename_i hrejected
    exact fun hn => favoured_of_rejected hn hinside hamount hone hrejected

/-- Whatever the probabilities are, numbers or not, the steps settle each column once. A draw is answered as soon
as a word falls on a column, and its answer is the column that is picked unless the coin is rejected there: then
it is another outcome, one that is given more than the average, if 32 bits can say which. -/
theorem settles_columns_once (probabilities : List Binary32) :
    let n := probabilities.length
    let t := ofProbabilities probabilities
    ((settlings probabilities).map Settling.column).Perm (List.range n) ∧
      t = ((settlings probabilities).foldl (settle (.ofNat n) (average n)) (start probabilities)).table ∧
      t.acceptance.length = n ∧ t.redirect.length = n ∧ (∀ other ∈ t.redirect, other < n) ∧
      ∀ stream used,
        ((∃ answer, t.draw stream used = some answer) ↔
          n = 0 ∨ ∃ k < stream.patience, Lands n (stream.word (used + k))) ∧
        ∀ drawn used', t.draw stream used = some (drawn, used') →
          (drawn = none ↔ n = 0) ∧
            ∀ i ∈ drawn, i < n ∧ ∃ column taken coin,
              below n stream used = some (column, taken) ∧ Draw.coin stream taken = some (coin, used') ∧
                if coin.below (t.acceptance.getD column .zero) then i = column
                else n ≤ UInt32.size → i ≠ column ∧ Favoured probabilities i := by
  obtain ⟨hwellFormed, hlength, -⟩ := wellFormed_ofProbabilities probabilities
  dsimp only
  refine ⟨perm_column_settlings probabilities, ofProbabilities_eq_foldl probabilities, hlength,
    hwellFormed.length_redirect.trans hlength, hlength ▸ hwellFormed.redirect_lt, fun stream used => ?_⟩
  refine ⟨hlength ▸ exists_draw_iff (ofProbabilities probabilities) stream used, fun drawn used' hdraw => ?_⟩
  rcases Nat.eq_zero_or_pos probabilities.length with hzero | hpos
  · rw [draw, if_pos (hlength.trans hzero)] at hdraw
    obtain ⟨rfl, rfl⟩ := Prod.mk.inj (Option.some.inj hdraw)
    exact ⟨iff_of_true rfl hzero, fun i hi => absurd hi (Option.not_mem_none i)⟩
  · obtain ⟨i, column, taken, coin, rfl, hi, hanswer⟩ := exists_of_draw_ofProbabilities hpos hdraw
    refine ⟨iff_of_false (Option.some_ne_none i) (Nat.ne_of_gt hpos), ?_⟩
    rintro _ ⟨⟩
    exact ⟨hi, column, taken, coin, hanswer⟩

example : settlings [nan false, infinity false, .ofRatio false Format.single.one 2, infinity true] =
    [.filled 3 2, .filled 2 1, .whole 1, .whole 0] := by decide +kernel

end AliasTable

end WeightedStore
