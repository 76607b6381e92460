import WeightedStore.Proofs.Weighted.Checked

/-!
Draws that have an answer. A draw can only fail to have one while the stream offers no word that falls on a
column, so a stream that serves the columns of a pool gives an answer to each draw from it. There are streams
that fall on any column that is wanted.
-/

namespace WeightedStore

-- powers as the core library has them, whatever else is imported
attribute [local instance (high)] instPowNat

open Floating

namespace Draw

variable {α β : Type} {d : Draw α} {stream : WordStream}

def Returns (stream : WordStream) (d : Draw α) : Prop :=
  ∀ used, ∃ x used', d stream used = some (x, used')

theorem returns_pure (x : α) : Returns stream (pure x : Draw α) := fun used => ⟨x, used, rfl⟩

theorem Returns.bind_ensured {p : α → Prop} (hd : Returns stream d) (hp : d.Ensures p) {f : α → Draw β}
    (hf : ∀ x, p x → Returns stream (f x)) : Returns stream (d >>= f) := by
  intro used
  obtain ⟨x, used', hx⟩ := hd used
  obtain ⟨y, used'', hy⟩ := hf x (hp _ _ _ _ hx) used'
  refine ⟨y, used'', ?_⟩
  rw [bind_apply, hx]
  exact hy

theorem Returns.bind (hd : Returns stream d) {f : α → Draw β} (hf : ∀ x, Returns stream (f x)) :
    Returns stream (d >>= f) := hd.bind_ensured (ensures_any d) fun x _ => hf x

theorem below_apply (n : Nat) (stream : WordStream) (used : Nat) :
    below n stream used = accepted n stream.patience stream used := rfl

theorem returns_coin : Returns stream coin := fun _ => ⟨_, _, rfl⟩

theorem returns_repeated {d : Draw (Option α)} (hd : Returns stream d) (n : Nat) :
    Returns stream (repeated d n) := by
  induction n with
  | zero => exact returns_pure _
  | succ n ih => exact hd.bind fun _ => ih.bind fun _ => returns_pure _

theorem ensures_repeated {d : Draw (Option α)} {p : α → Prop}
    (hd : d.Ensures fun drawn => ∃ x, drawn = some x ∧ p x) (n : Nat) :
    (repeated d n).Ensures fun xs => xs.length = n ∧ ∀ x ∈ xs, p x := by
  induction n with
  | zero => exact ensures_pure ⟨rfl, nofun⟩
  | succ n ih =>
    refine hd.bind ?_
    rintro _ ⟨x, rfl, hx⟩
    refine ih.bind fun xs hxs => ensures_pure ⟨?_, ?_⟩
    · exact congrArg Nat.succ hxs.1
    · exact List.forall_mem_cons.2 ⟨hx, hxs.2⟩

end Draw

open Draw

/-- Whether drawing one of `n` columns has an answer on a stream, from whatever word on. -/
def WordStream.Serves (stream : WordStream) (n : Nat) : Prop := 0 < n → Returns stream (below n)

theorem WordStream.serves_zeros (n : Nat) : WordStream.Serves ⟨fun _ => 0, 1⟩ n := by
  intro _ used
  refine ⟨0, used + 1, ?_⟩
  rw [below_apply, accepted_succ]
  simp

def WordStream.landing (n column : Nat) : WordStream :=
  ⟨fun _ => UInt64.ofNat ((column * UInt64.size + (n - 1)) / n), 1⟩

namespace Draw

variable {n column : Nat}

theorem below_landing (hn : n ≤ UInt64.size) (hcolumn : column < n) (used : Nat) :
    below n (.landing n column) used = some (column, used + 1) := by
  have hsize : UInt64.size = 18446744073709551616 := rfl
  have hproduct := Nat.div_add_mod' (column * UInt64.size + (n - 1)) n
  have hrest := Nat.mod_lt (column * UInt64.size + (n - 1)) (Nat.lt_of_le_of_lt (Nat.zero_le _) hcolumn)
  have hword : (column * UInt64.size + (n - 1)) / n < UInt64.size := by
    rw [Nat.div_lt_iff_lt_mul (Nat.lt_of_le_of_lt (Nat.zero_le _) hcolumn), hsize]
    omega
  have hzone : n ≤ n * 2 ^ (63 - n.log2) := Nat.le_mul_of_pos_right n (Nat.two_pow_pos _)
  have hpatience : (WordStream.landing n column).patience = 1 := rfl
  have hlanding : ((WordStream.landing n column).word used).toNat =
      (column * UInt64.size + (n - 1)) / n := UInt64.toNat_ofNat_of_lt' hword
  rw [below_apply, hpatience, accepted_succ, hlanding]
  generalize (column * UInt64.size + (n - 1)) / n * n = product at hproduct ⊢
  generalize (column * UInt64.size + (n - 1)) % n = rest at hproduct hrest
  -- the product goes beyond the column by less than one
  have hlow : product % UInt64.size ≤ zone n := by
    rw [hsize] at hproduct ⊢
    rw [zone]
    omega
  have hhigh : product / UInt64.size = column := by
    rw [hsize] at hproduct hn ⊢
    omega
  rw [if_pos hlow, hhigh]

end Draw

theorem AliasTable.returns_draw {t : AliasTable} {stream : WordStream} (h : stream.Serves t.length) :
    Returns stream t.draw := by
  rw [draw]
  split
  · exact returns_pure _
  · rename_i hlength
    exact (h (Nat.pos_of_ne_zero hlength)).bind fun _ => returns_coin.bind fun _ => returns_pure _

theorem AliasTable.ensures_draw_some {t : AliasTable} (h : t.WellFormed) (hlength : 0 < t.length) :
    t.draw.Ensures fun drawn => ∃ column, drawn = some column ∧ column < t.length := by
  rw [draw, if_neg (Nat.ne_of_gt hlength)]
  refine (ensures_below hlength).bind fun column hcolumn => ?_
  exact (ensures_any Draw.coin).bind fun coin _ =>
    ensures_pure ⟨_, rfl, outcome_lt h hcolumn coin⟩

namespace Pool

variable {α : Type} {pairs : List (α × Binary32)} {stream : WordStream}

theorem length_table_of_drawable (h : zero.below (ofWeighted pairs).total = true) :
    (ofWeighted pairs).table.length = pairs.length := by
  have htable : (ofWeighted pairs).table =
      .ofProbabilities ((pairs.map Prod.snd).map (· / (ofWeighted pairs).total)) := if_pos h
  rw [htable, (AliasTable.wellFormed_ofProbabilities _).2.1, List.length_map, List.length_map]

theorem length_table_pos (h : zero.below (ofWeighted pairs).total = true) :
    0 < (ofWeighted pairs).table.length := by
  refine Nat.pos_of_ne_zero fun hzero => ?_
  rw [length_table_of_drawable h, List.length_eq_zero_iff] at hzero
  rw [hzero] at h
  have hnone : zero.below (ofWeighted ([] : List (α × Binary32))).total = false := rfl
  rw [hnone] at h
  cases h

theorem returns_draw (h : zero.below (ofWeighted pairs).total = true)
    (hserves : stream.Serves pairs.length) : Returns stream (ofWeighted pairs).draw := by
  rw [← length_table_of_drawable h] at hserves
  exact (AliasTable.returns_draw hserves).bind fun _ => returns_pure _

theorem ensures_draw_some (h : zero.below (ofWeighted pairs).total = true) :
    (ofWeighted pairs).draw.Ensures fun drawn => ∃ x, drawn = some x ∧ x ∈ pairs := by
  rw [draw]
  refine (AliasTable.ensures_draw_some (wellFormed_ofWeighted pairs).1.table (length_table_pos h)).bind ?_
  rintro _ ⟨column, rfl, hcolumn⟩
  rw [length_table_of_drawable h] at hcolumn
  refine ensures_pure ⟨pairs[column], ?_, List.getElem_mem hcolumn⟩
  rw [Option.bind_some, get?, pairs_ofWeighted, List.getElem?_eq_getElem hcolumn]

end Pool

end WeightedStore
