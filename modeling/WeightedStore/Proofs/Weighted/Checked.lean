import WeightedStore.Proofs.Binary.Comparison
import WeightedStore.Proofs.Weighted.Sweep
import WeightedStore.Weighted.Pool
import WeightedStore.Weighted.Running

/-!
Draws that check every place they read. A place that is not there breaks the draw off; on tables, pools
and totals as they are made none is missed, so a checked draw is the draw itself.
-/

namespace WeightedStore

namespace Draw

variable {α β : Type} {d : Draw α} {p : α → Prop} {q : β → Prop}

def read (x : Option α) : OptionT Draw α := OptionT.mk (pure x)

def Ensures (d : Draw α) (p : α → Prop) : Prop :=
  ∀ stream used x used', d stream used = some (x, used') → p x

theorem ensures_pure {x : α} (h : p x) : (pure x : Draw α).Ensures p := by
  rintro stream used _ _ ⟨⟩
  exact h

theorem bind_apply (d : Draw α) (f : α → Draw β) (stream : WordStream) (used : Nat) :
    (d >>= f) stream used = (d stream used).bind fun (x, used) => f x stream used := rfl

theorem Ensures.bind (hd : d.Ensures p) {f : α → Draw β} (hf : ∀ x, p x → (f x).Ensures q) :
    (d >>= f).Ensures q := by
  intro stream used y used'' h
  rw [bind_apply, Option.bind_eq_some_iff] at h
  obtain ⟨⟨x, used'⟩, hx, hy⟩ := h
  exact hf x (hd stream used x used' hx) stream used' y used'' hy

theorem ensures_below {n : Nat} (hn : 0 < n) : (below n).Ensures (· < n) :=
  fun _ _ _ _ h => below_lt hn h

theorem ensures_any (d : Draw α) : d.Ensures fun _ => True := fun _ _ _ _ _ => trivial

end Draw

open Draw

namespace AliasTable

variable {t : AliasTable}

theorem outcome_lt (h : t.WellFormed) {column : Nat} (hcolumn : column < t.length)
    (coin : Binary32) : t.outcome column coin < t.length := by
  rw [outcome]
  split
  · exact hcolumn
  · have hredirect : column < t.redirect.length := h.length_redirect ▸ hcolumn
    rw [List.getD_eq_getElem?_getD, List.getElem?_eq_getElem hredirect]
    exact h.redirect_lt _ (List.getElem_mem hredirect)

end AliasTable

namespace Pool

variable {α : Type} {p : Pool α}

structure WellFormed (p : Pool α) : Prop where
  table : p.table.WellFormed
  length_table_le : p.table.length ≤ p.items.length
  length_weights : p.weights.length = p.items.length

def tableOf? (weights : List Binary32) (total : Binary32) : Option AliasTable :=
  if Floating.zero.below total then AliasTable.ofProbabilities? (weights.map (· / total))
  else some .empty

def ofWeighted? (pairs : List (α × Binary32)) : Option (Pool α) := do
  let weights := pairs.map Prod.snd
  return ⟨pairs.map Prod.fst, weights, .sum weights, ← tableOf? weights (.sum weights)⟩

theorem wellFormed_tableOf (weights : List Binary32) (total : Binary32) :
    (tableOf weights total).WellFormed ∧ (tableOf weights total).length ≤ weights.length ∧
      tableOf? weights total = some (tableOf weights total) := by
  rw [tableOf, tableOf?]
  split
  · obtain ⟨hwellFormed, hlength, hchecked⟩ :=
      AliasTable.wellFormed_ofProbabilities (weights.map (· / total))
    rw [List.length_map] at hlength
    exact ⟨hwellFormed, Nat.le_of_eq hlength, hchecked⟩
  · exact ⟨AliasTable.wellFormed_empty, Nat.zero_le _, rfl⟩

theorem wellFormed_ofWeighted (pairs : List (α × Binary32)) :
    (ofWeighted pairs).WellFormed ∧ ofWeighted? pairs = some (ofWeighted pairs) := by
  obtain ⟨hwellFormed, hlength, hchecked⟩ :=
    wellFormed_tableOf (pairs.map Prod.snd) (.sum (pairs.map Prod.snd))
  have hcolumns : (pairs.map Prod.snd).length = (pairs.map Prod.fst).length := by
    rw [List.length_map, List.length_map]
  refine ⟨⟨hwellFormed, Nat.le_trans hlength (Nat.le_of_eq hcolumns), hcolumns⟩, ?_⟩
  rw [ofWeighted?, hchecked]
  rfl

end Pool

def slice? {α : Type} (xs : List α) (start stop : Nat) : Option (List α) :=
  if start ≤ stop ∧ stop ≤ xs.length then some ((xs.take stop).drop start) else none

namespace Running

variable {totals : List Binary32} {start stop : Nat}

theorem exists_upTo? {i : Nat} (hi : i ≤ totals.length) : upTo? totals i = some (upTo totals i) := by
  have hlt : i < (Floating.zero :: totals).length := Nat.lt_succ_of_le hi
  rw [upTo, upTo?, List.getElem?_eq_getElem hlt]
  rfl

theorem getElem?_pred (hstart : start < stop) (hstop : stop ≤ totals.length) :
    totals[stop - 1]? = some (upTo totals stop) := by
  have hplace : stop = stop - 1 + 1 := by omega
  have hupTo := exists_upTo? hstop
  rwa [upTo?, hplace, List.getElem?_cons_succ, ← hplace] at hupTo

theorem length_slice (hstop : stop ≤ totals.length) :
    ((totals.take stop).drop start).length = stop - start := by
  rw [List.length_drop, List.length_take_of_le hstop]

theorem pairwise_slice {r : Binary32 → Binary32 → Prop} (h : totals.Pairwise r) :
    ((totals.take stop).drop start).Pairwise r :=
  (h.sublist (List.take_sublist _ _)).sublist (List.drop_sublist _ _)

/-- The last total is not below itself, so the search for it stops before the end of the interval, in
whatever order the totals stand. -/
theorem point_below_lt (hstart : start < stop) (hstop : stop ≤ totals.length) :
    Bisect.point (fun c => c.below (upTo totals stop)) ((totals.take stop).drop start) < stop - start := by
  have hlast : ((totals.take stop).drop start)[stop - start - 1]? = some (upTo totals stop) := by
    have hplace : start + (stop - start - 1) = stop - 1 := by omega
    rw [List.getElem?_drop, hplace, List.getElem?_take_of_lt (by omega)]
    exact getElem?_pred hstart hstop
  rw [← length_slice hstop] at hlast ⊢
  exact Bisect.point_lt_length hlast (Floating.below_self _)

theorem placeOf_mem (hstart : start < stop) (hstop : stop ≤ totals.length) (point : Binary32) :
    start ≤ placeOf totals start stop point ∧ placeOf totals start stop point < stop := by
  have hbelow := point_below_lt hstart hstop
  have hle := Bisect.point_le_length (fun c => c.atMost point) ((totals.take stop).drop start)
  rw [length_slice hstop] at hle
  rw [placeOf, length_slice hstop]
  split
  · omega
  · omega

theorem ensures_select :
    (select totals start stop).Ensures fun drawn => ∀ i ∈ drawn, start ≤ i ∧ i < stop := by
  rw [select]
  split
  · exact ensures_pure nofun
  rename_i hplaces
  rw [not_or, Nat.not_le, Nat.not_lt] at hplaces
  dsimp only
  split
  · exact ensures_pure nofun
  · refine (ensures_any Draw.coin).bind fun u _ => ensures_pure ?_
    rintro _ ⟨⟩
    exact placeOf_mem hplaces.1 hplaces.2 _

end Running

end WeightedStore
