import WeightedStore.Proofs.Weighted.Answers
import WeightedStore.Proofs.Weighted.Outcomes

/-!
When items without weight are drawn. Whatever rounding does, a column is filled up with an item that has a
share, or is left over whole. So an item without weight is drawn only if its own column is left over, and then
it is drawn from each stream that falls there.
-/

namespace WeightedStore

-- powers and zero as the core library has them, whatever else is imported
attribute [local instance (high)] instPowNat Zero.ofOfNat0

open Floating Draw

namespace AliasTable

namespace Sweep

variable {p : Nat → Prop} {n less more : Nat} {count average : Binary64} {s : Sweep} {small large : List Nat}

/-- What is known while columns are filled up: the heavy outcomes are allowed, the light ones that are not have
no mass, and the columns that are filled are settled. -/
structure Filled (p : Nat → Prop) (n : Nat) (s : Sweep) (small large : List Nat) : Prop where
  fits : s.Fits n
  lt : ∀ i ∈ small ++ large, i < n
  units_eq_zero : ∀ i ∈ small, ¬p i → (s.massAt i).units = 0
  allowed : ∀ i ∈ large, p i
  settled : ∀ i < n, i ∉ small ++ large → s.Settled p i

theorem Filled.lighten (h : Filled p n s small (more :: large)) : Filled p n s (more :: small) large := by
  have hperm : (small ++ more :: large).Perm (more :: small ++ large) := List.perm_middle
  obtain ⟨hmore, hlarge⟩ := List.forall_mem_cons.1 h.allowed
  refine ⟨h.fits, fun i hi => h.lt i (hperm.mem_iff.2 hi), ?_, hlarge, fun i hi hnot => ?_⟩
  · exact List.forall_mem_cons.2 ⟨fun hnot => absurd hmore hnot, h.units_eq_zero⟩
  · exact h.settled i hi fun hother => hnot (hperm.mem_iff.1 hother)

theorem Filled.fill (h : Filled p n s (less :: small) (more :: large)) (hn : n ≤ UInt32.size)
    (hcount : count.isFinite = true) :
    Filled p n (s.fill count average less more) small (more :: large) := by
  have hmore := h.lt more (List.mem_append_right _ List.mem_cons_self)
  have hless := h.lt less List.mem_cons_self
  have hallowed := h.allowed more List.mem_cons_self
  refine ⟨h.fits.fill hmore, fun i hi => h.lt i (List.mem_cons_of_mem _ hi), fun i hi hnot => ?_, h.allowed,
    fun i hi hnot => ?_⟩
  · -- the mass of the heavy outcome changes, but that one is allowed
    rw [massAt_fill_of_ne fun heq : more = i => hnot (heq ▸ hallowed)]
    exact h.units_eq_zero i (List.mem_cons_of_mem _ hi) hnot
  · by_cases heq : less = i
    · subst heq
      refine settled_fill (h.fits.length_redirect.symm ▸ hless) (h.fits.length_acceptance.symm ▸ hless)
        (Nat.lt_of_lt_of_le hmore hn) hallowed fun hp => ?_
      have hzero := h.units_eq_zero less List.mem_cons_self hp
      have hfinite : (s.massAt less).isFinite = true := by
        rw [isFinite, word_eq_zero_iff.2 hzero]
        decide
      exact units_acceptance hcount hfinite hzero
    · refine settled_fill_of_ne heq (h.settled i hi fun hmem => ?_)
      rcases List.mem_cons.1 hmem with rfl | hmem
      · exact heq rfl
      · exact hnot hmem

theorem Filled.run (h : Filled p n s small large) (hn : n ≤ UInt32.size) (hcount : count.isFinite = true) :
    ∀ i < n, (s.run count average small large).Settled p i ∨
      (s.run count average small large).acceptance.getD i .zero = .ofNat 1 := by
  fun_induction Sweep.run count average s small large with
  | case1 s less small more large s' hover ih => exact ih (h.fill hn hcount)
  | case2 s less small more large s' hunder ih => exact ih (h.fill hn hcount).lighten
  | case3 s small large =>
    intro i hi
    obtain ⟨hredirect, hacceptance⟩ := foldl_accept h.fits (small ++ large)
    have hkept := hacceptance i hi
    by_cases hmem : i ∈ small ++ large
    · rw [if_pos hmem] at hkept
      exact .inr hkept
    · rw [if_neg hmem] at hkept
      have hsettled := h.settled i hi hmem
      exact .inl ⟨hredirect ▸ hsettled.redirect, fun hp => hkept ▸ hsettled.acceptance hp⟩

end Sweep

open Sweep

theorem isFinite_count {n : Nat} (hn : n ≤ UInt64.size) : (ofNat n : Binary64).isFinite = true := by
  have hsize : Format.double.units (1087 * 2 ^ (52 : Nat)) = UInt64.size * Format.double.one := by
    decide +kernel
  have hword : Format.double.round (n * Format.double.one) 1 ≤ 1087 * 2 ^ (52 : Nat) := by
    refine Format.round_le double_fraction_pos Nat.one_pos (by decide) ?_
    rw [hsize, Nat.one_mul]
    exact Nat.mul_le_mul_right _ hn
  refine (isAmount_ofWord (Nat.lt_of_le_of_lt hword ?_)).isFinite
  decide

theorem isSum_ofWord {w : Nat} (hw : w ≤ Format.double.top) : (ofWord false w : Binary64).IsSum := by
  have hword : (ofWord false w : Binary64).word = w :=
    word_ofWord (Nat.lt_of_le_of_lt hw Format.double.top_lt_words)
  exact ⟨hword.symm ▸ hw, fun hn => absurd hn Bool.false_ne_true⟩

theorem isSum_average (n : Nat) : (ofNat 1 / ofNat n : Binary64).IsSum := by
  obtain ⟨hone, hunits⟩ := units_ofNat Nat.one_pos (by decide)
  have hpos : ¬(ofNat 1 : Binary64).units = 0 := by
    rw [hunits, Nat.one_mul]
    exact Nat.ne_of_gt Format.double.one_pos
  have hnumber : (ofNat n : Binary64).isNaN = false := isNaN_ofRatio _ _ _
  have hsign : (ofNat n : Binary64).negative = false := negative_ofWord _ _
  change (div (ofNat 1) (ofNat n)).IsSum
  rw [div, hone.isNaN, hnumber, hone.isInfinite, hone.negative, hsign, if_neg hpos]
  simp only [Bool.false_eq_true, if_false, bne_self_eq_false]
  split
  · exact isSum_ofWord (Nat.zero_le _)
  · split
    · exact isSum_ofWord (Nat.le_refl _)
    · exact isSum_ofWord (Format.round_le_top _ _ _)

section Outcome

variable {probabilities : List Binary32} {p : Nat → Prop}
  (hp : ∀ i q, probabilities[i]? = some q → ¬p i → q.isWeight = true ∧ q.units = 0)
  (hn : probabilities.length ≤ UInt32.size) {column : Nat} (hcolumn : column < probabilities.length)
include hp hn hcolumn

/-- Each column of a table is filled up with outcomes that have a share, or is left over whole. -/
theorem settled_or_whole : (p ((ofProbabilities probabilities).redirect.getD column 0) ∧
      (¬p column → ((ofProbabilities probabilities).acceptance.getD column .zero).units = 0)) ∨
    (ofProbabilities probabilities).acceptance.getD column .zero = .ofNat 1 := by
  have hzero : ∀ i, i < probabilities.length → ¬p i → ((start probabilities).massAt i).units = 0 := by
    intro i hi hnot
    obtain ⟨hweight, hzero⟩ := hp i _ (List.getElem?_eq_getElem hi) hnot
    rw [massAt_start hi]
    exact (units_convert hweight (hzero ▸ Nat.zero_le _)).2.1 hzero
  let heavy (i : Nat) : Bool :=
    (ofNat 1 / ofNat probabilities.length : Binary64).below ((start probabilities).massAt i)
  have hsides := perm_sides heavy (List.range probabilities.length)
  have hstart : Filled p probabilities.length (start probabilities)
      ((List.range probabilities.length).filter fun i => !heavy i).reverse
      ((List.range probabilities.length).filter heavy).reverse := by
    refine ⟨fits_start probabilities, fun i hi => List.mem_range.1 (hsides.mem_iff.2 hi), fun i hi => ?_,
      fun i hi => ?_, fun i hi hnot => absurd (hsides.mem_iff.1 (List.mem_range.2 hi)) hnot⟩
    · exact hzero i (List.mem_range.1 (hsides.mem_iff.2 (List.mem_append_left _ hi)))
    · -- what is above the average has mass
      obtain ⟨hrange, hheavy⟩ := List.mem_filter.1 (List.mem_reverse.1 hi)
      by_contra hnot
      unfold heavy at hheavy
      rw [(isSum_average _).not_below_of_units_eq_zero (hzero i (List.mem_range.1 hrange) hnot)] at hheavy
      exact Bool.false_ne_true hheavy
  have hcount := isFinite_count (Nat.le_trans hn (by decide))
  exact (hstart.run hn hcount column hcolumn).imp_left fun h => ⟨h.redirect, h.acceptance⟩

variable {coin : Binary32} (hcoin : coin.IsAmount) (hbelow : coin.units < Format.single.one)
include hcoin hbelow

theorem allowed_outcome_iff : p ((ofProbabilities probabilities).outcome column coin) ↔
    p column ∨ (ofProbabilities probabilities).acceptance.getD column .zero ≠ .ofNat 1 := by
  have hsum := isSum_of_isWeight hcoin.isWeight
  rw [outcome]
  rcases settled_or_whole hp hn hcolumn with ⟨hredirect, hzero⟩ | hwhole
  · by_cases hown : p column
    · refine iff_of_true ?_ (Or.inl hown)
      split
      · exact hown
      · exact hredirect
    · have hone : (ofNat 1 : Binary32).units ≠ 0 := by decide
      rw [hsum.not_below_of_units_eq_zero (hzero hown)]
      exact iff_of_true hredirect (Or.inr fun hwhole => hone (hwhole ▸ hzero hown))
  · rw [hwhole, if_pos (below_one hcoin hbelow), ne_self_iff_false, or_false]

end Outcome

theorem outcome_of_whole {t : AliasTable} {column : Nat} (hwhole : t.acceptance.getD column .zero = .ofNat 1)
    {coin : Binary32} (hcoin : coin.IsAmount) (hbelow : coin.units < Format.single.one) :
    t.outcome column coin = column := by
  rw [outcome, hwhole, if_pos (below_one hcoin hbelow)]

end AliasTable

theorem Floating.units_share_eq_zero {w total : Binary32} (hw : w.isWeight = true) (htotal : total.IsSum)
    (hpos : zero.below total = true) (hzero : w.units = 0) :
    (w / total).isWeight = true ∧ (w / total).units = 0 := by
  cases hfinite : total.isFinite with
  | true =>
    have hshare := units_div hw (isWeight_iff_isSum.2 ⟨htotal, hfinite⟩) (htotal.zero_below_iff.1 hpos)
      (hzero ▸ Nat.zero_le _)
    exact ⟨hshare.1, hshare.2.1 hzero⟩
  | false =>
    rw [htotal.eq_infinity hfinite (by decide)]
    exact units_div_infinity hw

namespace Pool

section Table

variable {ws : List Binary32} (hws : ∀ w ∈ ws, w.isWeight = true) (hn : ws.length ≤ UInt32.size)
  {column : Nat} (hcolumn : column < ws.length)
include hws hn hcolumn

theorem weighs_outcome_iff (hpos : zero.below (sum ws) = true) {coin : Binary32} (hcoin : coin.IsAmount)
    (hbelow : coin.units < Format.single.one) :
    (∃ w, ws[(tableOf ws (sum ws)).outcome column coin]? = some w ∧ zero.below w = true) ↔
      (∃ w, ws[column]? = some w ∧ zero.below w = true) ∨
        (tableOf ws (sum ws)).acceptance.getD column .zero ≠ .ofNat 1 := by
  rw [tableOf, if_pos hpos]
  refine AliasTable.allowed_outcome_iff (p := fun i => ∃ w, ws[i]? = some w ∧ zero.below w = true) ?_ ?_ ?_
    hcoin hbelow
  · intro i q hq hnot
    rw [List.getElem?_map] at hq
    obtain ⟨w, hw, rfl⟩ := Option.map_eq_some_iff.1 hq
    have hweight := hws w (List.mem_of_getElem? hw)
    refine units_share_eq_zero hweight (isSum_sum Running.fraction_pos hws) hpos ?_
    refine Nat.eq_zero_of_not_pos fun hunits => hnot ⟨w, hw, ?_⟩
    exact (isSum_of_isWeight hweight).zero_below_iff.2 hunits
  · rwa [List.length_map]
  · rwa [List.length_map]

theorem whole_of_infinite (hinfinite : (sum ws).isFinite = false) :
    (tableOf ws (sum ws)).acceptance.getD column .zero = .ofNat 1 := by
  have hpos : zero.below (infinity false : Binary32) = true := by decide
  rw [(isSum_sum Running.fraction_pos hws).eq_infinity hinfinite (by decide), tableOf, if_pos hpos]
  refine (AliasTable.settled_or_whole (p := fun _ => False) ?_ ?_ ?_).resolve_left fun h => h.1
  · intro i q hq _
    obtain ⟨w, hw, rfl⟩ := List.mem_map.1 (List.mem_of_getElem? hq)
    exact units_div_infinity (hws w hw)
  · rwa [List.length_map]
  · rwa [List.length_map]

end Table

variable {α : Type} {pairs : List (α × Binary32)}

theorem exists_draw_landing_outcome (hdrawable : zero.below (ofWeighted pairs).total = true)
    (hn : pairs.length ≤ UInt64.size) {i : Nat} (hi : i < pairs.length) (used : Nat) :
    ∃ coin used', coin.IsAmount ∧ coin.units < Format.single.one ∧
      (ofWeighted pairs).draw (.landing pairs.length i) used =
        some (pairs[(ofWeighted pairs).table.outcome i coin]?, used') := by
  have htable := length_table_of_drawable hdrawable
  have hreturns : Returns (.landing pairs.length i) Draw.coin := returns_coin
  obtain ⟨coin, used', hcoin⟩ := hreturns (used + 1)
  obtain ⟨hamount, hunits⟩ := ensures_coin _ _ _ _ hcoin
  have hdraw : (ofWeighted pairs).table.draw (.landing pairs.length i) used =
      some (some ((ofWeighted pairs).table.outcome i coin), used') := by
    have hne : (ofWeighted pairs).table.length ≠ 0 := by omega
    rw [AliasTable.draw, if_neg hne, bind_apply, htable, below_landing hn hi, Option.bind_some]
    dsimp only
    rw [bind_apply, hcoin]
    rfl
  refine ⟨coin, used', hamount, hunits, ?_⟩
  rw [draw, bind_apply, hdraw, Option.bind_some]
  dsimp only
  rw [Option.bind_some, get?, pairs_ofWeighted]
  rfl

theorem exists_draw_landing (hdrawable : zero.below (ofWeighted pairs).total = true)
    (hn : pairs.length ≤ UInt64.size) {x : α × Binary32} {i : Nat} (hx : pairs[i]? = some x)
    (hwhole : (ofWeighted pairs).table.acceptance.getD i .zero = .ofNat 1) (used : Nat) : ∃ used',
      (ofWeighted pairs).draw (.landing pairs.length i) used = some (some x, used') := by
  obtain ⟨hi, -⟩ := List.getElem?_eq_some_iff.1 hx
  obtain ⟨coin, used', hamount, hunits, hdraw⟩ := exists_draw_landing_outcome hdrawable hn hi used
  refine ⟨used', ?_⟩
  rw [hdraw, AliasTable.outcome_of_whole hwhole hamount hunits, hx]

theorem exists_draw_landing_weighs (hweights : ∀ w ∈ pairs.map Prod.snd, w.isWeight = true)
    (hn : pairs.length ≤ UInt32.size) {x : α × Binary32} {i : Nat} (hx : pairs[i]? = some x)
    (hpos : zero.below x.2 = true) (used : Nat) :
    ∃ y used', y ∈ pairs ∧ zero.below y.2 = true ∧
      (ofWeighted pairs).draw (.landing pairs.length i) used = some (some y, used') := by
  obtain ⟨hi, -⟩ := List.getElem?_eq_some_iff.1 hx
  have hw : (pairs.map Prod.snd)[i]? = some x.2 := by
    rw [List.getElem?_map, hx]
    rfl
  have hdrawable : zero.below (ofWeighted pairs).total = true :=
    zero_below_sum Running.fraction_pos hweights (List.mem_of_getElem? hw) hpos
  obtain ⟨coin, used', hamount, hunits, hdraw⟩ :=
    exists_draw_landing_outcome hdrawable (Nat.le_trans hn (by decide)) hi used
  obtain ⟨w, hplace, hbelow⟩ := (weighs_outcome_iff hweights (by rwa [List.length_map])
    (by rwa [List.length_map]) hdrawable hamount hunits).2 (.inl ⟨_, hw, hpos⟩)
  rw [List.getElem?_map, Option.map_eq_some_iff] at hplace
  obtain ⟨y, hy, rfl⟩ := hplace
  exact ⟨y, used', List.mem_of_getElem? hy, hbelow, hdraw.trans (congrArg (fun z => some (z, used')) hy)⟩

def DrawsWeight (p : Pool α) : Prop := p.draw.Ensures fun drawn => ∀ x ∈ drawn, zero.below x.2 = true

section Draws

variable (hweights : ∀ w ∈ pairs.map Prod.snd, w.isWeight = true) (hn : pairs.length ≤ UInt32.size)
  (hdrawable : zero.below (ofWeighted pairs).total = true)
include hweights hn hdrawable

theorem drawsWeight_iff : (ofWeighted pairs).DrawsWeight ↔ ∀ i x, pairs[i]? = some x →
    (ofWeighted pairs).table.acceptance.getD i .zero = .ofNat 1 → zero.below x.2 = true := by
  have hlength : (pairs.map Prod.snd).length ≤ UInt32.size := by rwa [List.length_map]
  constructor
  · intro hdraws i x hx hwhole
    obtain ⟨used', hdraw⟩ := exists_draw_landing hdrawable (Nat.le_trans hn (by decide)) hx hwhole 0
    exact hdraws _ _ _ _ hdraw x rfl
  · intro hwhole
    have hplaces : (ofWeighted pairs).table.draw.Ensures fun drawn => ∀ i ∈ drawn,
        ∃ w, (pairs.map Prod.snd)[i]? = some w ∧ zero.below w = true := by
      rw [AliasTable.draw, if_neg (Nat.ne_of_gt (length_table_pos hdrawable))]
      refine (ensures_below (length_table_pos hdrawable)).bind fun column hcolumn => ?_
      refine ensures_coin.bind fun coin hcoin => ensures_pure ?_
      rintro _ ⟨⟩
      rw [length_table_of_drawable hdrawable] at hcolumn
      have hplace : column < (pairs.map Prod.snd).length := by rwa [List.length_map]
      refine (weighs_outcome_iff hweights hlength hplace hdrawable hcoin.1 hcoin.2).2 ?_
      by_cases hacceptance : (ofWeighted pairs).table.acceptance.getD column .zero = .ofNat 1
      · refine Or.inl ⟨pairs[column].2, ?_, ?_⟩
        · rw [List.getElem?_map, List.getElem?_eq_getElem hcolumn]
          rfl
        · exact hwhole column _ (List.getElem?_eq_getElem hcolumn) hacceptance
      · exact Or.inr hacceptance
    exact fun stream used drawn used' hdraw x hx =>
      (ensures_draw_of_places hplaces stream used drawn used' hdraw x hx).2

end Draws

variable {items : List α} {weights : List Binary32} {pool : Pool α}

/-- A pool of columns of which some weight is above zero draws an item of the columns from each stream. It draws
one without weight exactly if the column of such an item is left over whole: with an infinite total all of them
are, with a finite one none is while there are at most `2 ^ 11` items. -/
theorem draws_weight_iff_whole_columns_weigh (h : ofColumns items weights = .ok pool)
    (hpos : ∃ w ∈ weights, zero.below w = true) (hn : items.length ≤ UInt32.size) :
    (∀ stream : WordStream, stream.Serves items.length → Returns stream pool.draw) ∧
      (pool.draw.Ensures fun drawn => ∃ x, drawn = some x ∧ x ∈ items.zip weights) ∧
      (pool.DrawsWeight ↔ ∀ i w, weights[i]? = some w →
        pool.table.acceptance.getD i .zero = .ofNat 1 → zero.below w = true) ∧
      ((sum weights).isFinite = false → (pool.DrawsWeight ↔ ∀ w ∈ weights, zero.below w = true)) ∧
      ((sum weights).isFinite = true → items.length ≤ 2 ^ (11 : Nat) → pool.DrawsWeight) := by
  obtain ⟨hlength, hweights⟩ := (ofColumns_eq_ok_iff items weights).1 ⟨pool, h⟩
  obtain rfl := eq_ofWeighted_of_ofColumns h
  have hcolumn : (items.zip weights).map Prod.snd = weights := List.map_snd_zip (Nat.le_of_eq hlength.symm)
  have hpairs : (items.zip weights).length = items.length := by
    rw [List.length_zip, ← hlength, Nat.min_self]
  have hdrawable : zero.below (ofWeighted (items.zip weights)).total = true := by
    obtain ⟨w, hw, hpos⟩ := hpos
    show zero.below (sum ((items.zip weights).map Prod.snd)) = true
    rw [hcolumn]
    exact zero_below_sum Running.fraction_pos hweights hw hpos
  have hplaces : (ofWeighted (items.zip weights)).DrawsWeight ↔ ∀ i w, weights[i]? = some w →
      (ofWeighted (items.zip weights)).table.acceptance.getD i .zero = .ofNat 1 → zero.below w = true := by
    rw [drawsWeight_iff (hcolumn.symm ▸ hweights) (hpairs ▸ hn) hdrawable]
    constructor
    · intro hwhole i w hw hacceptance
      rw [← hcolumn, List.getElem?_map] at hw
      obtain ⟨x, hx, rfl⟩ := Option.map_eq_some_iff.1 hw
      exact hwhole i x hx hacceptance
    · intro hwhole i x hx hacceptance
      exact hwhole i x.2 (List.getElem?_zip_eq_some.1 hx).2 hacceptance
  refine ⟨fun stream hserves => returns_draw hdrawable (hpairs.symm ▸ hserves), ensures_draw_some hdrawable,
    hplaces, fun hinfinite => hplaces.trans ?_, fun hfinite hfew => ?_⟩
  · constructor
    · intro hwhole w hw
      obtain ⟨i, hi⟩ := List.mem_iff_getElem?.1 hw
      refine hwhole i w hi ?_
      have htable : (ofWeighted (items.zip weights)).table = tableOf weights (sum weights) := by
        rw [ofWeighted, hcolumn]
      rw [htable]
      exact whole_of_infinite hweights (hlength ▸ hn) (List.getElem?_eq_some_iff.1 hi).1 hinfinite
    · intro hall i w hi _
      exact hall w (List.mem_of_getElem? hi)
  · have htotal : (ofWeighted (items.zip weights)).total.isFinite = true := by
      show (sum ((items.zip weights).map Prod.snd)).isFinite = true
      rwa [hcolumn]
    intro stream used drawn used' hdraw x hx
    exact (ensures_draw_weighted (hcolumn.symm ▸ hweights) (hpairs.symm ▸ hfew) htotal
      stream used drawn used' hdraw x hx).2

theorem draws_weight_one_without :
    let weights : List Binary32 := [.zero, .ofBits 0x3f800000, .ofBits 0x40400000]
    ∃ pool, ofColumns ([5, 7, 9] : List UInt64) weights = .ok pool ∧ (∃ w ∈ weights, zero.below w = true) ∧
      (sum weights).isFinite = true ∧ pool.DrawsWeight ∧ ∃ x used', pool.draw ⟨fun _ => 0, 1⟩ 0 =
        some (some x, used') ∧ x ∈ ([5, 7, 9] : List UInt64).zip weights := by
  intro weights
  have hcolumns : ofColumns ([5, 7, 9] : List UInt64) weights =
      .ok (.ofWeighted (([5, 7, 9] : List UInt64).zip weights)) := rfl
  have hpos : ∃ w ∈ weights, zero.below w = true := ⟨.ofBits 0x3f800000, by decide, by decide⟩
  have hfinite : (sum weights).isFinite = true := by decide +kernel
  obtain ⟨hreturns, hmember, -, -, hdraws⟩ := draws_weight_iff_whole_columns_weigh hcolumns hpos (by decide)
  obtain ⟨_, used', hdraw⟩ := hreturns _ (WordStream.serves_zeros _) 0
  obtain ⟨x, rfl, hx⟩ := hmember _ _ _ _ hdraw
  exact ⟨_, hcolumns, hpos, hfinite, hdraws hfinite (by decide), x, used', hdraw, hx⟩

/-- An item without weight is drawn beside two of the greatest weight. -/
theorem draws_weightless_on_infinite_total :
    let most : Binary32 := .ofBits 0x7f7fffff
    ∃ pool, ofColumns ([2, 1, 1] : List UInt64) [.zero, most, most] = .ok pool ∧
      (∃ w ∈ [Floating.zero, most, most], zero.below w = true) ∧
      ∃ used', pool.draw ⟨fun _ => 0, 1⟩ 0 = some (some (2, .zero), used') := by
  intro most
  let pairs : List (UInt64 × Binary32) := [(2, .zero), (1, most), (1, most)]
  have hweights : ∀ w ∈ pairs.map Prod.snd, w.isWeight = true := by decide
  have hdrawable : zero.below (ofWeighted pairs).total = true := by decide +kernel
  have hwhole : (ofWeighted pairs).table.acceptance.getD 0 .zero = .ofNat 1 :=
    whole_of_infinite hweights (by decide) (by decide) (by decide +kernel)
  have hfirst : pairs[0]? = some (2, .zero) := rfl
  have hstream : WordStream.landing pairs.length 0 = ⟨fun _ => 0, 1⟩ :=
    congrArg (WordStream.mk · 1) (funext fun _ => by decide)
  obtain ⟨used', hdraw⟩ := exists_draw_landing hdrawable (by decide) hfirst hwhole 0
  rw [hstream] at hdraw
  exact ⟨.ofWeighted pairs, rfl, ⟨most, by decide, by decide⟩, used', hdraw⟩

end Pool

end WeightedStore
