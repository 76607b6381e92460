import WeightedStore.Proofs.Index.RangeTotals

/-!
What merging makes of the weights of built range indexes. The weights that the parts report are added up
anew, in the order of the merged rows. A row keeps a weight above zero exactly if its weight is not lost
to the rounding of the total before it.
-/

namespace WeightedStore.RangeIndex

-- powers as the core library has them, whatever else is imported
attribute [local instance (high)] instPowNat

variable {ι α : Type} [Attribute α] {index : RangeIndex ι α} {others : List (RangeIndex ι α)}

theorem exists_taken_ofRows {rows : List (WeightedRow ι α)}
    (h : ∀ r ∈ rows, r.weight.isFinite = true → r.weight.isWeight = true) (name : String)
    (stamp : Stamp) {p : Nat} {r : WeightedRow ι α} (hr : (sortByValue rows)[p]? = some r) :
    ∃ before total taken, Running.upTo? (ofRows name stamp rows).totals p = some before ∧
      (ofRows name stamp rows).totals[p]? = some total ∧
      (ofRows name stamp rows).weights[p]? = some taken ∧ total = before + r.weight ∧
      (total.isFinite = true → (Floating.zero.below taken = true ↔ before.MovedBy r.weight)) := by
  have hws : ∀ w ∈ (sortByValue rows).map (·.weight), w.isFinite = true → w.isWeight = true :=
    List.forall_mem_map.2 fun r hr => h r (List.mem_mergeSort.1 hr)
  have hw : ((sortByValue rows).map (·.weight))[p]? = some r.weight := by
    rw [List.getElem?_map, hr]
    rfl
  rw [weights, totals_ofRows]
  exact Running.exists_taken hws hw

/-- Merging built indexes gives their rows, in one stable sort by value, with new totals. Where such a
total is finite, the weight that is reported for its row is above zero exactly if the row's weight is
not lost to rounding, for one if it is more than a part in 2 ^ 24 of the total before it. -/
theorem mergeAll_weight_positive_iff (hbuilt : ∀ part ∈ index :: others, part.Built)
    (hname : ∀ other ∈ others, other.name = index.name) (stamp : Stamp) :
    let sorted := Attribute.sortBy (·.value) ((index :: others).flatMap weightedRows)
    ∃ merged, index.mergeAll stamp others = .ok merged ∧ merged.name = index.name ∧
      merged.ids = sorted.map (·.id) ∧ merged.values = sorted.map (·.value) ∧
      ∀ (p : Nat) (r : WeightedRow ι α), sorted[p]? = some r →
        ∃ before total taken, Running.upTo? merged.totals p = some before ∧
          merged.totals[p]? = some total ∧ merged.weights[p]? = some taken ∧
          total = before + r.weight ∧
          (total.isFinite = true → (Floating.zero.below taken = true ↔ before.MovedBy r.weight) ∧
            (before.units < 2 ^ (24 : Nat) * r.weight.units → Floating.zero.below taken = true)) := by
  intro sorted
  -- a part whose totals overflow reports data that are no weights, but those are not finite
  have hrows : ∀ r ∈ (index :: others).flatMap weightedRows,
      r.weight.isFinite = true → r.weight.isWeight = true := fun r hr => by
    obtain ⟨part, hpart, hr⟩ := List.mem_flatMap.1 hr
    exact (hbuilt part hpart).sumsWeights.isWeight_of_isFinite _ (weight_of_mem_zipRows hr)
  refine ⟨index.concat stamp others, mergeAll_eq_ok hname stamp, rfl, ids_ofRows _ _ _,
    values_ofRows _ _ _, fun p r hr => ?_⟩
  obtain ⟨before, total, taken, hbefore, htotal, htaken, hsum, hcounts⟩ :=
    exists_taken_ofRows hrows index.name stamp hr
  refine ⟨before, total, taken, hbefore, htotal, htaken, hsum, fun hfinite => ?_⟩
  exact ⟨hcounts hfinite, fun hlt => (hcounts hfinite).2 (Floating.movedBy_of_lt hlt)⟩

section Single

variable {row : WeightedRow ι α}

def single (name : String) (stamp : Stamp) (row : WeightedRow ι α) : RangeIndex ι α :=
  ofRows name stamp [row]

theorem built_single (h : row.weight.isWeight = true) (name : String) (stamp : Stamp) :
    (single name stamp row).Built :=
  ⟨[row.id], [row.value], [row.weight],
    build_eq_ok_iff.2 ⟨⟨rfl, rfl⟩, List.forall_mem_singleton.2 h, rfl⟩⟩

theorem weightedRows_single (h : Floating.zero + row.weight = row.weight) (name : String)
    (stamp : Stamp) : (single name stamp row).weightedRows = [row] := by
  have hsorted : sortByValue [row] = [row] :=
    Attribute.sortBy_of_orderedBy (List.pairwise_singleton _ _)
  have htotals : Running.totals ([row].map (·.weight)) = [row.weight] := congrArg ([·]) h
  rw [weightedRows, weights, single, ids_ofRows, values_ofRows, totals_ofRows, hsorted, htotals]
  rfl

end Single

theorem mergeAll_weight_positive_iff_kept :
    let weight (bits : Nat) : Binary32 := .ofBits bits
    let first := single "price" ⟨1, 0⟩ ⟨(1 : UInt32), (1 : UInt32), weight 0x4b800000⟩
    let second := single "price" ⟨2, 0⟩ ⟨(2 : UInt32), (2 : UInt32), weight 0x40000000⟩
    (∀ part ∈ [first, second], part.Built) ∧ second.name = first.name ∧
      ∃ merged taken, first.mergeAll ⟨3, 0⟩ [second] = .ok merged ∧ merged.ids = [1, 2] ∧
        merged.weights[1]? = some taken ∧ Floating.zero.below taken = true := by
  intro weight first second
  have hbuilt : ∀ part ∈ [first, second], part.Built :=
    List.forall_mem_cons.2 ⟨built_single (by decide) _ _,
      List.forall_mem_singleton.2 (built_single (by decide) _ _)⟩
  have hrows : [first, second].flatMap weightedRows =
      [⟨(1 : UInt32), (1 : UInt32), weight 0x4b800000⟩, ⟨2, 2, weight 0x40000000⟩] := by
    rw [List.flatMap_cons, List.flatMap_singleton, weightedRows_single (by decide),
      weightedRows_single (by decide)]
    rfl
  obtain ⟨merged, hmerged, -, hids, -, hplaces⟩ :=
    mergeAll_weight_positive_iff hbuilt (List.forall_mem_singleton.2 rfl) ⟨3, 0⟩
  rw [hrows, Attribute.sortBy_of_orderedBy (by decide)] at hids hplaces
  -- the total of the first row is the one before the second
  obtain ⟨start, _, _, hstart, hfirst, -, rfl, -⟩ := hplaces 0 _ rfl
  obtain ⟨before, total, taken, hbefore, -, htaken, rfl, hcounts⟩ := hplaces 1 _ rfl
  obtain rfl : Floating.zero = start := Option.some.inj hstart
  obtain rfl := Option.some.inj (hfirst.symm.trans hbefore)
  exact ⟨hbuilt, rfl, merged, taken, hmerged, hids, htaken,
    (hcounts (by decide)).2 (by decide +kernel)⟩

/-- The same total and a weight of 1, which is half a step. -/
theorem mergeAll_loses_weight :
    let weight (bits : Nat) : Binary32 := .ofBits bits
    let first := single "price" ⟨1, 0⟩ ⟨(1 : UInt32), (1 : UInt32), weight 0x4b800000⟩
    let second := single "price" ⟨2, 0⟩ ⟨(2 : UInt32), (2 : UInt32), weight 0x3f800000⟩
    (∀ part ∈ [first, second], part.Built) ∧ second.name = first.name ∧
      second.weights = [weight 0x3f800000] ∧ Floating.zero.below (weight 0x3f800000) = true ∧
      ∃ merged, first.mergeAll ⟨3, 0⟩ [second] = .ok merged ∧ merged.ids = [1, 2] ∧
        merged.weights = [weight 0x4b800000, .zero] := by
  intro weight first second
  have hrows : first.weightedRows ++ [second].flatMap weightedRows =
      [⟨(1 : UInt32), (1 : UInt32), weight 0x4b800000⟩, ⟨2, 2, weight 0x3f800000⟩] := by
    rw [List.flatMap_singleton, weightedRows_single (by decide), weightedRows_single (by decide)]
    rfl
  have hsecond : second.weights = [weight 0x3f800000] := by
    rw [← weights_weightedRows, weightedRows_single (by decide)]
    rfl
  have hbuilt : ∀ part ∈ [first, second], part.Built :=
    List.forall_mem_cons.2 ⟨built_single (by decide) _ _,
      List.forall_mem_singleton.2 (built_single (by decide) _ _)⟩
  have hname : ∀ other ∈ [second], other.name = first.name := List.forall_mem_singleton.2 rfl
  refine ⟨hbuilt, rfl, hsecond, by decide, _, mergeAll_eq_ok hname ⟨3, 0⟩, ?_, ?_⟩
  · rw [concat, hrows, ids_ofRows, sortByValue_eq, Attribute.sortBy_of_orderedBy (by decide)]
    rfl
  · rw [weights, concat, hrows, totals_ofRows, sortByValue_eq,
      Attribute.sortBy_of_orderedBy (by decide)]
    decide

end WeightedStore.RangeIndex
