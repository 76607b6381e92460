import Mathlib.Data.List.Pairwise
import WeightedStore.Proofs.Index.Records
import WeightedStore.Proofs.Weighted.Totals

/-!
The totals of range indexes. Where only weights come in, totals are numbers, not below zero and in
ascending order, and all of them are finite if the last one is. The weights that are taken back from
finite totals are weights again, so that merging keeps this. But records are read whatever their
weights are, and totals may overflow.
-/

namespace WeightedStore.RangeIndex

variable {ι α : Type}

section Rows

theorem weights_zipRows {ids : List ι} {values : List α} {weights : List Binary32}
    (hids : weights.length ≤ ids.length) (hvalues : weights.length ≤ values.length) :
    (zipRows ids values weights).map (·.weight) = weights := by
  have hinner : (values.zip weights).map Prod.snd = weights := List.map_snd_zip hvalues
  have houter : (ids.zip (values.zip weights)).map Prod.snd = values.zip weights := by
    refine List.map_snd_zip ?_
    rw [List.length_zip]
    omega
  calc (zipRows ids values weights).map (·.weight)
      = ((ids.zip (values.zip weights)).map Prod.snd).map Prod.snd := by
        rw [zipRows, List.map_map, List.map_map]
        rfl
    _ = weights := by rw [houter, hinner]

theorem weight_of_mem_zipRows {ids : List ι} {values : List α} {weights : List Binary32}
    {r : WeightedRow ι α} (h : r ∈ zipRows ids values weights) : r.weight ∈ weights := by
  obtain ⟨⟨id, value, weight⟩, hmem, rfl⟩ := List.mem_map.1 h
  exact (List.of_mem_zip (List.of_mem_zip hmem).2).2

theorem weights_weightedRows (index : RangeIndex ι α) :
    index.weightedRows.map (·.weight) = index.weights :=
  weights_zipRows (by simp [ids, rowCount]) (by simp)

end Rows

def SumsWeights (index : RangeIndex ι α) : Prop :=
  ∃ ws, (∀ w ∈ ws, w.isWeight = true) ∧ index.totals = Running.totals ws

def Bounded (index : RangeIndex ι α) : Prop := ∀ total ∈ index.totals, total.isFinite = true

namespace SumsWeights

variable {index : RangeIndex ι α}

theorem isTotal (h : index.SumsWeights) : ∀ total ∈ index.totals, total.IsTotal := by
  obtain ⟨ws, hws, htotals⟩ := h
  rw [htotals]
  exact (Running.ascending_totalsFrom Running.isAmount_start.isTotal hws).1

theorem ascending (h : index.SumsWeights) :
    index.totals.Pairwise fun s t => s.atMost t = true := by
  obtain ⟨ws, hws, htotals⟩ := h
  obtain ⟨hall, hwords⟩ := Running.ascending_totalsFrom Running.isAmount_start.isTotal hws
  rw [htotals]
  refine (List.pairwise_cons.1 hwords).2.imp_of_mem fun hs ht hle => ?_
  exact ((hall _ hs).atMost_iff (hall _ ht)).2 hle

theorem isWeight (h : index.SumsWeights) (hbounded : index.Bounded) :
    ∀ w ∈ index.weights, w.isWeight = true := by
  obtain ⟨ws, hws, htotals⟩ := h
  rw [Bounded, htotals] at hbounded
  rw [weights, htotals, Running.weights_totals hws]
  exact Running.isWeight_weightsFrom Running.isAmount_start hws hbounded

theorem isWeight_of_isFinite (h : index.SumsWeights) :
    ∀ w ∈ index.weights, w.isFinite = true → w.isWeight = true := by
  obtain ⟨ws, hws, htotals⟩ := h
  rw [weights, htotals, Running.weights_totals hws]
  exact Running.isWeight_of_isFinite Running.isAmount_start hws

theorem bounded_iff (h : index.SumsWeights) :
    index.Bounded ↔ ∀ total, index.totals.getLast? = some total → total.isFinite = true := by
  refine ⟨fun hbounded total hlast => hbounded total (List.mem_of_getLast? hlast), fun hlast => ?_⟩
  intro total htotal
  have hne : index.totals ≠ [] := List.ne_nil_of_mem htotal
  have hfinite := hlast _ (List.getLast?_eq_some_getLast hne)
  have hle : total.word ≤ (index.totals.getLast hne).word := by
    have hlastMem := List.getLast_mem hne
    refine ((h.isTotal _ htotal).atMost_iff (h.isTotal _ hlastMem)).1 ?_
    refine h.ascending.rel_getLast_of_rel_getLast_getLast htotal ?_
    exact ((h.isTotal _ hlastMem).atMost_iff (h.isTotal _ hlastMem)).2 (Nat.le_refl _)
  exact decide_eq_true (Nat.lt_of_le_of_lt hle (of_decide_eq_true hfinite))

end SumsWeights

theorem sumsWeights_empty (name : String) (stamp : Stamp) :
    (empty name stamp : RangeIndex ι α).SumsWeights := ⟨[], nofun, rfl⟩

section Built

variable [Attribute α] {index : RangeIndex ι α}

theorem sumsWeights_ofRows (name : String) (stamp : Stamp) {rows : List (WeightedRow ι α)}
    (h : ∀ r ∈ rows, r.weight.isWeight = true) : (ofRows name stamp rows).SumsWeights := by
  refine ⟨(sortByValue rows).map (·.weight), fun w hw => ?_, totals_ofRows name stamp rows⟩
  obtain ⟨r, hr, rfl⟩ := List.mem_map.1 hw
  exact h r (List.mem_mergeSort.1 hr)

theorem sumsWeights_concat (stamp : Stamp) {others : List (RangeIndex ι α)}
    (h : ∀ part ∈ index :: others, part.SumsWeights ∧ part.Bounded) :
    (index.concat stamp others).SumsWeights := by
  refine sumsWeights_ofRows _ _ fun r hr => ?_
  rw [← List.flatMap_cons] at hr
  obtain ⟨part, hpart, hr⟩ := List.mem_flatMap.1 hr
  obtain ⟨hsums, hbounded⟩ := h part hpart
  exact hsums.isWeight hbounded _ (weight_of_mem_zipRows hr)

def Built (index : RangeIndex ι α) : Prop :=
  ∃ ids values weights, build index.name index.stamp ids values weights = .ok index

theorem Built.exists_rows (h : index.Built) :
    ∃ rows, (∀ r ∈ rows, r.weight.isWeight = true) ∧ index = ofRows index.name index.stamp rows := by
  obtain ⟨ids, values, weights, hbuild⟩ := h
  obtain ⟨-, hweights, heq⟩ := build_eq_ok_iff.1 hbuild
  exact ⟨_, fun r hr => hweights _ (weight_of_mem_zipRows hr), heq⟩

theorem Built.sumsWeights (h : index.Built) : index.SumsWeights := by
  obtain ⟨rows, hrows, heq⟩ := h.exists_rows
  rw [heq]
  exact sumsWeights_ofRows _ _ hrows

theorem Built.ordered (h : index.Built) : Ordered index.values := by
  obtain ⟨rows, -, heq⟩ := h.exists_rows
  rw [heq]
  exact ordered_ofRows _ _ _

end Built

variable [Identifier ι] {t : ValueType}

/-- The range indexes that come about where all records that are read hold weights, and where no total
of what is merged has overflowed. -/
inductive Checked : RangeIndex ι t.Carrier → Prop
  | empty (name : String) (stamp : Stamp) : Checked (.empty name stamp)
  | build {index : RangeIndex ι t.Carrier} : index.Built → Checked index
  | deserialize {name : String} {stamp : Stamp} {bytes : List UInt8}
      {records : List (Record ι t.Carrier)} {index : RangeIndex ι t.Carrier} :
      (∀ r ∈ records, r.WellFormed ∧ ∀ w ∈ r.weights, w.isWeight = true) →
      Encoding.join (records.map Record.encode) = .ok bytes →
      deserialize name stamp bytes = .ok index → Checked index
  | merge {stamp : Stamp} {index other merged : RangeIndex ι t.Carrier} :
      Checked index → index.Bounded → Checked other → other.Bounded →
      index.merge stamp other = .ok merged → Checked merged
  | mergeAll {stamp : Stamp} {index merged : RangeIndex ι t.Carrier}
      {others : List (RangeIndex ι t.Carrier)} :
      Checked index → index.Bounded → (∀ other ∈ others, Checked other) →
      (∀ other ∈ others, other.Bounded) → index.mergeAll stamp others = .ok merged → Checked merged

variable {index : RangeIndex ι t.Carrier}

theorem Checked.sumsWeights (h : index.Checked) : index.SumsWeights := by
  induction h with
  | empty name stamp => exact sumsWeights_empty name stamp
  | build hbuilt => exact hbuilt.sumsWeights
  | @deserialize name stamp bytes records index hrecords hbytes hindex =>
    rw [deserialize_of_records name stamp (fun r hr => (hrecords r hr).1) hbytes] at hindex
    obtain rfl := Except.ok.inj hindex
    refine sumsWeights_ofRows _ _ fun row hrow => ?_
    obtain ⟨r, hr, hrow⟩ := List.mem_flatMap.1 hrow
    exact (hrecords r hr).2 _ (weight_of_mem_zipRows hrow)
  | merge _ hbounded _ hother hmerged ih ihother =>
    rw [eq_concat_of_mergeAll hmerged]
    exact sumsWeights_concat _
      (List.forall_mem_cons.2 ⟨⟨ih, hbounded⟩, List.forall_mem_singleton.2 ⟨ihother, hother⟩⟩)
  | mergeAll _ hbounded _ hothers hmerged ih ihothers =>
    rw [eq_concat_of_mergeAll hmerged]
    exact sumsWeights_concat _ (List.forall_mem_cons.2
      ⟨⟨ih, hbounded⟩, fun other hother => ⟨ihothers other hother, hothers other hother⟩⟩)

/-- Where records hold weights and no total overflows before it is merged, the totals are numbers, none
is below zero or below one before it, and the last tells whether all totals are finite and all weights
that the index reports are such. -/
theorem totals_ascend (h : index.Checked) :
    (∀ total ∈ index.totals, total.isNaN = false ∧ total.below .zero = false) ∧
      index.totals.Pairwise (fun s t => s.atMost t = true) ∧
      ((∀ total, index.totals.getLast? = some total → total.isFinite = true) ↔
        (∀ total ∈ index.totals, total.isFinite = true) ∧ ∀ w ∈ index.weights, w.isWeight = true) := by
  have hsums := h.sumsWeights
  refine ⟨fun total htotal => ?_, hsums.ascending, ?_⟩
  · have htotal := hsums.isTotal total htotal
    exact ⟨htotal.isNaN, htotal.not_below_zero⟩
  · rw [← hsums.bounded_iff]
    exact ⟨fun hbounded => ⟨hbounded, hsums.isWeight hbounded⟩, fun hboth => hboth.1⟩

theorem totals_ascend_merged :
    let weight (bits : Nat) : Binary32 := .ofBits bits
    let bytes : List UInt8 :=
      [1, 0, 0, 0, 7, 0, 0, 0, 1, 0, 0, 0, 3, 0, 0, 0, 1, 0, 0, 0, 0, 0, 128, 63]
    ∃ built stored merged : RangeIndex UInt32 ValueType.uint32.Carrier,
      build "price" ⟨1, 0⟩ [8] [(2 : UInt32)] [weight 0x40000000] = .ok built ∧
      deserialize "price" ⟨2, 0⟩ bytes = .ok stored ∧ built.merge ⟨3, 0⟩ stored = .ok merged ∧
      merged.Checked ∧ built.totals = [weight 0x40000000] ∧ stored.totals = [weight 0x3f800000] ∧
      merged.totals.Pairwise fun s t => s.atMost t = true := by
  intro weight bytes
  let record : Record UInt32 ValueType.uint32.Carrier := ⟨[7], [(3 : UInt32)], [weight 0x3f800000]⟩
  let rows : List (WeightedRow UInt32 ValueType.uint32.Carrier) :=
    [⟨8, (2 : UInt32), weight 0x40000000⟩]
  have hbytes : Encoding.join ([record].map Record.encode) = .ok bytes := by decide +kernel
  have hrecord : ∀ r ∈ [record], r.WellFormed ∧ ∀ w ∈ r.weights, w.isWeight = true :=
    List.forall_mem_singleton.2 ⟨⟨rfl, rfl⟩, List.forall_mem_singleton.2 (by decide)⟩
  have hbuilt : build "price" ⟨1, 0⟩ [8] [(2 : UInt32)] [weight 0x40000000] =
      .ok (ofRows "price" ⟨1, 0⟩ rows) := rfl
  have hstored : deserialize "price" ⟨2, 0⟩ bytes = .ok (ofRows "price" ⟨2, 0⟩ record.rows) :=
    deserialize_of_records "price" ⟨2, 0⟩ (fun r hr => (hrecord r hr).1) hbytes
  have htotals : (ofRows "price" ⟨1, 0⟩ rows).totals = [weight 0x40000000] := by
    have hsorted : (sortByValue rows).map (·.weight) = [weight 0x40000000] := by cbv
    rw [totals_ofRows, hsorted]
    decide
  have htotals' : (ofRows "price" ⟨2, 0⟩ record.rows).totals = [weight 0x3f800000] := by
    have hsorted : (sortByValue record.rows).map (·.weight) = record.weights := by cbv
    rw [totals_ofRows, hsorted]
    decide
  have hname : ∀ other ∈ [ofRows "price" ⟨2, 0⟩ record.rows],
      other.name = (ofRows "price" ⟨1, 0⟩ rows).name := List.forall_mem_singleton.2 rfl
  have hmerged := mergeAll_eq_ok hname ⟨3, 0⟩
  have hbounded : (ofRows "price" ⟨1, 0⟩ rows).Bounded := by
    rw [Bounded, htotals]
    decide
  have hbounded' : (ofRows "price" ⟨2, 0⟩ record.rows).Bounded := by
    rw [Bounded, htotals']
    decide
  have hchecked := Checked.merge (.build ⟨_, _, _, hbuilt⟩) hbounded
    (.deserialize hrecord hbytes hstored) hbounded' hmerged
  obtain ⟨-, hascending, -⟩ := totals_ascend hchecked
  exact ⟨_, _, _, hbuilt, hstored, hmerged, hchecked, htotals, htotals', hascending⟩

/-- A record with the weights 1 and -3. -/
theorem totals_descend_read :
    let weight (bits : Nat) : Binary32 := .ofBits bits
    let bytes : List UInt8 := [2, 0, 0, 0, 1, 0, 0, 0, 2, 0, 0, 0, 2, 0, 0, 0, 1, 0, 0, 0, 2, 0, 0, 0,
      2, 0, 0, 0, 0, 0, 128, 63, 0, 0, 64, 192]
    ∃ index : RangeIndex UInt32 ValueType.uint32.Carrier,
      deserialize "price" ⟨1, 0⟩ bytes = .ok index ∧ index.Reached ∧
      index.totals = [weight 0x3f800000, weight 0xc0000000] ∧
      (¬∀ total ∈ index.totals, total.below .zero = false) ∧
      (¬index.totals.Pairwise fun s t => s.atMost t = true) ∧
      ¬∀ w ∈ index.weights, w.isWeight = true := by
  intro weight bytes
  let record : Record UInt32 ValueType.uint32.Carrier :=
    ⟨[1, 2], [(1 : UInt32), (2 : UInt32)], [weight 0x3f800000, weight 0xc0400000]⟩
  have hbytes : Encoding.join ([record].map Record.encode) = .ok bytes := by decide +kernel
  have hread : deserialize "price" ⟨1, 0⟩ bytes = .ok (ofRows "price" ⟨1, 0⟩ record.rows) :=
    deserialize_of_records "price" ⟨1, 0⟩ (List.forall_mem_singleton.2 ⟨rfl, rfl⟩) hbytes
  have htotals : (ofRows "price" ⟨1, 0⟩ record.rows).totals =
      [weight 0x3f800000, weight 0xc0000000] := by
    have hsorted : (sortByValue record.rows).map (·.weight) = record.weights := by cbv
    rw [totals_ofRows, hsorted]
    decide
  refine ⟨_, hread, .deserialize hread, htotals, ?_, ?_, ?_⟩
  · rw [htotals]
    decide
  · rw [htotals]
    decide
  · rw [weights, htotals]
    decide

end WeightedStore.RangeIndex
