import WeightedStore.Proofs.Attribute.Labels
import WeightedStore.Proofs.Attribute.StableSort
import WeightedStore.Proofs.Index.HashOrder
import WeightedStore.Proofs.Query.Operands
import WeightedStore.Proofs.Selection.Labels

/-!
What a hash index finds. Labels tell values apart, so that no bucket of a selection takes another's
place and it does not matter in which order they are put: a selection holds the buckets whose value
satisfies the condition, in the order of their labels, with all that is in them.
-/

namespace WeightedStore.HashIndex

variable {ι α : Type}

def bucketsWhere (index : HashIndex ι α) (p : α → Bool) : List (α × Pool ι) :=
  index.buckets.filter fun e => p e.1

theorem rowCount_eq (index : HashIndex ι α) :
    index.rowCount = ((index.bucketsWhere fun _ => true).map fun e => e.2.length).sum := by
  have hall : (index.bucketsWhere fun _ => true) = index.buckets := List.filter_true _
  rw [rowCount, hall, List.length_flatMap]
  rfl

variable [Attribute α]

def byLabel (index : HashIndex ι α) (p : α → Bool) : List (α × Pool ι) :=
  Attribute.sortBy (fun e => Attribute.label e.1) (index.bucketsWhere p)

theorem perm_byLabel (index : HashIndex ι α) (p : α → Bool) :
    (index.byLabel p).Perm (index.bucketsWhere p) := List.mergeSort_perm _ _

variable [Identifier ι]

def labelled (e : α × Pool ι) : String × Bucket := (Attribute.label e.1, bucketOf e.2)

def chosen (index : HashIndex ι α) (p : α → Bool) : BucketSelection :=
  .ofBuckets index.name ((index.bucketsWhere p).map labelled)

theorem select_eq (index : HashIndex ι α) (p : α → Bool) :
    index.select p = .buckets (index.chosen p) := rfl

/-- What it is for a selection to hold the buckets whose value satisfies `p`, with all their pairs,
in whichever order they are put there. -/
structure Finds (index : HashIndex ι α) (p : α → Bool) (found : BucketSelection) : Prop where
  name : found.name = index.name
  buckets : found.buckets = (index.byLabel p).map labelled
  inOrder : BucketSelection.InOrder found.buckets
  anyOrder : ∀ bs : List (α × Pool ι), bs.Perm (index.bucketsWhere p) →
    .ofBuckets index.name (bs.map labelled) = found
  entries : found.entries =
    (index.byLabel p).flatMap fun e => e.2.pairs.map fun (id, w) => (Identifier.wide id, w)
  length : (Selection.buckets found).length =
    ((index.bucketsWhere p).map fun e => e.2.length).sum

theorem length_bucketOf {bucket : Pool ι} (h : Pooled bucket) :
    (bucketOf bucket).entries.length = bucket.length := by
  have hitems : bucket.items = bucket.pairs.map Prod.fst := by
    rw [h, Pool.items_ofWeighted, Pool.pairs_ofWeighted]
  rw [Pool.length, hitems, List.length_map]
  exact List.length_map _

section Labels

variable {t : ValueType} {index : HashIndex ι t.Carrier} (p : t.Carrier → Bool)

theorem nodup_labels (hi : index.WellFormed) :
    (((index.bucketsWhere p).map labelled).map Prod.fst).Nodup := by
  have hvalues : ((index.bucketsWhere p).map Prod.fst).Nodup :=
    hi.nodup.sublist (List.filter_sublist.map _)
  have hlabels := hvalues.map (Attribute.label_injective t)
  rw [List.map_map] at hlabels ⊢
  exact hlabels

theorem perm_chosen (hi : index.WellFormed) :
    (index.chosen p).buckets.Perm ((index.bucketsWhere p).map labelled) :=
  BucketSelection.perm_ofBuckets _ (nodup_labels p hi)

theorem inOrder_chosen : BucketSelection.InOrder (index.chosen p).buckets :=
  BucketSelection.inOrder_ofBuckets _ _

theorem inOrder_byLabel (hi : index.WellFormed) :
    BucketSelection.InOrder ((index.byLabel p).map labelled) := by
  have hnodup : ((index.byLabel p).map fun e => Attribute.label e.1).Nodup := by
    have h := nodup_labels p hi
    rw [List.map_map] at h
    exact (((index.perm_byLabel p).map _).nodup_iff).2 h
  have hordered : Attribute.OrderedBy (fun e => Attribute.label e.1) (index.byLabel p) :=
    Attribute.orderedBy_sortBy _ _
  have hsorted : (index.byLabel p).Pairwise fun a b => Attribute.label a.1 ≤ Attribute.label b.1 :=
    hordered.imp fun h => of_decide_eq_true h
  refine List.pairwise_map.2 (hsorted.imp₂ (fun a b hle hne => ?_) (List.pairwise_map.1 hnodup))
  exact Decidable.byContradiction fun hlt => hne (String.le_antisymm hle (String.not_lt.1 hlt))

theorem ofBuckets_eq_chosen (hi : index.WellFormed) {bs : List (t.Carrier × Pool ι)}
    (h : bs.Perm (index.bucketsWhere p)) : .ofBuckets index.name (bs.map labelled) = index.chosen p := by
  have hlabels : ((bs.map labelled).map Prod.fst).Nodup :=
    (((h.map labelled).map Prod.fst).nodup_iff).2 (nodup_labels p hi)
  have hperm := (BucketSelection.perm_ofBuckets index.name hlabels).trans
    ((h.map labelled).trans (perm_chosen p hi).symm)
  have hbuckets := (BucketSelection.inOrder_ofBuckets _ _).eq_of_perm (inOrder_chosen p) hperm
  exact congrArg (BucketSelection.mk index.name) hbuckets

theorem buckets_chosen (hi : index.WellFormed) :
    (index.chosen p).buckets = (index.byLabel p).map labelled :=
  (inOrder_chosen p).eq_of_perm (inOrder_byLabel p hi)
    ((perm_chosen p hi).trans ((index.perm_byLabel p).map _).symm)

theorem entries_chosen (hi : index.WellFormed) :
    (index.chosen p).entries = (index.byLabel p).flatMap fun e => (bucketOf e.2).entries := by
  rw [BucketSelection.entries, buckets_chosen p hi, List.flatMap_map]
  rfl

theorem length_chosen (hi : index.WellFormed) : (Selection.buckets (index.chosen p)).length =
    ((index.bucketsWhere p).map fun e => e.2.length).sum := by
  have hlength : ∀ e ∈ index.byLabel p, (bucketOf e.2).entries.length = e.2.length := fun e he =>
    length_bucketOf (hi.pooled e (List.mem_filter.1 ((index.perm_byLabel p).mem_iff.1 he)).1)
  rw [Selection.length, entries_chosen p hi, List.length_flatMap, List.map_congr_left hlength]
  exact ((index.perm_byLabel p).map _).sum_nat

theorem finds_chosen (hi : index.WellFormed) : index.Finds p (index.chosen p) where
  name := rfl
  buckets := buckets_chosen p hi
  inOrder := inOrder_chosen p
  anyOrder _ := ofBuckets_eq_chosen p hi
  entries := entries_chosen p hi
  length := length_chosen p hi

end Labels

section Search

variable {index : HashIndex ι α} {op : Operator} {operand : String}

theorem search_eq_error_iff_of_equality (hop : op.asksOrder = false) {e : StoreError} :
    index.search op operand = .error e ↔
      ∃ text, (op.texts operand).find? (fun text => !Attribute.reads α text) = some text ∧
        e = .invalidValue index.name text (Attribute.type α) := by
  simp only [← Condition.read_eq_error_iff]
  rw [search, hop, if_neg Bool.false_ne_true]
  cases (Condition.read op operand : Except String (Condition α)) <;> simp [eq_comm]

theorem search_eq_chosen (hop : op.asksOrder = false) {vs : List α}
    (h : (op.texts operand).mapM Attribute.read? = some vs) :
    index.search op operand = .ok (.buckets (index.chosen (op.admits vs))) := by
  obtain ⟨condition, hread, hholds⟩ := Condition.read_of_mapM h
  rw [search, hop, if_neg Bool.false_ne_true, hread, ← funext hholds]
  rfl

end Search

/-- A hash index refuses every search by order. Any other search it refuses for the first text of
the operand that stands for no value, and otherwise it finds the buckets whose value the operator
admits; without a condition it finds all of them. -/
theorem search_finds {t : ValueType} {index : HashIndex ι t.Carrier} (hi : index.Reached)
    (op : Operator) (operand : String) :
    (op.asksOrder = true →
      index.search op operand = .error (.unsupported index.name .hash (.search op))) ∧
    (op.asksOrder = false →
      (∀ e, index.search op operand = .error e ↔
        ∃ text, (op.texts operand).find? (fun text => !Attribute.reads t.Carrier text) = some text ∧
          e = .invalidValue index.name text (Attribute.type t.Carrier)) ∧
      ((∀ text ∈ op.texts operand, Attribute.reads t.Carrier text = true) →
        ∃ (vs : List t.Carrier) (found : BucketSelection),
          (op.texts operand).mapM Attribute.read? = some vs ∧
          index.search op operand = .ok (.buckets found) ∧
          index.Finds (op.admits vs) found)) ∧
    ∃ all : BucketSelection, index.searchAll = .buckets all ∧
      index.Finds (fun _ => true) all ∧ (Selection.buckets all).length = index.rowCount := by
  have hfinds (p : t.Carrier → Bool) := finds_chosen p hi.wellFormed
  refine ⟨fun hop => if_pos hop, fun hop => ⟨fun e => search_eq_error_iff_of_equality hop,
    fun hreads => ?_⟩, index.chosen fun _ => true, rfl, hfinds _, ?_⟩
  · obtain ⟨vs, hvs⟩ := Operator.exists_mapM_of_reads hreads
    exact ⟨vs, index.chosen (op.admits vs), hvs, search_eq_chosen hop hvs, hfinds _⟩
  · rw [rowCount_eq]
    exact (hfinds _).length

theorem search_finds_by_label :
    let index : HashIndex UInt32 UInt32 := ⟨"size",
      [(9, .ofWeighted [(1, .zero)]), (10, .ofWeighted [(2, .zero), (1, .zero)])]⟩
    index.Reached ∧ ∃ found : BucketSelection,
      index.search .notEqual "7" = .ok (.buckets found) ∧ found.labels = ["10", "9"] ∧
        found.entries.map Prod.fst = [2, 1, 1] ∧ (Selection.buckets found).length = 3 := by
  intro index
  let first : HashIndex UInt32 UInt32 := ⟨"size", [(10, .ofWeighted [(2, .zero), (1, .zero)])]⟩
  have hfirst : (empty "size").add 10 [2, 1] [.zero, .zero] = .ok first := rfl
  have hsecond : first.add 9 [1] [.zero] = .ok index := rfl
  have hi : index.Reached := .add (.add (.empty "size") hfirst) hsecond
  have hreads : ∀ text ∈ Operator.notEqual.texts "7", Attribute.reads UInt32 text = true := by
    decide
  obtain ⟨vs, found, hvs, hfound, hfinds⟩ :=
    ((search_finds (t := .uint32) hi .notEqual "7").2.1 rfl).2 hreads
  have hread : (Operator.notEqual.texts "7").mapM Attribute.read? = some [(7 : UInt32)] := by cbv
  obtain rfl := Option.some.inj (hvs.symm.trans hread)
  refine ⟨hi, found, hfound, ?_, ?_, ?_⟩
  · rw [BucketSelection.labels, hfinds.buckets]
    cbv
  · rw [hfinds.entries]
    cbv
  · rw [hfinds.length]
    cbv

end WeightedStore.HashIndex
