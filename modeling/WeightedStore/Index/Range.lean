import WeightedStore.Index.Error
import WeightedStore.Query.Condition
import WeightedStore.Selection.Basic

/-!
Range indexes: rows in the order of their values, with running totals of the weights. A condition
on the order of values selects an interval of rows, found by halving; the others are put together
from such intervals.
-/

namespace WeightedStore

structure WeightedRow (ι α : Type) where
  id : ι
  value : α
  weight : Binary32

structure RangeRow (ι α : Type) where
  id : ι
  value : α
  total : Binary32

structure RangeIndex (ι α : Type) where
  name : String
  stamp : Stamp
  rows : List (RangeRow ι α)

namespace RangeIndex

variable {ι α : Type}

def empty (name : String) (stamp : Stamp) : RangeIndex ι α := ⟨name, stamp, []⟩

def accumulate (rows : List (WeightedRow ι α)) : List (RangeRow ι α) :=
  (rows.zip (Running.totals (rows.map (·.weight)))).map fun (r, total) => ⟨r.id, r.value, total⟩

theorem map_accumulate {β : Type} (f : RangeRow ι α → β) (g : WeightedRow ι α → β)
    (h : ∀ r total, f ⟨r.id, r.value, total⟩ = g r) (rows : List (WeightedRow ι α)) :
    (accumulate rows).map f = rows.map g := by
  have hz : (rows.zip (Running.totals (rows.map (·.weight)))).map Prod.fst = rows :=
    List.map_fst_zip (by simp)
  simp only [accumulate, List.map_map, Function.comp_def, h]
  rw [← congrArg (List.map g) hz, List.map_map]
  rfl

variable [Attribute α]

def sortByValue (rows : List (WeightedRow ι α)) : List (WeightedRow ι α) :=
  rows.mergeSort fun a b => Attribute.atMost a.value b.value

def ofRows (name : String) (stamp : Stamp) (rows : List (WeightedRow ι α)) : RangeIndex ι α :=
  ⟨name, stamp, accumulate (sortByValue rows)⟩

def zipRows (ids : List ι) (values : List α) (weights : List Binary32) : List (WeightedRow ι α) :=
  (ids.zip (values.zip weights)).map fun (id, value, weight) => ⟨id, value, weight⟩

def build (name : String) (stamp : Stamp) (ids : List ι) (values : List α)
    (weights : List Binary32) : Except StoreError (RangeIndex ι α) :=
  if ids.length ≠ values.length ∨ ids.length ≠ weights.length then
    .error (.unequalColumns name ids.length values.length weights.length)
  else match weights.find? fun w => !w.isWeight with
    | some w => .error (.badWeight name w)
    | none => .ok (ofRows name stamp (zipRows ids values weights))

def ids (index : RangeIndex ι α) : List ι := index.rows.map (·.id)

def values (index : RangeIndex ι α) : List α := index.rows.map (·.value)

def totals (index : RangeIndex ι α) : List Binary32 := index.rows.map (·.total)

def weights (index : RangeIndex ι α) : List Binary32 := Running.weights index.totals

def rowCount (index : RangeIndex ι α) : Nat := index.rows.length

@[simp] theorem ids_ofRows (name : String) (stamp : Stamp) (rows : List (WeightedRow ι α)) :
    (ofRows name stamp rows).ids = (sortByValue rows).map (·.id) :=
  map_accumulate _ _ (fun _ _ => rfl) _

@[simp] theorem values_ofRows (name : String) (stamp : Stamp) (rows : List (WeightedRow ι α)) :
    (ofRows name stamp rows).values = (sortByValue rows).map (·.value) :=
  map_accumulate _ _ (fun _ _ => rfl) _

@[simp] theorem totals_ofRows (name : String) (stamp : Stamp) (rows : List (WeightedRow ι α)) :
    (ofRows name stamp rows).totals = Running.totals ((sortByValue rows).map (·.weight)) := by
  have hz : ((sortByValue rows).zip (Running.totals ((sortByValue rows).map (·.weight)))).map
      Prod.snd = Running.totals ((sortByValue rows).map (·.weight)) :=
    List.map_snd_zip (by simp)
  simp only [totals, ofRows, accumulate, List.map_map, Function.comp_def]
  exact hz

theorem pairwise_sortByValue (rows : List (WeightedRow ι α)) :
    (sortByValue rows).Pairwise fun a b => Attribute.atMost a.value b.value = true :=
  List.pairwise_mergeSort (fun a b c => Attribute.atMost_trans a.value b.value c.value)
    (fun a b => Attribute.atMost_total a.value b.value) rows

def weightedRows (index : RangeIndex ι α) : List (WeightedRow ι α) :=
  zipRows index.ids index.values index.weights

/-- One index out of the rows of several, in their order, under the name of the first. -/
def concat (stamp : Stamp) (index : RangeIndex ι α) (others : List (RangeIndex ι α)) :
    RangeIndex ι α :=
  ofRows index.name stamp (index.weightedRows ++ others.flatMap weightedRows)

def mergeAll (stamp : Stamp) (index : RangeIndex ι α) (others : List (RangeIndex ι α)) :
    Except StoreError (RangeIndex ι α) :=
  match others.find? fun other => index.name ≠ other.name with
  | some other => .error (.mergeMismatch .range index.name .range other.name)
  | none => .ok (index.concat stamp others)

def merge (stamp : Stamp) (index other : RangeIndex ι α) : Except StoreError (RangeIndex ι α) :=
  index.mergeAll stamp [other]

def lowerBound (values : List α) (v : α) : Nat := Bisect.point (Attribute.before · v) values

def upperBound (values : List α) (v : α) : Nat := Bisect.point (Attribute.atMost · v) values

def equalSpan (values : List α) (v : α) : Spans :=
  Spans.proper [⟨lowerBound values v, upperBound values v⟩]

def differentSpans (values : List α) (v : α) : Spans :=
  Spans.proper [⟨0, lowerBound values v⟩, ⟨upperBound values v, values.length⟩]

def locate (values : List α) : Condition α → Spans
  | .less v => Spans.proper [⟨0, lowerBound values v⟩]
  | .atMost v => Spans.proper [⟨0, upperBound values v⟩]
  | .greater v => Spans.proper [⟨upperBound values v, values.length⟩]
  | .atLeast v => Spans.proper [⟨lowerBound values v, values.length⟩]
  | .equal v => equalSpan values v
  | .different v => differentSpans values v
  | .among vs => vs.foldl (fun found v => Spans.union found (equalSpan values v)) []
  | .outside vs =>
    vs.foldl (fun found v => Spans.intersection found (differentSpans values v))
      (Spans.proper [⟨0, values.length⟩])

variable [Identifier ι]

def backing (index : RangeIndex ι α) : Backing :=
  ⟨index.stamp, index.rows.map fun r => (Identifier.wide r.id, r.total)⟩

def cut (index : RangeIndex ι α) (spans : Spans) : Selection :=
  .cut (.of index.name index.backing spans)

def search (index : RangeIndex ι α) (op : Operator) (operand : String) :
    Except StoreError Selection :=
  match (Condition.read op operand : Except String (Condition α)) with
  | .error text => .error (.invalidValue index.name text (Attribute.type α))
  | .ok condition => .ok (index.cut (locate index.values condition))

def searchAll (index : RangeIndex ι α) : Selection := index.cut [⟨0, index.rowCount⟩]

def encode (index : RangeIndex ι α) : Encoding :=
  .join [Identifier.encodeColumn index.ids, Attribute.encodeColumn index.values,
    Bytes.encodeScalars .binary32 index.weights]

def serialize (index : RangeIndex ι α) : Except StoreError (List UInt8) :=
  index.encode.mapError (.corrupt index.name)

def encodedSize (index : RangeIndex ι α) : Nat :=
  Identifier.columnSize ι index.rowCount + Attribute.columnSize index.values +
    Bytes.columnSize .binary32 index.rowCount

/-- Reads the rows of one record. Weights are taken as they are. -/
def rowsDecoder : Decoder (List (WeightedRow ι α)) := do
  let ids ← Identifier.columnDecoder
  let values ← Attribute.columnDecoder
  let weights ← Decoder.scalars .binary32
  if ids.length ≠ values.length ∨ ids.length ≠ weights.length then
    throw (.unequalColumns ids.length (max values.length weights.length))
  return zipRows ids values weights

def deserialize (name : String) (stamp : Stamp) (bytes : List UInt8) :
    Except StoreError (RangeIndex ι α) :=
  match Decoder.allRecords rowsDecoder bytes with
  | .error fault => .error (.corrupt name fault)
  | .ok records => .ok (ofRows name stamp records.flatten)

end RangeIndex

end WeightedStore
