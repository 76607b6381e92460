import WeightedStore.Bytes.Field
import WeightedStore.Neighborhood.Columns
import WeightedStore.Node.Features

/-!
Node records: a node with its neighborhoods in both directions and its features, and the bytes of
the record.
-/

namespace WeightedStore

inductive Direction
  | outgoing
  | incoming
  deriving DecidableEq, Repr

def Direction.name : Direction → String
  | outgoing => "out"
  | incoming => "in"

structure Node where
  id : UInt64
  type : Int32
  weight : Binary32
  outgoing : Neighborhood := .empty
  incoming : Neighborhood := .empty
  features : Features := .empty
  deriving DecidableEq

abbrev RecordDecoder := EStateM NodeError Cursor

namespace RecordDecoder

def field {α : Type} (node : Option UInt64) (name : RecordField) (d : Decoder α) :
    RecordDecoder α := fun c =>
  match d c with
  | .ok x c' => .ok x c'
  | .error fault c' => .error (.corrupt node name fault) c'

def consistent {α : Type} (node : UInt64) : Except Inconsistency α → RecordDecoder α
  | .ok x => return x
  | .error cause => throw (.inconsistent node cause)

end RecordDecoder

namespace Neighborhood

namespace Columns

def encode (c : Columns) : Encoding :=
  .join [Bytes.encodeScalars .int32 c.ids, Bytes.encodeScalars .binary32 c.weights,
    Bytes.encodeScalars .uint32 c.ends, Bytes.encodeScalars .uint64 c.neighbors,
    Bytes.encodeScalars .binary32 c.totals]

open RecordDecoder in
def decoder (node : UInt64) : RecordDecoder Columns := do
  let ids ← field node .groupIds (Decoder.scalars .int32)
  let weights ← field node .groupWeights (Decoder.scalars .binary32)
  let ends ← field node .groupEnds (Decoder.scalars .uint32)
  let neighbors ← field node .neighbors (Decoder.scalars .uint64)
  let totals ← field node .cumulativeWeights (Decoder.scalars .binary32)
  return { ids, weights, ends, neighbors, totals }

end Columns

def encode (a : Neighborhood) : Encoding := a.columns.encode

def encodedSize (a : Neighborhood) : Nat :=
  Bytes.columnSize .int32 a.groupCount + Bytes.columnSize .binary32 a.groupCount +
    Bytes.columnSize .uint32 a.groupCount + Bytes.columnSize .uint64 a.neighborCount +
    Bytes.columnSize .binary32 a.neighborCount

open RecordDecoder in
def decoder (node : UInt64) : RecordDecoder Neighborhood := do
  let c ← Columns.decoder node
  match Pool.ofColumns c.ids c.weights with
  | .error fault => throw (.corrupt node .groupWeights fault)
  | .ok _ => consistent node (ofColumns c c.pool)

end Neighborhood

structure StoredColumn (α : Type) where
  offsets : List Int32
  values : List α
  deriving DecidableEq

namespace StoredColumn

variable {α : Type}

def encode (c : StoredColumn α) (encodeValues : List α → Encoding) : Encoding :=
  .join [Bytes.encodeScalars .int32 c.offsets, encodeValues c.values]

open RecordDecoder in
def decoder (node : UInt64) (offsetsField valuesField : RecordField) (d : Decoder (List α)) :
    RecordDecoder (StoredColumn α) := do
  let offsets ← field node offsetsField (Decoder.scalars .int32)
  let values ← field node valuesField d
  return { offsets, values }

def read (c : StoredColumn α) : Except Inconsistency (FeatureColumn α) :=
  FeatureColumn.ofParts (c.offsets.map Int32.toInt) c.values

end StoredColumn

def FeatureColumn.stored {α : Type} (c : FeatureColumn α) : StoredColumn α :=
  ⟨c.offsets.map Int32.ofNat, c.values⟩

namespace Features

def encode (f : Features) : Encoding :=
  .join [f.integers.stored.encode (Bytes.encodeScalars .uint64),
    f.floats.stored.encode (Bytes.encodeScalars .binary32),
    f.binaries.stored.encode Bytes.encodeBlob]

def encodedSize (f : Features) : Nat :=
  Bytes.columnSize .int32 f.integers.count + Bytes.columnSize .uint64 f.integers.values.length +
    Bytes.columnSize .int32 f.floats.count + Bytes.columnSize .binary32 f.floats.values.length +
    Bytes.columnSize .int32 f.binaries.count + Bytes.blobSize f.binaries.values.length

open RecordDecoder in
def decoder (node : UInt64) : RecordDecoder Features := do
  let integers ← StoredColumn.decoder node .integerOffsets .integerValues (Decoder.scalars .uint64)
  let floats ← StoredColumn.decoder node .floatOffsets .floatValues (Decoder.scalars .binary32)
  let binaries ← StoredColumn.decoder node .binaryOffsets .binaryValues Decoder.blob
  return {
    integers := ← consistent node integers.read
    floats := ← consistent node floats.read
    binaries := ← consistent node binaries.read }

end Features

namespace Node

def neighborhood (n : Node) : Direction → Neighborhood
  | .outgoing => n.outgoing
  | .incoming => n.incoming

def encodeHeader (n : Node) : List UInt8 :=
  Scalar.uint64.encode n.id ++ Scalar.int32.encode n.type ++ Scalar.binary32.encode n.weight

def encode (n : Node) : Except NodeError (List UInt8) :=
  (Encoding.join [.ok n.encodeHeader, n.outgoing.encode, n.incoming.encode, n.features.encode]).mapError
    (.corrupt (some n.id) .record)

def encodedSize (n : Node) : Nat :=
  Scalar.uint64.width + Scalar.int32.width + Scalar.binary32.width +
    n.outgoing.encodedSize + n.incoming.encodedSize + n.features.encodedSize

open RecordDecoder in
def decoder : RecordDecoder Node := do
  let id : UInt64 ← field none .header (Decoder.scalar .uint64)
  let type ← field none .header (Decoder.scalar .int32)
  let weight ← field none .header (Decoder.scalar .binary32)
  let outgoing ← Neighborhood.decoder id
  let incoming ← Neighborhood.decoder id
  let features ← Features.decoder id
  return { id, type, weight, outgoing, incoming, features }

def decode (bytes : List UInt8) : Except NodeError Node :=
  match decoder (.start bytes) with
  | .error e _ => .error e
  | .ok node c =>
    if c.atEnd then .ok node else .error (.inconsistent node.id (.trailingBytes c.remaining))

def decodeMany : Nat → Cursor → List (Except NodeError Node × Nat)
  | 0, _ => []
  | fuel + 1, c =>
    if c.atEnd then []
    else match decoder c with
      | .ok node c' => (.ok node, c'.position) :: decodeMany fuel c'
      | .error e c' => [(.error e, c'.position)]

def decodeStream (bytes : List UInt8) : List (Except NodeError Node × Nat) :=
  decodeMany bytes.length (.start bytes)

end Node

end WeightedStore
