import WeightedStore.Attribute.Keyed
import WeightedStore.Index.Error
import WeightedStore.Index.Steps
import WeightedStore.Query.Condition
import WeightedStore.Selection.Basic

/-!
Hash indexes: a bucket of weighted ids for each value, kept in the order of the values. Buckets of
one value that come from different parts are merged, the part that came first deciding the weight
of an id.
-/

namespace WeightedStore

structure HashIndex (ι α : Type) where
  name : String
  buckets : List (α × Pool ι)

namespace HashIndex

variable {ι α : Type} [Identifier ι] [Attribute α]

def empty (name : String) : HashIndex ι α := ⟨name, []⟩

def get? (index : HashIndex ι α) (value : α) : Option (Pool ι) := Keyed.get? value index.buckets

def put (index : HashIndex ι α) (value : α) (bucket : Pool ι) : HashIndex ι α :=
  { index with buckets := Keyed.put value bucket index.buckets }

def firsts : List (ι × Binary32) → List (ι × Binary32)
  | [] => []
  | p :: rest => match firsts rest with
    | [] => [p]
    | q :: others => if p.1 = q.1 then p :: others else p :: q :: others

def byId (pairs : List (ι × Binary32)) : List (ι × Binary32) :=
  firsts (pairs.mergeSort fun a b => Attribute.atMost a.1 b.1)

def mergeBuckets (left right : Pool ι) : Except DataFault (Pool ι) :=
  Pool.ofPairs (byId (left.pairs ++ right.pairs))

/-- Takes a bucket in: as it is if its value is new, else merged into the bucket that is there. -/
def absorb (index : HashIndex ι α) : α × Pool ι → HashIndex ι α × Option DataFault
  | (value, bucket) => match index.get? value with
    | none => (index.put value bucket, none)
    | some present => match mergeBuckets present bucket with
      | .ok merged => (index.put value merged, none)
      | .error fault => (index, some fault)

def absorbAll (index : HashIndex ι α) (buckets : List (α × Pool ι)) :
    HashIndex ι α × Option DataFault := Steps.run absorb index buckets

def add (index : HashIndex ι α) (value : α) (ids : List ι) (weights : List Binary32) :
    Except StoreError (HashIndex ι α) :=
  if (index.get? value).isSome then .error (.duplicateKey index.name (Attribute.text value))
  else match Pool.ofColumns ids weights with
    | .error fault => .error (.badBucket index.name fault)
    | .ok bucket => .ok (index.put value bucket)

/-- Adds the bucket of a value. One that is refused leaves the index as it was. -/
def addInto (index : HashIndex ι α) (value : α) (ids : List ι) (weights : List Binary32) :
    HashIndex ι α × Option StoreError :=
  if (index.get? value).isSome then (index, some (.duplicateKey index.name (Attribute.text value)))
  else match Pool.ofColumns ids weights with
    | .error fault => (index, some (.badBucket index.name fault))
    | .ok bucket => (index.put value bucket, none)

omit [Identifier ι] in
theorem outcome_addInto (index : HashIndex ι α) (value : α) (ids : List ι) (weights : List Binary32) :
    Steps.outcome (index.addInto value ids weights) = index.add value ids weights := by
  unfold addInto add
  split
  · rfl
  · cases Pool.ofColumns ids weights <;> rfl

def mergeInto (index other : HashIndex ι α) : HashIndex ι α × Option StoreError :=
  if index.name ≠ other.name then
    (index, some (.mergeMismatch .hash index.name .hash other.name))
  else match index.absorbAll other.buckets with
    | (merged, fault?) => (merged, fault?.map (.corrupt index.name))

def merge (index other : HashIndex ι α) : Except StoreError (HashIndex ι α) :=
  Steps.outcome (index.mergeInto other)

def bucketOf (pool : Pool ι) : Bucket :=
  ⟨pool.pairs.map fun (id, w) => (Identifier.wide id, w), pool.total⟩

def select (index : HashIndex ι α) (p : α → Bool) : Selection :=
  .buckets <| .ofBuckets index.name <|
    (index.buckets.filter fun (v, _) => p v).map fun (v, pool) => (Attribute.label v, bucketOf pool)

/-- Evaluates a condition on equality; a hash index keeps no order to search by. -/
def search (index : HashIndex ι α) (op : Operator) (operand : String) :
    Except StoreError Selection :=
  if op.asksOrder then .error (.unsupported index.name .hash (.search op))
  else match (Condition.read op operand : Except String (Condition α)) with
    | .error text => .error (.invalidValue index.name text (Attribute.type α))
    | .ok condition => .ok (index.select condition.holds)

def searchAll (index : HashIndex ι α) : Selection := index.select fun _ => true

def keys (index : HashIndex ι α) : List String :=
  index.buckets.map fun (v, _) => Attribute.label v

def rowCount (index : HashIndex ι α) : Nat :=
  (index.buckets.flatMap fun (_, bucket) => bucket.items).length

def encodeBucket (value : α) (bucket : Pool ι) : Encoding :=
  .join [Attribute.encode value, Identifier.encodeColumn bucket.items,
    Bytes.encodeScalars .binary32 bucket.weights]

def serialize (index : HashIndex ι α) : Except StoreError (List UInt8) :=
  (Encoding.join (index.buckets.map fun (v, b) => encodeBucket v b)).mapError (.corrupt index.name)

def encodedSize (value : α) (bucket : Pool ι) : Nat :=
  Attribute.size value + Identifier.columnSize ι bucket.length +
    Bytes.columnSize .binary32 bucket.length

def serializedSize (index : HashIndex ι α) : Nat :=
  index.buckets.foldr (fun (v, b) size => encodedSize v b + size) 0

def bucketDecoder : Decoder (α × Pool ι) := do
  let value ← Attribute.decoder
  let ids ← Identifier.columnDecoder
  let weights ← Decoder.scalars .binary32
  match Pool.ofColumns ids weights with
  | .ok bucket => return (value, bucket)
  | .error fault => throw fault

/-- The index of the records that bytes hold. A bucket that is refused goes before a fault behind
it. -/
def deserialize (name : String) (bytes : List UInt8) : Except StoreError (HashIndex ι α) := do
  let (records, fault?) := Decoder.records bucketDecoder bytes
  let index ← (Steps.outcome ((empty name).absorbAll records)).mapError (.corrupt name)
  match fault? with
  | some fault => .error (.corrupt name fault)
  | none => return index

end HashIndex

end WeightedStore
