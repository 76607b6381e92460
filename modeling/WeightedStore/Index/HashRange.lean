import WeightedStore.Attribute.Keyed
import WeightedStore.Index.Range
import WeightedStore.Index.Steps

/-!
Hash-range indexes: a range index for each key, in the order of the keys. A query names the key
before the first double colon and asks that key's index the rest.
-/

namespace WeightedStore

structure HashRangeIndex (ι α : Type) where
  name : String
  ranges : List (ι × RangeIndex ι α)

namespace HashRangeIndex

variable {ι α : Type} [Identifier ι] [Attribute α]

def empty (name : String) : HashRangeIndex ι α := ⟨name, []⟩

def rangeName (name : String) (key : ι) : String := s!"{name}_{Attribute.text key}"

def stampOf (operation : Nat) (key : ι) : Stamp := ⟨operation, (Identifier.wide key).toNat + 1⟩

def get? (index : HashRangeIndex ι α) (key : ι) : Option (RangeIndex ι α) :=
  Keyed.get? key index.ranges

def put (index : HashRangeIndex ι α) (key : ι) (range : RangeIndex ι α) : HashRangeIndex ι α :=
  { index with ranges := Keyed.put key range index.ranges }

def insert (index : HashRangeIndex ι α) (key : ι) (range : RangeIndex ι α) :
    Except StoreError (HashRangeIndex ι α) :=
  if (index.get? key).isSome then .error (.duplicateKey index.name (Attribute.text key))
  else .ok (index.put key range)

def add (operation : Nat) (index : HashRangeIndex ι α) (key : ι) (ids : List ι) (values : List α)
    (weights : List Binary32) : Except StoreError (HashRangeIndex ι α) :=
  if (index.get? key).isSome then .error (.duplicateKey index.name (Attribute.text key))
  else do
    let name := rangeName index.name key
    index.insert key (← RangeIndex.build name (stampOf operation key) ids values weights)

/-- Adds the rows of a key. Such that are refused leave the index as it was. -/
def addInto (operation : Nat) (index : HashRangeIndex ι α) (key : ι) (ids : List ι) (values : List α)
    (weights : List Binary32) : HashRangeIndex ι α × Option StoreError :=
  if (index.get? key).isSome then (index, some (.duplicateKey index.name (Attribute.text key)))
  else match RangeIndex.build (rangeName index.name key) (stampOf operation key) ids values weights with
    | .error e => (index, some e)
    | .ok range => (index.put key range, none)

theorem outcome_addInto (operation : Nat) (index : HashRangeIndex ι α) (key : ι) (ids : List ι)
    (values : List α) (weights : List Binary32) :
    Steps.outcome (addInto operation index key ids values weights) =
      add operation index key ids values weights := by
  unfold addInto add insert
  split
  · rfl
  · dsimp only
    cases RangeIndex.build (rangeName index.name key) (stampOf operation key) ids values weights <;> rfl

def absorb (operation : Nat) (index : HashRangeIndex ι α) :
    ι × RangeIndex ι α → HashRangeIndex ι α × Option StoreError
  | (key, range) => match index.get? key with
    | none => (index.put key range, none)
    | some present => match present.merge (stampOf operation key) range with
      | .ok merged => (index.put key merged, none)
      | .error e => (index, some e)

def mergeInto (operation : Nat) (index other : HashRangeIndex ι α) :
    HashRangeIndex ι α × Option StoreError :=
  if index.name ≠ other.name then
    (index, some (.mergeMismatch .hashRange index.name .hashRange other.name))
  else Steps.run (absorb operation) index other.ranges

def merge (operation : Nat) (index other : HashRangeIndex ι α) :
    Except StoreError (HashRangeIndex ι α) := Steps.outcome (mergeInto operation index other)

def splitQuery (index : HashRangeIndex ι α) (query : String) : Except StoreError (ι × String) :=
  match Text.cut? query.toList with
  | none => .error (.missingKey index.name query)
  | some (key, operand) =>
    match Attribute.read? (String.ofList key) with
    | none => .error (.invalidKey index.name (String.ofList key) (Identifier.idType ι))
    | some k => .ok (k, String.ofList operand)

/-- Asks the range index of the query's key; a key without one selects nothing. -/
def search (index : HashRangeIndex ι α) (op : Operator) (query : String) :
    Except StoreError Selection := do
  let (key, operand) ← index.splitQuery query
  match index.get? key with
  | some range => range.search op operand
  | none => return .empty (rangeName index.name key)

def keys (index : HashRangeIndex ι α) : List String :=
  index.ranges.map fun (key, _) => Attribute.text key

def rowCount (index : HashRangeIndex ι α) : Nat :=
  (index.ranges.flatMap fun (_, range) => range.rows).length

def encodeKey (key : ι) : List UInt8 := (Identifier.scalar ι).encode (Identifier.toScalar key)

def serialize (index : HashRangeIndex ι α) : Except StoreError (List UInt8) :=
  (Encoding.join (index.ranges.map fun (key, range) =>
    .join [.ok (encodeKey key), range.encode])).mapError (.corrupt index.name)

def serializedSize (index : HashRangeIndex ι α) : Nat :=
  index.ranges.foldr (fun (_, range) size =>
    (Identifier.scalar ι).width + range.encodedSize + size) 0

def recordDecoder : Decoder (ι × List (WeightedRow ι α)) := do
  let key ← Decoder.scalar (Identifier.scalar ι)
  let rows ← RangeIndex.rowsDecoder
  return (Identifier.ofScalar key, rows)

def insertRecords (operation : Nat) (index : HashRangeIndex ι α) :
    List (ι × List (WeightedRow ι α)) → Except StoreError (HashRangeIndex ι α)
  | [] => .ok index
  | (key, rows) :: rest => do
    let range := RangeIndex.ofRows (rangeName index.name key) (stampOf operation key) rows
    insertRecords operation (← index.insert key range) rest

/-- The index of the records that bytes hold. A repeated key goes before a fault behind it. -/
def deserialize (name : String) (operation : Nat) (bytes : List UInt8) :
    Except StoreError (HashRangeIndex ι α) := do
  let (records, fault?) := Decoder.records recordDecoder bytes
  let index ← insertRecords operation (empty name) records
  match fault? with
  | some fault => .error (.corrupt name fault)
  | none => return index

end HashRangeIndex

end WeightedStore
