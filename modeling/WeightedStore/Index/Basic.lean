import WeightedStore.Attribute.Instances
import WeightedStore.Index.Description
import WeightedStore.Index.Hash
import WeightedStore.Index.HashRange

/-!
Indexes of any kind over given types of ids and values, and indexes with their types beside them.
-/

namespace WeightedStore

inductive Index (ι α : Type)
  | hash (index : HashIndex ι α)
  | range (index : RangeIndex ι α)
  | hashRange (index : HashRangeIndex ι α)

namespace Index

variable {ι α : Type} [Identifier ι] [Attribute α]

def kind : Index ι α → IndexKind
  | hash _ => .hash
  | range _ => .range
  | hashRange _ => .hashRange

def name : Index ι α → String
  | hash index => index.name
  | range index => index.name
  | hashRange index => index.name

def empty (kind : IndexKind) (name : String) (operation : Nat) : Index ι α :=
  match kind with
  | .hash => hash (.empty name)
  | .range => range (.empty name ⟨operation, 0⟩)
  | .hashRange => hashRange (.empty name)

def deserialize (kind : IndexKind) (name : String) (operation : Nat) (bytes : List UInt8) :
    Except StoreError (Index ι α) :=
  match kind with
  | .hash => hash <$> HashIndex.deserialize name bytes
  | .range => range <$> RangeIndex.deserialize name ⟨operation, 0⟩ bytes
  | .hashRange => hashRange <$> HashRangeIndex.deserialize name operation bytes

def search (index : Index ι α) (op : Operator) (operand : String) : Except StoreError Selection :=
  match index with
  | hash index => index.search op operand
  | range index => index.search op operand
  | hashRange index => index.search op operand

def searchBy (index : Index ι α) (spelling operand : String) : Except StoreError Selection :=
  match Operator.read? spelling with
  | some op => index.search op operand
  | none => .error (.unknownOperator index.name spelling)

def searchAll : Index ι α → Except StoreError Selection
  | hash index => .ok index.searchAll
  | range index => .ok index.searchAll
  | hashRange index => .error (.unsupported index.name .hashRange .everything)

def keys : Index ι α → List String
  | hash index => index.keys
  | range _ => []
  | hashRange index => index.keys

def rowCount : Index ι α → Nat
  | hash index => index.rowCount
  | range index => index.rowCount
  | hashRange index => index.rowCount

def serialize : Index ι α → Except StoreError (List UInt8)
  | hash index => index.serialize
  | range index => index.serialize
  | hashRange index => index.serialize

def serializedSize : Index ι α → Nat
  | hash index => index.serializedSize
  | range index => index.encodedSize
  | hashRange index => index.serializedSize

/-- Merges another index in; what was merged before a failure stays. -/
def mergeInto (operation : Nat) (index other : Index ι α) : Index ι α × Option StoreError :=
  match index, other with
  | hash a, hash b => (a.mergeInto b).map hash id
  | range a, range b => match a.merge ⟨operation, 0⟩ b with
    | .ok merged => (range merged, none)
    | .error e => (range a, some e)
  | hashRange a, hashRange b => (HashRangeIndex.mergeInto operation a b).map hashRange id
  | a, b => (a, some (.mergeMismatch a.kind a.name b.kind b.name))

def mergeEach (operation : Nat) (index : Index ι α) (others : List (Index ι α)) :
    Index ι α × Option StoreError := Steps.run (mergeInto operation) index others

def asRange? : Index ι α → Option (RangeIndex ι α)
  | range index => some index
  | _ => none

/-- Merges all others in at once. Range indexes look at all names before they merge any; the other
kinds merge in turn. -/
def mergeAll (operation : Nat) (index : Index ι α) (others : List (Index ι α)) :
    Index ι α × Option StoreError :=
  match index, others.mapM asRange? with
  | range a, some ranges => match a.mergeAll ⟨operation, 0⟩ ranges with
    | .ok merged => (range merged, none)
    | .error e => (range a, some e)
  | index, _ => index.mergeEach operation others

def ofParts (kind : IndexKind) (name : String) (operation : Nat) (parts : List (Index ι α)) :
    Except StoreError (Index ι α) :=
  match parts with
  | [] => .ok (empty kind name operation)
  | first :: rest => Steps.outcome (first.mergeAll operation rest)

end Index

structure TypedIndex where
  idType : IdType
  valueType : ValueType
  index : Index idType.Carrier valueType.Carrier

namespace TypedIndex

def name (i : TypedIndex) : String := i.index.name

def description (i : TypedIndex) : Description :=
  ⟨i.index.kind, i.idType.dataType, i.valueType.dataType⟩

def as? (i : TypedIndex) (idType : IdType) (valueType : ValueType) :
    Option (Index idType.Carrier valueType.Carrier) :=
  if h : i.idType = idType ∧ i.valueType = valueType then some (h.1 ▸ h.2 ▸ i.index) else none

def searchBy (i : TypedIndex) (spelling operand : String) : Except StoreError Selection :=
  i.index.searchBy spelling operand

def searchAll (i : TypedIndex) : Except StoreError Selection := i.index.searchAll

def ofParts (name : String) (operation : Nat) (d : Description) (parts : List (List UInt8)) :
    Except StoreError TypedIndex := do
  let some idType := IdType.ofDataType? d.idType | .error (.unsupportedIdType name d.idType)
  let some valueType := ValueType.ofDataType? d.valueType
    | .error (.unsupportedValueType name d.valueType)
  let parts ← parts.mapM (Index.deserialize d.kind name operation)
  return ⟨idType, valueType, ← Index.ofParts d.kind name operation parts⟩

end TypedIndex

end WeightedStore
