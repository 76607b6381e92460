import WeightedStore.Bytes.Field
import WeightedStore.Index.Error
import WeightedStore.Json.Record

/-!
The description of a stored index: its kind and its two types, as three codes.
-/

namespace WeightedStore

structure Description where
  kind : IndexKind
  idType : DataType
  valueType : DataType
  deriving DecidableEq, Repr

def IndexKind.ofJson? : Json → Option IndexKind := Json.case? IndexKind.all IndexKind.name

def DataType.ofJson? : Json → Option DataType := Json.case? DataType.all DataType.jsonName

namespace Description

def encode (d : Description) : List UInt8 :=
  [d.kind.code, d.idType.code, d.valueType.code].flatMap fun code =>
    Scalar.int32.encode (Int32.ofNat code)

def ofCodes (index : String) (kind idType valueType : Int) : Except StoreError Description := do
  let some k := IndexKind.ofCode? kind | .error (.unknownKind index kind)
  let some i := DataType.ofCode? idType | .error (.unknownIdType index idType)
  let some v := DataType.ofCode? valueType | .error (.unknownValueType index valueType)
  return ⟨k, i, v⟩

def codes : Decoder (Int × Int × Int) := do
  let kind ← Decoder.scalar .int32
  let idType ← Decoder.scalar .int32
  let valueType ← Decoder.scalar .int32
  return (kind.toInt, idType.toInt, valueType.toInt)

def decode (index : String) (bytes : List UInt8) : Except StoreError Description :=
  match codes (.start bytes) with
  | .ok (kind, idType, valueType) _ => ofCodes index kind idType valueType
  | .error fault _ => .error (.corrupt index fault)

def ofJson? (value : Json) : Option Description := do
  match ← Json.fields? ["kind", "id_type", "value_type"] value with
  | [kind, idType, valueType] =>
    return {
      kind := ← Json.required IndexKind.ofJson? kind
      idType := ← Json.required DataType.ofJson? idType
      valueType := ← Json.required DataType.ofJson? valueType }
  | _ => none

end Description

end WeightedStore
