import WeightedStore.Attribute.Basic
import WeightedStore.Text.Blank
import WeightedStore.Text.Integer

/-!
The types of attribute values and of ids. Blanks around an operand are skipped, except that a string
stands for itself. Floating-point values are ordered and told apart by all their bits.
-/

namespace WeightedStore

namespace Attribute

def readUnsigned? (bound : Nat) (s : String) : Option Nat :=
  (Text.readNat bound (Text.trimChars s.toList)).toOption

def readSigned? (bound : Nat) (s : String) : Option Int :=
  (Text.readInt bound (Text.trimChars s.toList)).toOption

instance : Attribute UInt32 where
  type := .uint32
  decEq := inferInstance
  atMost x y := x ≤ y
  atMost_trans := by simpa using fun x y z => UInt32.le_trans
  atMost_total := by simpa using UInt32.le_total
  atMost_antisymm := by simpa using fun x y => UInt32.le_antisymm
  read? s := (readUnsigned? (UInt32.size - 1) s).map UInt32.ofNat
  text x := toString x.toNat
  encode x := .ok (Scalar.uint32.encode x)
  size _ := Scalar.uint32.width
  decoder := Decoder.scalar .uint32

instance : Attribute Int32 where
  type := .int32
  decEq := inferInstance
  atMost x y := x ≤ y
  atMost_trans := by simpa using fun x y z => Int32.le_trans
  atMost_total := by simpa using Int32.le_total
  atMost_antisymm := by simpa using fun x y => Int32.le_antisymm
  read? s := (readSigned? (UInt32.size / 2 - 1) s).map Int32.ofInt
  text x := toString x.toInt
  encode x := .ok (Scalar.int32.encode x)
  size _ := Scalar.int32.width
  decoder := Decoder.scalar .int32

instance : Attribute UInt64 where
  type := .uint64
  decEq := inferInstance
  atMost x y := x ≤ y
  atMost_trans := by simpa using fun x y z => UInt64.le_trans
  atMost_total := by simpa using UInt64.le_total
  atMost_antisymm := by simpa using fun x y => UInt64.le_antisymm
  read? s := (readUnsigned? (UInt64.size - 1) s).map UInt64.ofNat
  text x := toString x.toNat
  encode x := .ok (Scalar.uint64.encode x)
  size _ := Scalar.uint64.width
  decoder := Decoder.scalar .uint64

instance : Attribute Int64 where
  type := .int64
  decEq := inferInstance
  atMost x y := x ≤ y
  atMost_trans := by simpa using fun x y z => Int64.le_trans
  atMost_total := by simpa using Int64.le_total
  atMost_antisymm := by simpa using fun x y => Int64.le_antisymm
  read? s := (readSigned? (UInt64.size / 2 - 1) s).map Int64.ofInt
  text x := toString x.toInt
  encode x := .ok (Scalar.int64.encode x)
  size _ := Scalar.int64.width
  decoder := Decoder.scalar .int64

def hexadecimal (width n : Nat) : List Char :=
  let ds := Nat.toDigits 16 n
  List.replicate (width - ds.length) '0' ++ ds

instance : Attribute Binary32 where
  type := .float
  decEq := inferInstance
  atMost x y := x.rank ≤ y.rank
  atMost_trans := by simpa using fun x y z => Int.le_trans
  atMost_total := by simpa using fun x y : Binary32 => Int.le_total x.rank y.rank
  atMost_antisymm := by
    simpa using fun x y h h' => Floating.rank_injective (Int.le_antisymm h h')
  read? s := (Floating.read (Text.trim s)).toOption
  text := Floating.text
  label x := if x.isNaN then String.ofList ("NaN:0x".toList ++ hexadecimal 8 x.bits) else x.text
  encode x := .ok (Scalar.binary32.encode x)
  size _ := Scalar.binary32.width
  decoder := Decoder.scalar .binary32

instance : Attribute String where
  type := .string
  decEq := inferInstance
  atMost x y := x ≤ y
  atMost_trans := by simpa using fun x y z => String.le_trans
  atMost_total := by simpa using String.le_total
  atMost_antisymm := by simpa using fun x y => String.le_antisymm
  read? := some
  text := id
  encode := Bytes.encodeString
  size s := Bytes.blobSize s.utf8ByteSize
  decoder := Decoder.string

end Attribute

instance : Identifier UInt32 where
  idType := .uint32
  scalar := .uint32
  toScalar := id
  ofScalar := id
  ofScalar_toScalar _ := rfl
  toScalar_ofScalar _ := rfl
  wide := UInt32.toUInt64
  wide_injective _ _ := UInt32.toUInt64_inj.1
  atMost_eq_wide _ _ := by simp [Attribute.atMost]

instance : Identifier UInt64 where
  idType := .uint64
  scalar := .uint64
  toScalar := id
  ofScalar := id
  ofScalar_toScalar _ := rfl
  toScalar_ofScalar _ := rfl
  wide := id
  wide_injective _ _ h := h
  atMost_eq_wide _ _ := rfl

abbrev IdType.Carrier : IdType → Type
  | uint32 => UInt32
  | uint64 => UInt64

instance (t : IdType) : Identifier t.Carrier :=
  match t with
  | .uint32 => inferInstanceAs (Identifier UInt32)
  | .uint64 => inferInstanceAs (Identifier UInt64)

abbrev ValueType.Carrier : ValueType → Type
  | uint32 => UInt32
  | int32 => Int32
  | uint64 => UInt64
  | int64 => Int64
  | float => Binary32
  | string => String

instance (t : ValueType) : Attribute t.Carrier :=
  match t with
  | .uint32 => inferInstanceAs (Attribute UInt32)
  | .int32 => inferInstanceAs (Attribute Int32)
  | .uint64 => inferInstanceAs (Attribute UInt64)
  | .int64 => inferInstanceAs (Attribute Int64)
  | .float => inferInstanceAs (Attribute Binary32)
  | .string => inferInstanceAs (Attribute String)

end WeightedStore
