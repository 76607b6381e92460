/-!
The type codes that stored data carries, and the smaller families of types that ids and attribute
values can have.
-/

namespace WeightedStore

inductive DataType
  | int8
  | int16
  | int32
  | int64
  | uint8
  | uint16
  | uint32
  | uint64
  | float
  | double
  | bool
  | string
  deriving DecidableEq, Repr

namespace DataType

def all : List DataType :=
  [int8, int16, int32, int64, uint8, uint16, uint32, uint64, float, double, bool, string]

def code : DataType → Nat
  | int8 => 0
  | int16 => 1
  | int32 => 2
  | int64 => 3
  | uint8 => 4
  | uint16 => 5
  | uint32 => 6
  | uint64 => 7
  | float => 8
  | double => 9
  | bool => 10
  | string => 11

def ofCode? (code : Int) : Option DataType := all.find? fun t => (t.code : Int) = code

def name : DataType → String
  | int8 => "int8"
  | int16 => "int16"
  | int32 => "int32"
  | int64 => "int64"
  | uint8 => "uint8"
  | uint16 => "uint16"
  | uint32 => "uint32"
  | uint64 => "uint64"
  | float => "float"
  | double => "double"
  | bool => "bool"
  | string => "string"

def jsonName : DataType → String
  | int8 => "Int8"
  | int16 => "Int16"
  | int32 => "Int32"
  | int64 => "Int64"
  | uint8 => "UInt8"
  | uint16 => "UInt16"
  | uint32 => "UInt32"
  | uint64 => "UInt64"
  | float => "Float"
  | double => "Double"
  | bool => "Bool"
  | string => "String"

theorem ofCode?_code (t : DataType) : ofCode? t.code = some t := by
  cases t <;> rfl

theorem mem_all (t : DataType) : t ∈ all := by
  cases t <;> decide

end DataType

inductive IdType
  | uint32
  | uint64
  deriving DecidableEq, Repr

def IdType.dataType : IdType → DataType
  | uint32 => .uint32
  | uint64 => .uint64

def IdType.ofDataType? : DataType → Option IdType
  | .uint32 => some uint32
  | .uint64 => some uint64
  | _ => none

inductive ValueType
  | uint32
  | int32
  | uint64
  | int64
  | float
  | string
  deriving DecidableEq, Repr

def ValueType.dataType : ValueType → DataType
  | uint32 => .uint32
  | int32 => .int32
  | uint64 => .uint64
  | int64 => .int64
  | float => .float
  | string => .string

def ValueType.ofDataType? : DataType → Option ValueType
  | .uint32 => some uint32
  | .int32 => some int32
  | .uint64 => some uint64
  | .int64 => some int64
  | .float => some float
  | .string => some string
  | _ => none

end WeightedStore
