import WeightedStore.Attribute.DataType
import WeightedStore.Bytes.Fault
import WeightedStore.Query.Operator
import WeightedStore.Files.Fault

/-!
Why an index, its description or a configuration is refused, and in which words.
-/

namespace WeightedStore

inductive IndexKind
  | hash
  | range
  | hashRange
  deriving DecidableEq, Repr

namespace IndexKind

def all : List IndexKind := [hash, range, hashRange]

def code : IndexKind → Nat
  | hash => 0
  | range => 1
  | hashRange => 2

def ofCode? (code : Int) : Option IndexKind := all.find? fun k => (k.code : Int) = code

def name : IndexKind → String
  | hash => "hash"
  | range => "range"
  | hashRange => "hash_range"

theorem ofCode?_code (k : IndexKind) : ofCode? k.code = some k := by
  cases k <;> rfl

end IndexKind

inductive Request
  | search (op : Operator)
  | everything
  deriving DecidableEq, Repr

def Request.name : Request → String
  | search op => op.name
  | everything => "search_all"

inductive StoreError
  | unknownOperator (index text : String)
  | missingKey (index operand : String)
  | invalidValue (index text : String) (type : ValueType)
  | invalidKey (index text : String) (type : IdType)
  | unequalColumns (index : String) (ids values weights : Nat)
  | badWeight (index : String) (weight : Binary32)
  | badBucket (index : String) (fault : DataFault)
  | unsupported (index : String) (kind : IndexKind) (request : Request)
  | corrupt (index : String) (fault : DataFault)
  | mergeMismatch (left : IndexKind) (leftName : String) (right : IndexKind) (rightName : String)
  | duplicateKey (index key : String)
  | unknownKind (index : String) (code : Int)
  | unknownIdType (index : String) (code : Int)
  | unknownValueType (index : String) (code : Int)
  | unsupportedIdType (index : String) (type : DataType)
  | unsupportedValueType (index : String) (type : DataType)
  | noShards
  | shardOutOfRange (shard shards : Nat)
  | malformedConfig (path : String)
  | file (path : String) (fault : FileFault)
  deriving DecidableEq

namespace StoreError

def malformed (index message : String) : String := s!"malformed query on index `{index}`: {message}"

def invalid (index message : String) : String := s!"invalid argument for index `{index}`: {message}"

def badMeta (index message : String) : String := s!"bad meta for index `{index}`: {message}"

def badConfig (message : String) : String := s!"bad loader config: {message}"

def message : StoreError → String
  | unknownOperator index text => malformed index (Operator.unknownMessage text)
  | missingKey index operand => malformed index s!"`{operand}` is missing the `::` key separator"
  | invalidValue index text type => invalid index s!"`{text}` is not a valid {type.dataType.name}"
  | invalidKey index text type => invalid index s!"`{text}` is not a valid {type.dataType.name} key"
  | unequalColumns index ids values weights =>
    invalid index s!"column lengths differ: {ids} ids, {values} values, {weights} weights"
  | badWeight index weight => invalid index s!"bad weight {weight.text}"
  | badBucket index fault => invalid index fault.message
  | unsupported index kind request =>
    s!"{request.name} is not supported by {kind.name} index `{index}`"
  | corrupt index fault => s!"corrupt segment for index `{index}`: {fault.message}"
  | mergeMismatch left leftName right rightName =>
    s!"cannot merge {right.name} index `{rightName}` into {left.name} index `{leftName}`"
  | duplicateKey index key => s!"duplicate key `{key}` in index `{index}`"
  | unknownKind index code => badMeta index s!"unknown index kind {code}"
  | unknownIdType index code => badMeta index s!"unknown id type {code}"
  | unknownValueType index code => badMeta index s!"unknown value type {code}"
  | unsupportedIdType index type => badMeta index s!"{type.name} is not a supported id type"
  | unsupportedValueType index type => badMeta index s!"{type.name} is not a supported value type"
  | noShards => badConfig "shard_number must be positive"
  | shardOutOfRange shard shards =>
    badConfig s!"shard_index {shard} out of range for {shards} shards"
  | malformedConfig path => badConfig s!"{path}: not a loader configuration"
  | file path fault => s!"i/o error on {path}: {fault.message}"

def cause? : StoreError → Option String
  | corrupt _ fault => some fault.message
  | file _ fault => some fault.message
  | _ => none

def isRejection : StoreError → Bool
  | unknownOperator .. | missingKey .. | invalidValue .. | invalidKey .. | unequalColumns ..
  | badWeight .. | badBucket .. | unsupported .. => true
  | _ => false

end StoreError

end WeightedStore
