import WeightedStore.Bytes.Fault

/-!
Why a neighborhood or a node record is refused, and in which words.
-/

namespace WeightedStore

inductive RecordField
  | record
  | header
  | groupIds
  | groupWeights
  | groupEnds
  | neighbors
  | cumulativeWeights
  | integerOffsets
  | integerValues
  | floatOffsets
  | floatValues
  | binaryOffsets
  | binaryValues
  deriving DecidableEq, Repr

def RecordField.name : RecordField → String
  | record => "record"
  | header => "header"
  | groupIds => "group_ids"
  | groupWeights => "group_weights"
  | groupEnds => "group_end_idx"
  | neighbors => "neighbors"
  | cumulativeWeights => "cum_weights"
  | integerOffsets => "u64_idx"
  | integerValues => "u64_values"
  | floatOffsets => "f32_idx"
  | floatValues => "f32_values"
  | binaryOffsets => "bin_idx"
  | binaryValues => "bin_values"

inductive Inconsistency
  | offsetCount (offsets groups : Nat)
  | misplacedGroup (group : Nat) (edgeType : Int)
  | decreasingOffsets
  | unevenColumns (last neighbors totals : Nat)
  | decreasingTotals (group position : Nat)
  | differentTotals (group : Nat) (stored summed : Binary32)
  | featureOffset (stop previous : Int)
  | featureCount (last : Int) (values : Nat)
  | trailingBytes (count : Nat)
  deriving DecidableEq

def Inconsistency.message : Inconsistency → String
  | offsetCount offsets groups => s!"{offsets} group offsets for {groups} groups"
  | misplacedGroup group edgeType => s!"group {group} has edge type {edgeType}"
  | decreasingOffsets => "group offsets decrease"
  | unevenColumns last neighbors totals =>
    s!"groups end at {last}, {neighbors} neighbors, {totals} cumulative weights"
  | decreasingTotals group position => s!"group {group} cumulative weights decrease at {position}"
  | differentTotals group stored summed =>
    s!"group {group} total {stored.text} but cumulative weights sum to {summed.text}"
  | featureOffset stop previous => s!"feature offset {stop} after {previous}"
  | featureCount last values => s!"feature offsets end at {last}, {values} values"
  | trailingBytes count => s!"{count} trailing bytes"

inductive NodeError
  | invalidEdgeType (edgeType : Int) (groups : Nat)
  | groupMismatch (groups weights : Nat)
  | invalidGroup (group : Nat) (fault : DataFault)
  | corrupt (node : Option UInt64) (field : RecordField) (fault : DataFault)
  | inconsistent (node : UInt64) (cause : Inconsistency)
  deriving DecidableEq

namespace NodeError

def nodeText : Option UInt64 → String
  | some id => s!"Some({id.toNat})"
  | none => "None"

def message : NodeError → String
  | invalidEdgeType edgeType groups => s!"edge type {edgeType} out of range for {groups} groups"
  | groupMismatch groups weights => s!"neighbor lists for {groups} groups but weights for {weights}"
  | invalidGroup group fault => s!"invalid neighbor group {group}: {fault.message}"
  | corrupt node field fault =>
    s!"corrupt node record (node {nodeText node}) in {field.name}: {fault.message}"
  | inconsistent node cause => s!"inconsistent node record (node {node.toNat}): {cause.message}"

end NodeError

end WeightedStore
