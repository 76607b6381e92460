import WeightedStore.Files.System
import WeightedStore.Index.Error
import WeightedStore.Json.Reader
import WeightedStore.Json.Record

/-!
Which part files a process loads: those whose number leaves the process's shard as the remainder
when it is divided by the number of shards.
-/

namespace WeightedStore

structure ShardConfig where
  shard : Nat := 0
  shards : Nat := 1
  parallel : Bool := true
  deriving DecidableEq, Repr

namespace ShardConfig

def check (c : ShardConfig) : Except StoreError Unit :=
  if c.shards = 0 then .error .noShards
  else if c.shards ≤ c.shard then .error (.shardOutOfRange c.shard c.shards)
  else .ok ()

def owns (c : ShardConfig) (part : Nat) : Bool := part % c.shards = c.shard

def readWord (value : Json) : Option Nat := value.natural?.filter (· < UInt32.size)

def ofJson? (value : Json) : Option ShardConfig := do
  let fields ← Json.fields? ["shard_index", "shard_number", "parallel"] value
  match fields with
  | [shard, shards, parallel] =>
    return {
      shard := ← Json.optional 0 readWord shard
      shards := ← Json.optional 1 readWord shards
      parallel := ← Json.optional true Json.bool? parallel }
  | _ => none

def ofText (path text : String) : Except StoreError ShardConfig :=
  match (Json.read? text).bind ofJson? with
  | none => .error (.malformedConfig path)
  | some c => do
    c.check
    return c

def ofFile (files : FileSystem) (path : String) : Except StoreError ShardConfig := do
  ofText path (← (files.readText path).mapError (StoreError.file path))

end ShardConfig

end WeightedStore
