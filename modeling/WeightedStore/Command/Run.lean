import WeightedStore.Command.CsvRow
import WeightedStore.Command.Search
import WeightedStore.Files.Change
import WeightedStore.Shard.Catalog

/-!
Running a command on files. The answer holds all that the command prints and writes, so that the
outer layer has only to carry it out.
-/

namespace WeightedStore

structure Outcome where
  code : Nat
  out : String := ""
  err : String := ""
  /-- What the command does to the files, in this order. -/
  changes : List FileChange := []
  /-- The files afterwards. -/
  files : FileSystem

namespace Command.Run

def failed (files : FileSystem) (f : Failure) : Outcome := { code := 1, err := f.report, files }

def printed (files : FileSystem) : Except Failure String → Outcome
  | .ok out => { code := 0, out, files }
  | .error f => failed files f

def resolve (files : FileSystem) (options : ShardOptions) : Except StoreError ShardConfig := do
  let base ← match options.configFile with
    | some path => ShardConfig.ofFile files path
    | none => pure {}
  let config : ShardConfig := {
    shard := options.shard.getD base.shard
    shards := options.shards.getD base.shards
    parallel := base.parallel && !options.sequential }
  config.check
  return config

def loadFrom (files : FileSystem) (root : String) (config : ShardConfig) :
    Except Failure Catalog :=
  (Catalog.load files root config).mapError fun e =>
    (Failure.ofStore e).within s!"loading indexes under {root}"

def describe (name : String) (loaded : LoadedIndex) : String :=
  let d := loaded.description
  let index := loaded.index.index
  let kinds := s!"{d.kind.name} id={d.idType.name} value={d.valueType.name}"
  let sizes := s!"files={loaded.files.length} rows={index.rowCount} keys={index.keys.length}"
  s!"  {name} {kinds} {sizes} bytes={index.serializedSize}\n"

def info (files : FileSystem) (root : String) (config : ShardConfig) : Except Failure String := do
  let catalog ← loadFrom files root config
  let place := s!"shard {config.shard}/{config.shards}"
  let heading := s!"Loaded {catalog.entries.length} indexes ({place})\n"
  return String.join (heading :: catalog.entries.map fun (name, loaded) => describe name loaded)

def search (files : FileSystem) (stream : WordStream) (s : Search) (config : ShardConfig) :
    Except Failure String := do
  let some op := Operator.read? s.operator | .error ⟨Operator.unknownMessage s.operator, []⟩
  let catalog ← loadFrom files s.root config
  let some loaded := catalog.get? s.index
    | .error ⟨s!"no index named `{s.index}` under {s.root}", []⟩
  let selection ← (loaded.index.index.search op s.value).mapError Failure.ofStore
  let entries := Search.shown stream selection s.sample
  return (if s.json then Search.jsonReport else Search.plainReport) s op selection entries

def csvDescription : Description := ⟨.range, .uint64, .float⟩

def fileError (path : String) (fault : FileFault) : Failure := .ofStore (.file path fault)

def readBack (files : FileSystem) (path : String) (index : RangeIndex UInt64 Binary32) :
    Except Failure Unit := do
  let bytes ← (files.read path).mapError fun fault => ⟨fault.message, []⟩
  let back : RangeIndex UInt64 Binary32 ←
    (RangeIndex.deserialize index.name index.stamp bytes).mapError Failure.ofStore
  if back.rowCount ≠ index.rowCount then
    .error ⟨s!"wrote {index.rowCount} rows but read back {back.rowCount}", []⟩

def layDown (folder path : String) (index : RangeIndex UInt64 Binary32) :
    Changing Failure Unit := do
  let description := Path.join folder Catalog.descriptionFile
  (Changing.makeDirectory folder).adaptExcept (fileError folder)
  (Changing.write description csvDescription.encode).adaptExcept (fileError description)
  match index.serialize with
  | .error e => throw (.ofStore e)
  | .ok bytes =>
    (Changing.write path bytes).adaptExcept fun fault => ⟨s!"writing {path}", [fault.message]⟩
    MonadExcept.ofExcept (readBack (← get).files path index)

/-- Builds a part of a range index from a text and lays it down. What was written before a failure
stays. -/
def buildRange (files : FileSystem) (directory name csv : String) (part : Nat) : Outcome :=
  let folder := Path.join directory name
  let path := Path.join folder s!"part_{part}.dat"
  let index? := do
    let text ← (files.readText csv).mapError fun fault : FileFault =>
      Failure.mk s!"reading {csv}" [fault.message]
    CsvRow.indexOf name text
  match index? with
  | .error f => failed files f
  | .ok index => match layDown folder path index { files } with
    | .error f c => { failed c.files f with changes := c.changes }
    | .ok _ c =>
      let err := s!"wrote {path} ({index.rowCount} rows)\n"
      { code := 0, err, changes := c.changes, files := c.files }

def usage : String :=
  "usage: [options] info ROOT\n" ++
  "       [options] search ROOT --index NAME --op OP --value VALUE [--sample N] [--json]\n" ++
  "       [options] build-range DIR --name NAME --csv FILE [--part N]\n" ++
  "options: --verbose --config FILE --shard-index N --shard-number N --sequential\n"

def version : String := "shardgraph 0.6.0\n"

def runCommand (files : FileSystem) (stream : WordStream) (options : ShardOptions) :
    Command → Outcome
  | .info root => printed files do
    info files root (← (resolve files options).mapError Failure.ofStore)
  | .search s => printed files do
    search files stream s (← (resolve files options).mapError Failure.ofStore)
  | .buildRange directory name csv part => buildRange files directory name csv part

def run (files : FileSystem) (stream : WordStream) (arguments : List String) : Outcome :=
  match Arguments.read arguments with
  | none => { code := 2, err := usage, files }
  | some .help => { code := 0, out := usage, files }
  | some .version => { code := 0, out := version, files }
  | some (.run options command) => runCommand files stream options command

end Command.Run

end WeightedStore
