import WeightedStore.Files.Path
import WeightedStore.Text.Integer

/-!
The command line: options that every command takes, and three commands with options of their own.
Options may stand anywhere; those of every command also before the command's name. Arguments are
looked at in their order, and the first that is out of form or asks for help decides the answer.
-/

namespace WeightedStore

structure ShardOptions where
  configFile : Option String := none
  shard : Option Nat := none
  shards : Option Nat := none
  sequential : Bool := false
  deriving DecidableEq, Repr

structure Search where
  root : String
  index : String
  operator : String
  value : String
  sample : Option Nat
  json : Bool
  deriving DecidableEq, Repr

inductive Command
  | info (root : String)
  | search (search : Search)
  | buildRange (directory name csv : String) (part : Nat)
  deriving DecidableEq, Repr

inductive Invocation
  | help
  | version
  | run (options : ShardOptions) (command : Command)
  deriving DecidableEq, Repr

def Invocation.places : Invocation → List (String × Nat)
  | help | version => []
  | run options command =>
    let config := options.configFile.toList.map fun path => (path, 1)
    config ++ match command with
      | .info root => [(root, 3)]
      | .search s => [(s.root, 3)]
      | .buildRange directory name csv _ => [(csv, 1), (Path.join directory name, 2)]

namespace Arguments

inductive Item
  | flag (name : String)
  | option (name value : String)
  | operand (text : String)
  deriving DecidableEq, Repr

def path? (text : String) : Option String := if text = "" then none else some text

/-- A number of 32 bits, which may be written with a sign. -/
def word? (text : String) : Option Nat :=
  match Text.readInt (UInt64.size / 2 - 1) text.toList with
  | .ok n => if 0 ≤ n ∧ n < UInt32.size then some n.toNat else none
  | .error _ => none

def count? (text : String) : Option Nat := (Text.readNat (UInt64.size - 1) text.toList).toOption

inductive Form
  | text
  | path
  | word
  | count
  deriving DecidableEq, Repr

def Form.admits : Form → String → Bool
  | text, _ => true
  | path, value => (path? value).isSome
  | word, value => (word? value).isSome
  | count, value => (count? value).isSome

def Item.name? : Item → Option String
  | flag name => some name
  | option name _ => some name
  | operand _ => none

structure Known where
  flags : List String
  options : List (String × Form)

namespace Known

def everywhere : Known where
  flags := ["verbose", "sequential"]
  options := [("config", .path), ("shard-index", .word), ("shard-number", .word)]

def ofCommand? (word : String) : Option Known :=
  if word = "info" then some everywhere
  else if word = "search" then some {
    flags := "json" :: everywhere.flags
    options := [("index", .text), ("op", .text), ("value", .text), ("sample", .count)] ++
      everywhere.options }
  else if word = "build-range" then some { everywhere with
    options := [("name", .text), ("csv", .path), ("part", .word)] ++ everywhere.options }
  else none

def form? (known : Known) (name : String) : Option Form :=
  (known.options.find? fun (n, _) => n = name).map Prod.snd

/-- Whether an item is known and its value of the form it has to be. The one operand is a path. -/
def admits (known : Known) : Item → Bool
  | .flag name => known.flags.contains name
  | .option name value => (known.form? name).any (·.admits value)
  | .operand text => (path? text).isSome

def add (known : Known) (found : List Item) (item : Item) : Option (List Item) :=
  if known.admits item && !(found.map Item.name?).contains item.name? then some (found ++ [item])
  else none

end Known

inductive Scan
  | items (found : List Item) (rest : List String)
  | help
  | version
  | refused

def scanShort (known : Known) (outer : Bool) (found : List Item) : List Char → Scan
  | [] => .items found []
  | c :: rest =>
    if c = 'v' then match known.add found (.flag "verbose") with
      | some found => scanShort known outer found rest
      | none => .refused
    else if c = 'h' then .help
    else if c = 'V' ∧ outer then .version
    else .refused

def splitLong (cs : List Char) : String × Option String :=
  let (name, rest) := cs.span (· ≠ '=')
  (String.ofList name, if rest = [] then none else some (String.ofList rest.tail))

def canBeValue (argument : String) : Bool :=
  match argument.toList with
  | ['-'] => true
  | '-' :: _ => false
  | _ => true

def scanOperands (known : Known) (found : List Item) : List String → Scan
  | [] => .items found []
  | text :: rest => match known.add found (.operand text) with
    | some found => scanOperands known found rest
    | none => .refused

/-- Sorts arguments into items, behind those found. At the outer level the first operand ends the
scan, since it names the command; the rest begins with it. -/
def scan (known : Known) (outer : Bool) (found : List Item) : List String → Scan
  | [] => .items found []
  | argument :: rest => match argument.toList with
    | ['-', '-'] => if outer then .refused else scanOperands known found rest
    | '-' :: '-' :: long => match splitLong long with
      | (name, none) =>
        if name = "help" then .help
        else if name = "version" ∧ outer then .version
        else if (known.form? name).isSome then match rest with
          | [] => .refused
          | value :: rest =>
            if canBeValue value then match known.add found (.option name value) with
              | some found => scan known outer found rest
              | none => .refused
            else .refused
        else match known.add found (.flag name) with
          | some found => scan known outer found rest
          | none => .refused
      | (name, some value) => match known.add found (.option name value) with
        | some found => scan known outer found rest
        | none => .refused
    | '-' :: c :: short => match scanShort known outer found (c :: short) with
      | .items found _ => scan known outer found rest
      | other => other
    | _ =>
      if outer then .items found (argument :: rest)
      else match known.add found (.operand argument) with
        | some found => scan known outer found rest
        | none => .refused

def operands (items : List Item) : List String :=
  items.filterMap fun
    | .operand text => some text
    | _ => none

def valuesOf (name : String) (items : List Item) : List String :=
  items.filterMap fun
    | .option n value => if n = name then some value else none
    | _ => none

def hasFlag (name : String) (items : List Item) : Bool := items.contains (.flag name)

def optional? {α : Type} (read : String → Option α) (name : String) (items : List Item) :
    Option (Option α) :=
  match valuesOf name items with
  | [] => some none
  | value :: _ => (read value).map some

def options? (items : List Item) : Option ShardOptions := do
  return {
    configFile := ← optional? path? "config" items
    shard := ← optional? word? "shard-index" items
    shards := ← optional? word? "shard-number" items
    sequential := hasFlag "sequential" items }

/-- Options given behind the command go before those in front of it. -/
def merge (front behind : ShardOptions) : ShardOptions where
  configFile := behind.configFile.or front.configFile
  shard := behind.shard.or front.shard
  shards := behind.shards.or front.shards
  sequential := behind.sequential || front.sequential

def command? (word : String) (items : List Item) : Option Command := do
  let [operand] := operands items | none
  let root ← path? operand
  if word = "info" then return .info root
  else if word = "search" then
    return .search {
      root
      index := ← (valuesOf "index" items).head?
      operator := ← (valuesOf "op" items).head?
      value := ← (valuesOf "value" items).head?
      sample := ← optional? count? "sample" items
      json := hasFlag "json" items }
  else
    let name ← (valuesOf "name" items).head?
    let csv ← (valuesOf "csv" items).head?
    let part ← optional? word? "part" items
    return .buildRange root name (← path? csv) (part.getD 0)

def isTopic : List String → Bool
  | [] => true
  | [word] => word = "help" || (Known.ofCommand? word).isSome
  | _ => false

def read (arguments : List String) : Option Invocation :=
  match scan .everywhere true [] arguments with
  | .help => some .help
  | .version => some .version
  | .refused => none
  | .items _ [] => none
  | .items front (word :: rest) =>
    if word = "help" then if isTopic rest then some .help else none
    else do
      match scan (← Known.ofCommand? word) false [] rest with
      | .help => some .help
      | .version => some .version
      | .refused => none
      | .items behind _ =>
        return .run (merge (← options? front) (← options? behind)) (← command? word behind)

end Arguments

end WeightedStore
