import WeightedStore.Index.Basic
import WeightedStore.Shard.Config

/-!
Catalogs: the indexes that one shard holds, by name. A catalog is loaded from a directory with one
directory for each index, in which a file describes the index and numbered files hold its parts.
-/

namespace WeightedStore

structure LoadedIndex where
  description : Description
  index : TypedIndex
  files : List String

structure Catalog where
  entries : List (String × LoadedIndex)

namespace Catalog

def empty : Catalog := ⟨[]⟩

def get? (c : Catalog) (name : String) : Option LoadedIndex :=
  (c.entries.find? fun (n, _) => n = name).map Prod.snd

def putInto (name : String) (loaded : LoadedIndex) :
    List (String × LoadedIndex) → List (String × LoadedIndex)
  | [] => [(name, loaded)]
  | (n, l) :: rest =>
    if name < n then (name, loaded) :: (n, l) :: rest
    else if n < name then (n, l) :: putInto name loaded rest
    else (name, loaded) :: rest

def insert (c : Catalog) (index : TypedIndex) : Catalog :=
  ⟨putInto index.name ⟨index.description, index, []⟩ c.entries⟩

def descriptionFile : String := "meta"

/-- The number of a part file: the middle one of three pieces between points and underscores, the
last of which is the extension. -/
def partNumber? (fileName : String) : Option Nat :=
  match Text.piecesBy (fun c => c = '_' || c = '.') fileName.toList with
  | [_, number, ['d', 'a', 't']] => (Text.readNat (UInt64.size - 1) number).toOption
  | _ => none

def partFiles (config : ShardConfig) (entries : List (String × FileTree)) :
    List (String × List UInt8) :=
  entries.filterMap fun (name, tree) =>
    match partNumber? name, tree with
    | some part, .file bytes => if config.owns part then some (name, bytes) else none
    | _, _ => none

structure IndexFolder where
  name : String
  description : List UInt8
  entries : List (String × FileTree)

def folder? : String × FileTree → Option IndexFolder
  | (_, .file _) => none
  | (name, .directory entries) => match FileTree.child? descriptionFile entries with
    | some (.file bytes) => some ⟨name, bytes, FileTree.sortByName entries⟩
    | _ => none

def loadFolder (config : ShardConfig) (operation : Nat) (folder : IndexFolder) :
    Except StoreError LoadedIndex := do
  let description ← Description.decode folder.name folder.description
  let files := partFiles config folder.entries
  let index ← TypedIndex.ofParts folder.name operation description (files.map Prod.snd)
  return ⟨description, index, files.map Prod.fst⟩

/-- Loads every index below `root`, in the order of their names, up to the first that fails. -/
def load (files : FileSystem) (root : String) (config : ShardConfig) :
    Except StoreError Catalog := do
  config.check
  let entries ← (files.list root).mapError (StoreError.file root)
  let loaded ← (entries.filterMap folder?).zipIdx.mapM fun (folder, operation) => do
    return (folder.name, ← loadFolder config operation folder)
  return ⟨loaded⟩

end Catalog

end WeightedStore
