import WeightedStore.Files.Fault

/-!
File trees as values: what stands at the end of a list of names, and the tree with something put
there. Main fact: what is put is found.
-/

namespace WeightedStore

inductive FileTree
  | file (bytes : List UInt8)
  | directory (entries : List (String × FileTree))

namespace FileTree

def child? (name : String) (entries : List (String × FileTree)) : Option FileTree :=
  (entries.find? fun (n, _) => n = name).map Prod.snd

def sortByName (entries : List (String × FileTree)) : List (String × FileTree) :=
  entries.mergeSort fun a b => a.1 ≤ b.1

def setEntry (name : String) (tree : FileTree) :
    List (String × FileTree) → List (String × FileTree)
  | [] => [(name, tree)]
  | (n, t) :: rest => if n = name then (n, tree) :: rest else (n, t) :: setEntry name tree rest

def entries : FileTree → Except FileFault (List (String × FileTree))
  | file _ => .error .notDirectory
  | directory entries => .ok entries

def lookup : List String → FileTree → Except FileFault FileTree
  | [], t => .ok t
  | _ :: _, file _ => .error .notDirectory
  | name :: rest, directory entries => match child? name entries with
    | none => .error .notFound
    | some t => lookup rest t

def put (name : String) (new : FileTree) : List String → FileTree → Except FileFault FileTree
  | _, file _ => .error .notDirectory
  | [], directory entries => .ok (directory (setEntry name new entries))
  | n :: rest, directory entries => match child? n entries with
    | none => .error .notFound
    | some t => do return directory (setEntry n (← put name new rest t) entries)

end FileTree

end WeightedStore
