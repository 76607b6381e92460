import WeightedStore.Files.Change
import WeightedStore.Proofs.Bytes.Encoding

/-!
Writing files. What was written is read back, and a file of another name that was there is read as before: a
tree with something put at a place has the directories it had, with what they held, and all of its files but the
one at that place. Making a directory makes those above it and writes nothing.
-/

namespace WeightedStore

namespace FileTree

variable {new t t' : FileTree} {name n : String} {place q : List String} {entries : List (String × FileTree)}

end FileTree

namespace FileSystem

open FileTree

variable {files files' : FileSystem} {p q : Path} {names names' : List String} {steps : List Step}

namespace Puts

variable {bytes : List UInt8} {name : String}

end Puts

theorem read_eq_ok_iff {path : String} {bytes : List UInt8} : files.read path = .ok bytes ↔
    ∃ p, Path.read path = .ok p ∧ files.get p = .ok (.file bytes) := by
  rw [read]
  cases Path.read path with
  | error fault => simp [bind, Except.bind]
  | ok p =>
    cases hget : files.get p with
    | error fault => simp [bind, Except.bind, hget]
    | ok t => cases t <;> simp [bind, Except.bind, hget]

end FileSystem

namespace Changing

section Steps

variable {ε φ α β : Type} {run : Changing ε α} {c c' : Changed} {x : α}

end Steps

variable {c c' : Changed} {path other n : String} {bytes old : List UInt8}

def OnlyMakes (c c' : Changed) : Prop := ∃ made : List Path, c'.changes = c.changes ++ made.map .makeDirectory

theorem OnlyMakes.refl (c : Changed) : OnlyMakes c c := ⟨[], (List.append_nil _).symm⟩

theorem OnlyMakes.trans {c'' : Changed} (h : OnlyMakes c c') (h' : OnlyMakes c' c'') : OnlyMakes c c'' := by
  obtain ⟨made, h⟩ := h
  obtain ⟨made', h'⟩ := h'
  exact ⟨made ++ made', by rw [h', h, List.append_assoc, List.map_append]⟩

end Changing

end WeightedStore
