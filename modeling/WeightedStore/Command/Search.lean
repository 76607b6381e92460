import WeightedStore.Command.Arguments
import WeightedStore.Decimal.Fixed
import WeightedStore.Index.Basic
import WeightedStore.Json.Printer

/-!
What a search prints: the matches or draws of a selection, for people or as a JSON document.
-/

namespace WeightedStore

namespace Search

def shown (stream : WordStream) (selection : Selection) : Option Nat → List Entry
  | none => selection.entries
  | some count =>
    match (Sampled.sample { selection := selection } count) stream 0 with
    | some ((drawn, _), _) => drawn
    | none => []

def jsonReport (s : Search) (op : Operator) (selection : Selection) (entries : List Entry) :
    String :=
  Json.text (.ofFields [
    ("index", .ofString s.index),
    ("op", .ofString op.name),
    ("value", .ofString s.value),
    ("count", .ofNat selection.length),
    ("sum_weight", .ofFloat selection.total),
    ("matches", .array (entries.map fun (id, weight) =>
      .ofFields [("id", .ofNat id.toNat), ("weight", .ofFloat weight)]))]) ++ "\n"

def plainReport (s : Search) (op : Operator) (selection : Selection) (entries : List Entry) :
    String :=
  let found := s!"{selection.length} matches, weight {selection.total.text}"
  let heading := s!"Search {s.index} {op.name} {s.value} -> {found}\n"
  let drawn := if s.sample.isSome then s!"  → {entries.length} samples\n" else ""
  String.join (heading :: drawn :: entries.map fun (id, weight) =>
    s!"  {id.toNat} {weight.fixed 4}\n")

end Search

end WeightedStore
