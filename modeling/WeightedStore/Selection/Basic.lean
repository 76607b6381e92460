import WeightedStore.Selection.Buckets
import WeightedStore.Selection.Cut
import WeightedStore.Weighted.Pool

/-!
Selections of weighted ids, as searches answer them. Two selections of one kind and source are
combined as they are; all others are first listed by id.
-/

namespace WeightedStore

inductive Selection
  | listing (l : Listing)
  | buckets (b : BucketSelection)
  | cut (c : Cut)
  deriving DecidableEq

namespace Selection

def empty (name : String) : Selection := .listing ⟨name, [], List.Pairwise.nil⟩

def name : Selection → String
  | listing l => l.name
  | buckets b => b.name
  | cut c => c.name

def entries : Selection → List Entry
  | listing l => l.entries
  | buckets b => b.entries
  | cut c => c.entries

def ids (s : Selection) : List UInt64 := s.entries.map Prod.fst

def weights (s : Selection) : List Binary32 := s.entries.map Prod.snd

def sortedIds (s : Selection) : List UInt64 := s.ids.mergeSort (· ≤ ·)

def length : Selection → Nat
  | listing l => l.entries.length
  | buckets b => b.entries.length
  | cut c => c.spans.length

def isEmpty (s : Selection) : Bool := s.length = 0

def total : Selection → Binary32
  | listing l => .sum (l.entries.map Prod.snd)
  | buckets b => b.total
  | cut c => c.total

def toListing : Selection → Listing
  | listing l => l
  | buckets b => b.toListing
  | cut c => c.toListing

def intersection (l r : Selection) : Selection :=
  match l, r with
  | buckets a, buckets b =>
    if a.name = b.name then .buckets (a.intersection b)
    else .listing (a.toListing.intersection b.toListing)
  | cut a, cut b =>
    if a.sameRows b then .cut (a.intersection b)
    else .listing (a.toListing.intersection b.toListing)
  | l, r => .listing (l.toListing.intersection r.toListing)

def union (l r : Selection) : Selection :=
  match l, r with
  | buckets a, buckets b =>
    if a.name = b.name then .buckets (a.union b)
    else .listing (a.toListing.union b.toListing)
  | cut a, cut b =>
    if a.sameRows b then .cut (a.union b)
    else .listing (a.toListing.union b.toListing)
  | l, r => .listing (l.toListing.union r.toListing)

def pool? (s : Selection) : Option (Pool UInt64) :=
  match Pool.ofPairs s.entries with
  | .ok pool => if pool.drawable then some pool else none
  | .error _ => none

end Selection

/-- A selection with the pool it is sampled from, which is made at the first sample and kept. -/
structure Sampled where
  selection : Selection
  prepared : Option (Option (Pool UInt64)) := none
  deriving DecidableEq

namespace Sampled

def isReady (s : Sampled) : Bool := s.prepared.isSome

/-- Draws `count` entries by weight, or none at all from a selection without a pool. -/
def sample (s : Sampled) (count : Nat) : Draw (List Entry × Sampled) := do
  let pool? := s.prepared.getD s.selection.pool?
  let ready := { s with prepared := some pool? }
  match pool? with
  | none => return ([], ready)
  | some pool => return (← Draw.repeated pool.draw count, ready)

def intersection (l r : Sampled) : Sampled := { selection := l.selection.intersection r.selection }

def union (l r : Sampled) : Sampled := { selection := l.selection.union r.selection }

/-- The selection listed by id. One that is a list already keeps its pool. -/
def toListing (s : Sampled) : Sampled :=
  match s.selection with
  | .listing _ => s
  | other => { selection := .listing other.toListing }

end Sampled

end WeightedStore
