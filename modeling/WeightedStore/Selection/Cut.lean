import WeightedStore.Selection.Listing
import WeightedStore.Selection.Span
import WeightedStore.Weighted.Running

/-!
Selections cut from the rows of one index: intervals of places in the rows.
-/

namespace WeightedStore

/-- Tells row arrays apart: rows that were laid down together bear one stamp. -/
structure Stamp where
  operation : Nat
  part : Nat
  deriving DecidableEq, Repr

structure Backing where
  stamp : Stamp
  rows : List (UInt64 × Binary32)
  deriving DecidableEq

namespace Backing

def totals (b : Backing) : List Binary32 := b.rows.map Prod.snd

def entries (b : Backing) : List Entry := (b.rows.map Prod.fst).zip (Running.weights b.totals)

end Backing

structure Cut where
  name : String
  backing : Backing
  spans : Spans
  deriving DecidableEq

namespace Cut

def of (name : String) (backing : Backing) (spans : Spans) : Cut := ⟨name, backing, spans.proper⟩

def isEmpty (c : Cut) : Bool := c.spans.isEmpty

def entries (c : Cut) : List Entry :=
  let all := c.backing.entries
  c.spans.places.filterMap fun i => all[i]?

def total (c : Cut) : Binary32 :=
  .sum (c.spans.map fun s => Running.intervalWeight c.backing.totals s.start s.stop)

def sameRows (l r : Cut) : Bool := l.backing.stamp = r.backing.stamp

def intersection (l r : Cut) : Cut := { l with spans := l.spans.intersection r.spans }

def union (l r : Cut) : Cut := { l with spans := l.spans.union r.spans }

def toListing (c : Cut) : Listing := .ofEntries c.name c.entries

end Cut

end WeightedStore
