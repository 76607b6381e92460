import WeightedStore.Random.Draw

/-!
Alias tables: drawing an outcome with given probabilities from one even draw and one coin. Each
column holds its own outcome up to its acceptance and one other outcome above it.
-/

namespace WeightedStore

structure AliasTable where
  acceptance : List Binary32
  redirect : List Nat
  deriving DecidableEq

namespace AliasTable

def empty : AliasTable := ⟨[], []⟩

def length (t : AliasTable) : Nat := t.acceptance.length

/-- A table under construction: `mass` is the probability that each outcome still has to place. -/
structure Sweep where
  mass : List Binary64
  acceptance : List Binary32
  redirect : List Nat

namespace Sweep

def massAt (s : Sweep) (i : Nat) : Binary64 := s.mass.getD i .zero

/-- Fills the column `less` up with the outcome `more`, of whose number 32 bits are kept. -/
def fill (s : Sweep) (count average : Binary64) (less more : Nat) : Sweep where
  mass := s.mass.set more (s.massAt more + s.massAt less - average)
  acceptance := s.acceptance.set less (s.massAt less * count).clampUnit.convert
  redirect := s.redirect.set less (more % UInt32.size)

def accept (s : Sweep) (i : Nat) : Sweep :=
  { s with acceptance := s.acceptance.set i (.ofNat 1) }

/-- Pairs the last of the outcomes at or under the average with the last of those over it until one
side has none; what is left fills its own column. -/
def run (count average : Binary64) (s : Sweep) (small large : List Nat) : Sweep :=
  match small, large with
  | less :: small, more :: large =>
    let s := s.fill count average less more
    if average.below (s.massAt more) then run count average s small (more :: large)
    else run count average s (more :: small) large
  | small, large => (small ++ large).foldl accept s
termination_by small.length + large.length

end Sweep

/-- The table of the given probabilities. Those that are no number count as small. -/
def ofProbabilities (probabilities : List Binary32) : AliasTable :=
  let n := probabilities.length
  let count : Binary64 := .ofNat n
  let average := .ofNat 1 / count
  let mass : List Binary64 := probabilities.map Floating.convert
  let start : Sweep := ⟨mass, List.replicate n .zero, List.replicate n 0⟩
  let large := (List.range n).filter fun i => average.below (start.massAt i)
  let small := (List.range n).filter fun i => !average.below (start.massAt i)
  let done := start.run count average small.reverse large.reverse
  ⟨done.acceptance, done.redirect⟩

def outcome (t : AliasTable) (column : Nat) (coin : Binary32) : Nat :=
  if coin.below (t.acceptance.getD column .zero) then column else t.redirect.getD column 0

def draw (t : AliasTable) : Draw (Option Nat) :=
  if t.length = 0 then return none
  else do
    let column ← Draw.below t.length
    let coin ← Draw.coin
    return some (t.outcome column coin)

end AliasTable

end WeightedStore
