import WeightedStore.Random.Draw
import WeightedStore.Weighted.Bisect

/-!
Running totals of weights. They are all that is kept of a column of weights: a single weight is the
difference of two neighbours, and so is the weight of an interval.
-/

namespace WeightedStore.Running

def totalsFrom (total : Binary32) : List Binary32 → List Binary32
  | [] => []
  | w :: ws => (total + w) :: totalsFrom (total + w) ws

def totals (weights : List Binary32) : List Binary32 := totalsFrom .zero weights

/-- The weights back from their totals: the first total, and of the others each less the one before
it. -/
def weights : List Binary32 → List Binary32
  | [] => []
  | t :: ts => t :: List.zipWith (· - ·) ts (t :: ts)

def upTo? (totals : List Binary32) (i : Nat) : Option Binary32 := (Floating.zero :: totals)[i]?

def upTo (totals : List Binary32) (i : Nat) : Binary32 := (upTo? totals i).getD .zero

def intervalWeight? (totals : List Binary32) (start stop : Nat) : Option Binary32 :=
  if stop ≤ start then some .zero
  else do return (← upTo? totals stop) - (← upTo? totals start)

def intervalWeight (totals : List Binary32) (start stop : Nat) : Binary32 :=
  (intervalWeight? totals start stop).getD .zero

/-- The place from `start` to before `stop` where a point of the interval's weight falls. A point
that rounding puts on the upper end belongs to the place that reached it. -/
def placeOf (totals : List Binary32) (start stop : Nat) (point : Binary32) : Nat :=
  let slice := (totals.take stop).drop start
  let offset := Bisect.point (fun c => c.atMost point) slice
  if offset = slice.length then
    start + Bisect.point (fun c => c.below (upTo totals stop)) slice
  else start + offset

/-- A place from `start` to before `stop`, drawn by weight. An interval that is no part of the
column or that has no weight gives none, and takes no word. -/
def select (totals : List Binary32) (start stop : Nat) : Draw (Option Nat) :=
  if stop ≤ start ∨ totals.length < stop then return none
  else
    let low := upTo totals start
    let weight := upTo totals stop - low
    if weight.atMost .zero then return none
    else do
      let u ← Draw.coin
      return some (placeOf totals start stop (low + u * weight))

@[simp] theorem length_totalsFrom (total : Binary32) (ws : List Binary32) :
    (totalsFrom total ws).length = ws.length := by
  induction ws generalizing total with
  | nil => rfl
  | cons w ws ih => simp [totalsFrom, ih]

@[simp] theorem length_totals (ws : List Binary32) : (totals ws).length = ws.length :=
  length_totalsFrom _ _

@[simp] theorem length_weights (ts : List Binary32) : (weights ts).length = ts.length := by
  cases ts <;> simp [weights]

end WeightedStore.Running
