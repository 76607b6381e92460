import WeightedStore.Decimal.Numeral

/-!
The shortest decimal of a floating-point number: of the grids of multiples of a power of ten, the
coarsest one that has a point which reads back as the number, and on it the nearer of the two points
beside the number. Which of two equally near ones it is, the format of the text decides. Main fact:
a numeral that the search finds reads back as the number.
-/

namespace WeightedStore

-- powers as the core library has them, whatever else is imported
attribute [local instance (high)] instPowNat

inductive Tie
  | upper
  | even
  deriving DecidableEq, Repr

def Tie.picksUpper : Tie → Nat → Bool
  | upper, _ => true
  | even, k => k % 2 = 1

namespace Floating

variable {f : Format}

def readsBack (x : Floating f) (d : Numeral) : Bool := ofNumeral x.negative d = x

/-- The point of the grid of multiples of `10 ^ e` that stands for the number, if one does. Of two
the nearer one is taken. -/
def onGrid (tie : Tie) (x : Floating f) (e : Int) : Option Numeral :=
  let n := x.units * 10 ^ (-e).toNat
  let d := f.one * 10 ^ e.toNat
  let lower : Numeral := ⟨n / d, e⟩
  let upper : Numeral := ⟨n / d + 1, e⟩
  let nearer := d < 2 * (n % d) || d = 2 * (n % d) && tie.picksUpper (n / d)
  if x.readsBack lower then
    if x.readsBack upper && nearer then some upper else some lower
  else if x.readsBack upper then some upper
  else none

def coarsest (tie : Tie) (x : Floating f) : Nat → Int → Option Numeral
  | 0, _ => none
  | count + 1, e => (x.onGrid tie e).or (x.coarsest tie count (e - 1))

def finest (f : Format) : Nat := f.one.log2

def widest (f : Format) : Nat := 2 ^ (f.exponent - 1) / 3 + 1

def exact (x : Floating f) : Numeral := ⟨x.units * 5 ^ finest f, -finest f⟩

def shortest (tie : Tie) (x : Floating f) : Numeral :=
  if x.units = 0 then ⟨0, 0⟩
  else (x.coarsest tie (widest f + finest f + 1) (widest f)).getD x.exact

theorem onGrid_readsBack {tie : Tie} {x : Floating f} {e : Int} {d : Numeral}
    (h : x.onGrid tie e = some d) : x.readsBack d = true := by
  unfold onGrid at h
  dsimp only at h
  split at h
  · split at h
    · rename_i h'
      obtain rfl := Option.some.inj h
      exact (Bool.and_eq_true_iff.1 h').1
    · obtain rfl := Option.some.inj h
      assumption
  · split at h
    · obtain rfl := Option.some.inj h
      assumption
    · exact absurd h (by simp)

theorem coarsest_readsBack {tie : Tie} {x : Floating f} {count : Nat} {e : Int} {d : Numeral}
    (h : x.coarsest tie count e = some d) : x.readsBack d = true := by
  induction count generalizing e with
  | zero => simp [coarsest] at h
  | succ n ih =>
    rw [coarsest, Option.or_eq_some_iff] at h
    rcases h with h | ⟨_, h⟩
    · exact onGrid_readsBack h
    · exact ih h

end Floating

namespace Numeral

def positional (x : Numeral) : List Char :=
  let ds := Nat.toDigits 10 x.digits
  if 0 ≤ x.exponent then ds ++ List.replicate x.exponent.toNat '0'
  else
    let places := (-x.exponent).toNat
    let padded := List.replicate (places + 1 - ds.length) '0' ++ ds
    padded.take (padded.length - places) ++ '.' :: padded.drop (padded.length - places)

def scientific (x : Numeral) : List Char :=
  let ds := Nat.toDigits 10 x.digits
  let e : Int := x.exponent + ds.length - 1
  let mantissa := match ds with
    | [] => []
    | d :: rest => if rest = [] then [d] else d :: '.' :: rest
  mantissa ++ 'e' :: (if 0 ≤ e then '+' :: (toString e).toList else (toString e).toList)

end Numeral

namespace Floating

variable {f : Format}

def signed (negative : Bool) (cs : List Char) : List Char := if negative then '-' :: cs else cs

/-- The shortest text of a datum that is read back as the same number. A number halfway between two
such texts gets the one further from zero. -/
def chars (x : Floating f) : List Char :=
  if x.isNaN then "NaN".toList
  else if x.isInfinite then signed x.negative "inf".toList
  else signed x.negative (x.shortest .upper).positional

def text (x : Floating f) : String := String.ofList x.chars

end Floating

end WeightedStore
