import WeightedStore.Binary.Arithmetic

/-!
Draws from a stream of random words. A draw counts the words it takes, and has no answer when the
patience of the stream runs out.
-/

namespace WeightedStore

-- powers as the core library has them, whatever else is imported
attribute [local instance (high)] instPowNat

/-- An endless stream of 64-bit words. `patience` is the number of words in a row that a draw may
look at before it gives up. -/
structure WordStream where
  word : Nat → UInt64
  patience : Nat

namespace WordStream

/-- The word that the SplitMix64 sequence of a seed has at a position. -/
def mixed (seed : UInt64) (position : Nat) : UInt64 :=
  let z := seed + UInt64.ofNat (position + 1) * 0x9E3779B97F4A7C15
  let z := (z ^^^ (z >>> 30)) * 0xBF58476D1CE4E5B9
  let z := (z ^^^ (z >>> 27)) * 0x94D049BB133111EB
  z ^^^ (z >>> 31)

def scripted (words : List UInt64) (seed : UInt64) : WordStream where
  word i := words.getD i (mixed seed (i - words.length))
  patience := words.length + 1024

end WordStream

abbrev Draw := ReaderT WordStream (StateT Nat Option)

namespace Draw

def word : Draw UInt64 := fun stream used => some (stream.word used, used + 1)

/-- The largest low half of a product that is accepted when drawing below `n`: the multiples of `n`
under this bound fall evenly on the high halves. -/
def zone (n : Nat) : Nat := n * 2 ^ (63 - n.log2) - 1

/-- The high half of `n` times the first of at most `attempts` words whose low half is accepted. -/
def accepted (n : Nat) : Nat → Draw Nat
  | 0 => fun _ _ => none
  | attempts + 1 => do
    let product := (← word).toNat * n
    if product % UInt64.size ≤ zone n then return product / UInt64.size
    else accepted n attempts

def below (n : Nat) : Draw Nat := do accepted n (← read).patience

def sides : Nat := 2 ^ (24 : Nat)

/-- A multiple of `1 / sides` from zero to below one, out of the low half of a word. -/
def coin : Draw Binary32 := do
  let side := (← word).toNat % UInt32.size / (UInt32.size / sides)
  return .ofRatio false (side * Format.single.one) sides

def repeated {α : Type} (d : Draw (Option α)) : Nat → Draw (List α)
  | 0 => return []
  | n + 1 => do
    let x ← d
    let xs ← repeated d n
    return x.toList ++ xs

theorem accepted_succ (n attempts : Nat) (stream : WordStream) (used : Nat) :
    accepted n (attempts + 1) stream used =
      if (stream.word used).toNat * n % UInt64.size ≤ zone n then
        some ((stream.word used).toNat * n / UInt64.size, used + 1)
      else accepted n attempts stream (used + 1) := by
  simp only [accepted, word, bind, ReaderT.bind, StateT.bind, Option.bind]
  split <;> rfl

theorem accepted_lt {n attempts used k used' : Nat} {stream : WordStream} (hn : 0 < n)
    (h : accepted n attempts stream used = some (k, used')) : k < n := by
  induction attempts generalizing used with
  | zero => cases h
  | succ attempts ih =>
    rw [accepted_succ] at h
    split at h
    · obtain ⟨rfl, _⟩ := Prod.mk.inj (Option.some.inj h)
      rw [Nat.div_lt_iff_lt_mul (by decide), Nat.mul_comm]
      exact Nat.mul_lt_mul_of_pos_left (UInt64.toNat_lt _) hn
    · exact ih h

theorem below_lt {n used k used' : Nat} {stream : WordStream} (hn : 0 < n)
    (h : below n stream used = some (k, used')) : k < n := accepted_lt hn h

end Draw

end WeightedStore
