/-!
Binary floating-point numbers of a fixed width, as a sign and a magnitude word. Words count up with
the magnitudes they stand for, and every finite magnitude is a whole number of the format's units,
a unit being its least positive number. So exact arithmetic on numbers is arithmetic on `Nat`.
-/

namespace WeightedStore

-- powers as the core library has them, whatever else is imported
attribute [local instance (high)] instPowNat

structure Format where
  fraction : Nat
  exponent : Nat

namespace Format

def single : Format := ⟨23, 8⟩

def double : Format := ⟨52, 11⟩

def words (f : Format) : Nat := 2 ^ (f.exponent + f.fraction)

/-- The word of infinity; the words above it stand for no number. -/
def top (f : Format) : Nat := (2 ^ f.exponent - 1) * 2 ^ f.fraction

def one (f : Format) : Nat := 2 ^ (2 ^ (f.exponent - 1) - 2 + f.fraction)

def units (f : Format) (w : Nat) : Nat :=
  if w < 2 ^ f.fraction then w
  else (2 ^ f.fraction + w % 2 ^ f.fraction) * 2 ^ (w / 2 ^ f.fraction - 1)

theorem words_pos (f : Format) : 0 < f.words := Nat.two_pow_pos _

theorem one_pos (f : Format) : 0 < f.one := Nat.two_pow_pos _

theorem top_lt_words (f : Format) : f.top < f.words := by
  unfold top words
  rw [Nat.pow_add]
  exact Nat.mul_lt_mul_of_pos_right (Nat.sub_lt (Nat.two_pow_pos _) Nat.one_pos) (Nat.two_pow_pos _)

@[simp] theorem units_zero (f : Format) : f.units 0 = 0 := by
  simp [units]

theorem units_eq (f : Format) (e : Nat) {m : Nat} (h : m < 2 ^ f.fraction) :
    f.units ((e + 1) * 2 ^ f.fraction + m) = (2 ^ f.fraction + m) * 2 ^ e := by
  have hp : 0 < 2 ^ f.fraction := Nat.two_pow_pos _
  have hd : ((e + 1) * 2 ^ f.fraction + m) / 2 ^ f.fraction = e + 1 := by
    rw [Nat.add_comm, Nat.add_mul_div_right _ _ hp, Nat.div_eq_of_lt h, Nat.zero_add]
  have hm : ((e + 1) * 2 ^ f.fraction + m) % 2 ^ f.fraction = m := by
    rw [Nat.add_comm, Nat.add_mul_mod_self_right, Nat.mod_eq_of_lt h]
  have hn : ¬(e + 1) * 2 ^ f.fraction + m < 2 ^ f.fraction := by
    rw [Nat.add_mul]
    omega
  rw [units, if_neg hn, hd, hm, Nat.add_sub_cancel]

theorem units_lt_units_succ (f : Format) (w : Nat) : f.units w < f.units (w + 1) := by
  have hp : 0 < 2 ^ f.fraction := Nat.two_pow_pos _
  have hm := Nat.mod_lt w hp
  have hw := Nat.div_add_mod' w (2 ^ f.fraction)
  rcases Nat.lt_or_ge (w + 1) (2 ^ f.fraction) with hlt | hge
  · rw [units, if_pos (by omega), units, if_pos hlt]
    exact Nat.lt_succ_self w
  · rcases Nat.eq_zero_or_pos (w / 2 ^ f.fraction) with hd | hd
    · rw [hd] at hw
      rw [show w + 1 = (0 + 1) * 2 ^ f.fraction + 0 by omega, f.units_eq 0 hp, units,
        if_pos (by omega)]
      omega
    · obtain ⟨e, he⟩ : ∃ e, w / 2 ^ f.fraction = e + 1 := ⟨w / 2 ^ f.fraction - 1, by omega⟩
      rw [he] at hw
      have hq : 0 < 2 ^ e := Nat.two_pow_pos _
      rcases Nat.lt_or_ge (w % 2 ^ f.fraction + 1) (2 ^ f.fraction) with hlt | hge
      · rw [← hw, Nat.add_assoc, f.units_eq e hm, f.units_eq e hlt]
        exact Nat.mul_lt_mul_of_pos_right (by omega) hq
      · have hs : w + 1 = (e + 1 + 1) * 2 ^ f.fraction + 0 := by
          rw [Nat.succ_mul (e + 1)]
          omega
        rw [hs, f.units_eq (e + 1) hp, ← hw, f.units_eq e hm, Nat.pow_succ, Nat.mul_comm (2 ^ e),
          ← Nat.mul_assoc]
        exact Nat.mul_lt_mul_of_pos_right (by omega) hq

theorem units_lt_units {f : Format} {v w : Nat} (h : v < w) : f.units v < f.units w := by
  induction h with
  | refl => exact f.units_lt_units_succ v
  | step _ ih => exact Nat.lt_trans ih (f.units_lt_units_succ _)

theorem units_injective {f : Format} {v w : Nat} (h : f.units v = f.units w) : v = w := by
  rcases Nat.lt_trichotomy v w with hlt | rfl | hgt
  · exact absurd h (Nat.ne_of_lt (units_lt_units hlt))
  · rfl
  · exact absurd h (Nat.ne_of_gt (units_lt_units hgt))

end Format

/-- A floating-point datum: two of them are equal when all their bits are. -/
structure Floating (f : Format) where
  negative : Bool
  word : Nat
  word_lt : word < f.words
  deriving DecidableEq

abbrev Binary32 := Floating .single

abbrev Binary64 := Floating .double

namespace Floating

variable {f : Format}

def ofWord (negative : Bool) (w : Nat) : Floating f :=
  ⟨negative, w % f.words, Nat.mod_lt _ f.words_pos⟩

theorem word_ofWord {negative : Bool} {w : Nat} (h : w < f.words) :
    (ofWord negative w : Floating f).word = w := Nat.mod_eq_of_lt h

def bits (x : Floating f) : Nat := (if x.negative then f.words else 0) + x.word

def ofBits (n : Nat) : Floating f := ofWord (decide (f.words ≤ n % (2 * f.words))) n

theorem bits_lt (x : Floating f) : x.bits < 2 * f.words := by
  have := x.word_lt
  unfold bits
  split <;> omega

@[simp] theorem ofBits_bits (x : Floating f) : ofBits x.bits = x := by
  have h := x.word_lt
  rw [ofBits, Nat.mod_eq_of_lt x.bits_lt]
  cases x with
  | mk negative w hw =>
    cases negative
    · simp [bits, ofWord, Nat.mod_eq_of_lt hw, Nat.not_le.2 hw]
    · simp [bits, ofWord, Nat.mod_eq_of_lt hw]

theorem bits_ofBits {n : Nat} (h : n < 2 * f.words) : (ofBits n : Floating f).bits = n := by
  rw [ofBits, Nat.mod_eq_of_lt h, bits, ofWord]
  dsimp only
  split
  · rename_i hw
    rw [decide_eq_true_eq] at hw
    rw [Nat.mod_eq_sub_mod hw, Nat.mod_eq_of_lt (by omega)]
    omega
  · rename_i hw
    rw [decide_eq_true_eq, Nat.not_le] at hw
    rw [Nat.mod_eq_of_lt hw, Nat.zero_add]

def isNaN (x : Floating f) : Bool := f.top < x.word

def isInfinite (x : Floating f) : Bool := x.word = f.top

def isFinite (x : Floating f) : Bool := x.word < f.top

/-- The magnitude in units; infinity counts as the power of two after the last finite number. -/
def units (x : Floating f) : Nat := f.units x.word

def value (x : Floating f) : Int := if x.negative then -(x.units : Int) else x.units

/-- The place of a datum in the total order of all data: negative before positive, and among the
positive a larger word later. -/
def rank (x : Floating f) : Int := if x.negative then -(x.word : Int) - 1 else x.word

def zero : Floating f := ofWord false 0

def negativeZero : Floating f := ofWord true 0

def infinity (negative : Bool) : Floating f := ofWord negative f.top

def nan (negative : Bool) : Floating f := ofWord negative (f.top + 2 ^ (f.fraction - 1))

theorem rank_injective {x y : Floating f} (h : x.rank = y.rank) : x = y := by
  obtain ⟨s, v, hv⟩ := x
  obtain ⟨t, w, hw⟩ := y
  cases s <;> cases t <;> simp only [rank, if_true, if_false, Bool.false_eq_true] at h
  · obtain rfl : v = w := by omega
    rfl
  · omega
  · omega
  · obtain rfl : v = w := by omega
    rfl

end Floating

end WeightedStore
