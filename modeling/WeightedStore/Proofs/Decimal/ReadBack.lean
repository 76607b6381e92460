import Mathlib.Data.List.TakeDrop
import WeightedStore.Decimal.Shortest
import WeightedStore.Proofs.Binary.Rounding

/-!
Texts of floating-point numbers that read back. The search for the shortest numeral ends with one
that is read back as the number, the exact one if need be; and a numeral's text, which has no
exponent, is read as a numeral of the same value. So different numbers have different texts.
-/

namespace WeightedStore

-- powers as the core library has them, whatever else is imported
attribute [local instance (high)] instPowNat

namespace Numeral

def spelled (d : Numeral) : Numeral :=
  if 0 ≤ d.exponent then ⟨10 ^ d.exponent.toNat * d.digits, 0⟩ else d

variable {ds rest fs : List Char}

theorem span_digits (hd : ∀ c ∈ ds, c.isDigit = true) (hr : ∀ c ∈ rest.head?, c.isDigit = false) :
    (ds ++ rest).span Char.isDigit = (ds, rest) := by
  have hrest : rest.takeWhile Char.isDigit = [] ∧ rest.dropWhile Char.isDigit = rest := by
    cases rest with
    | nil => exact ⟨rfl, rfl⟩
    | cons c rest => simp [hr c rfl]
  rw [List.span_eq_takeWhile_dropWhile, List.takeWhile_append_of_pos hd,
    List.dropWhile_append_of_pos hd, hrest.1, hrest.2, List.append_nil]

theorem span_all_digits (hd : ∀ c ∈ ds, c.isDigit = true) : ds.span Char.isDigit = (ds, []) := by
  have h : (ds ++ []).span Char.isDigit = (ds, []) := span_digits hd nofun
  rwa [List.append_nil] at h

theorem read_digits (hne : ds ≠ []) (hd : ∀ c ∈ ds, c.isDigit = true) :
    read ds = some ⟨Nat.ofDigitChars 10 ds 0, 0⟩ := by
  rw [read, span_all_digits hd]
  simp [splitFraction, readExponent, hne]

theorem read_point (hne : ds ≠ []) (hd : ∀ c ∈ ds, c.isDigit = true)
    (hf : ∀ c ∈ fs, c.isDigit = true) :
    read (ds ++ '.' :: fs) = some ⟨Nat.ofDigitChars 10 (ds ++ fs) 0, -fs.length⟩ := by
  have hspan : (ds ++ '.' :: fs).span Char.isDigit = (ds, '.' :: fs) := by
    refine span_digits hd fun c hc => ?_
    obtain rfl : '.' = c := Option.some.inj hc
    rfl
  have hfraction : splitFraction ('.' :: fs) = (fs, []) := span_all_digits hf
  rw [read, hspan]
  simp [hfraction, readExponent, hne]

theorem ofDigitChars_toDigits (n : Nat) : Nat.ofDigitChars 10 (Nat.toDigits 10 n) 0 = n :=
  Nat.ofDigitChars_toDigits (by decide) (by decide)

theorem isDigit_of_mem_replicate {k : Nat} {c : Char} (h : c ∈ List.replicate k '0') :
    c.isDigit = true := by
  rw [(List.mem_replicate.1 h).2]
  rfl

theorem isDigit_of_mem_toDigits {n : Nat} {c : Char} (h : c ∈ Nat.toDigits 10 n) :
    c.isDigit = true :=
  Nat.isDigit_of_mem_toDigits (by decide) (by decide) h

theorem positional_eq (d : Numeral) :
    (0 ≤ d.exponent ∧
      d.positional = Nat.toDigits 10 d.digits ++ List.replicate d.exponent.toNat '0') ∨
    (d.exponent < 0 ∧ ∃ ds fs, d.positional = ds ++ '.' :: fs ∧ ds ≠ [] ∧
      (fs.length : Int) = -d.exponent ∧ Nat.ofDigitChars 10 (ds ++ fs) 0 = d.digits ∧
      ∀ c ∈ ds ++ fs, c.isDigit = true) := by
  rw [positional]
  by_cases he : 0 ≤ d.exponent
  · exact Or.inl ⟨he, if_pos he⟩
  · rw [if_neg he]
    dsimp only
    generalize hp : (-d.exponent).toNat = places
    generalize hpad : List.replicate (places + 1 - (Nat.toDigits 10 d.digits).length) '0' ++
      Nat.toDigits 10 d.digits = padded
    have hlength : places < padded.length := by
      rw [← hpad, List.length_append, List.length_replicate]
      omega
    refine Or.inr ⟨Int.not_le.1 he, padded.take (padded.length - places),
      padded.drop (padded.length - places), rfl, ?_, ?_, ?_⟩
    · rw [ne_eq, List.take_eq_nil_iff, not_or, ← List.length_eq_zero_iff]
      omega
    · rw [List.length_drop]
      omega
    · rw [List.take_append_drop, ← hpad]
      refine ⟨?_, fun c hc => ?_⟩
      · rw [Nat.ofDigitChars_append, Nat.ofDigitChars_replicate_zero, Nat.mul_zero,
          ofDigitChars_toDigits]
      · exact (List.mem_append.1 hc).elim isDigit_of_mem_replicate isDigit_of_mem_toDigits

theorem read_positional (d : Numeral) : read d.positional = some d.spelled := by
  rw [spelled]
  rcases d.positional_eq with ⟨he, htext⟩ | ⟨he, ds, fs, htext, hne, hlength, hdigits, hall⟩
  · have hne : d.positional ≠ [] := by simp [htext]
    have hall : ∀ c ∈ d.positional, c.isDigit = true := fun c hc =>
      (List.mem_append.1 (htext ▸ hc)).elim isDigit_of_mem_toDigits isDigit_of_mem_replicate
    have hread : read d.positional = some ⟨Nat.ofDigitChars 10 d.positional 0, 0⟩ :=
      read_digits hne hall
    rw [hread, if_pos he, htext, Nat.ofDigitChars_append, ofDigitChars_toDigits,
      Nat.ofDigitChars_replicate_zero]
  · have hd : ∀ c ∈ ds, c.isDigit = true := fun c hc => hall c (List.mem_append_left _ hc)
    have hf : ∀ c ∈ fs, c.isDigit = true := fun c hc => hall c (List.mem_append_right _ hc)
    rw [htext, read_point hne hd hf, if_neg (Int.not_le.2 he), hdigits, hlength, Int.neg_neg]

theorem exists_digit_toDigits (n : Nat) : ∃ c cs, Nat.toDigits 10 n = c :: cs ∧ c.isDigit = true := by
  obtain ⟨c, cs, hcs⟩ := List.exists_cons_of_ne_nil (Nat.toDigits_ne_nil : Nat.toDigits 10 n ≠ [])
  exact ⟨c, cs, hcs, isDigit_of_mem_toDigits (hcs ▸ List.mem_cons_self)⟩

theorem exists_digit_positional (d : Numeral) :
    ∃ c cs, d.positional = c :: cs ∧ c.isDigit = true := by
  rcases d.positional_eq with ⟨-, htext⟩ | ⟨-, ds, fs, htext, hne, -, -, hall⟩
  · obtain ⟨c, cs, hcs, hc⟩ := exists_digit_toDigits d.digits
    exact ⟨c, cs ++ List.replicate d.exponent.toNat '0', by rw [htext, hcs, List.cons_append], hc⟩
  · obtain ⟨c, cs, rfl⟩ := List.exists_cons_of_ne_nil hne
    exact ⟨c, cs ++ '.' :: fs, htext, hall c List.mem_cons_self⟩

end Numeral

namespace Floating

variable {f : Format}

theorem ofNumeral_spelled (negative : Bool) {d : Numeral} (h : d.exponent ≤ 2 ^ f.exponent) :
    (ofNumeral negative d.spelled : Floating f) = ofNumeral negative d := by
  rw [Numeral.spelled]
  by_cases he : 0 ≤ d.exponent
  · rw [if_pos he]
    have hzero : 10 ^ d.exponent.toNat * d.digits = 0 ↔ d.digits = 0 := by
      rw [Nat.mul_eq_zero]
      exact or_iff_right (Nat.ne_of_gt (Nat.pow_pos (by decide)))
    have hreach : ((2 ^ f.exponent : Nat) : Int) = 2 ^ f.exponent := Int.natCast_pow 2 _
    have hpos : (0 : Int) < 2 ^ f.exponent := by
      rw [← hreach]
      exact Int.natCast_pos.2 (Nat.two_pow_pos _)
    unfold ofNumeral
    simp only [hzero, hreach]
    by_cases hd : d.digits = 0
    · rw [if_pos hd, if_pos hd]
    · rw [if_neg hd, if_neg hd, if_neg (by omega), if_neg (by omega), if_neg (by omega),
        if_neg (by omega)]
      have hnone : (-d.exponent).toNat = 0 := by omega
      simp [Numeral.numerator, Numeral.denominator, hnone, Nat.mul_comm]
  · rw [if_neg he]

theorem exponent_of_onGrid {tie : Tie} {x : Floating f} {e : Int} {d : Numeral}
    (h : x.onGrid tie e = some d) : d.exponent = e := by
  unfold onGrid at h
  dsimp only at h
  split at h
  · split at h <;> exact (congrArg Numeral.exponent (Option.some.inj h)).symm
  · split at h
    · exact (congrArg Numeral.exponent (Option.some.inj h)).symm
    · cases h

theorem exponent_le_of_coarsest {tie : Tie} {x : Floating f} {count : Nat} {e : Int} {d : Numeral}
    (h : x.coarsest tie count e = some d) : d.exponent ≤ e := by
  induction count generalizing e with
  | zero => cases h
  | succ n ih =>
    rw [coarsest, Option.or_eq_some_iff] at h
    rcases h with h | ⟨_, h⟩
    · exact Int.le_of_eq (exponent_of_onGrid h)
    · have := ih h
      omega

theorem word_eq_zero_of_units {x : Floating f} (h : x.units = 0) : x.word = 0 :=
  Format.units_injective (h.trans f.units_zero.symm)

section Single

variable {x : Binary32}

theorem finest_single : finest .single = 149 := by decide

theorem widest_single : widest .single = 43 := by decide

/-- The exact numeral counts units in powers of ten, and rounding it changes nothing. -/
theorem readsBack_exact (hx : x.isNaN = false) (hne : x.units ≠ 0) : x.readsBack x.exact = true := by
  have hdigits : x.units * 5 ^ 149 ≠ 0 :=
    Nat.mul_ne_zero hne (Nat.ne_of_gt (Nat.pow_pos (by decide)))
  have hscale : x.units * 5 ^ 149 * Format.single.one = Format.single.units x.word * 10 ^ 149 := by
    rw [Nat.mul_assoc]
    rfl
  have hword : x.word ≤ Format.single.top := by simpa [isNaN] using hx
  have habove : ¬((2 ^ Format.single.exponent : Nat) : Int) < -(149 : Nat) := by decide
  have hbelow (n : Nat) : ¬(-(149 : Nat) : Int) + n < -((2 ^ Format.single.exponent : Nat) : Int) := by
    have : (2 ^ Format.single.exponent : Nat) = 256 := rfl
    omega
  rw [readsBack, decide_eq_true_eq, exact, finest_single, ofNumeral, if_neg hdigits, if_neg habove,
    if_neg (hbelow _), ofRatio]
  have hratio : Format.single.round (Numeral.numerator ⟨x.units * 5 ^ 149, -(149 : Nat)⟩ *
      Format.single.one) (Numeral.denominator ⟨x.units * 5 ^ 149, -(149 : Nat)⟩) = x.word := by
    have hnumerator : Numeral.numerator ⟨x.units * 5 ^ 149, -(149 : Nat)⟩ = x.units * 5 ^ 149 :=
      Nat.mul_one _
    have hdenominator : Numeral.denominator ⟨x.units * 5 ^ 149, -(149 : Nat)⟩ = 10 ^ 149 := rfl
    rw [hnumerator, hdenominator, hscale, Format.round_units_mul hword (by decide)]
  rw [hratio, ofWord_word]

theorem readsBack_shortest (tie : Tie) (hx : x.isNaN = false) :
    x.readsBack (x.shortest tie) = true := by
  rw [shortest]
  split
  · rename_i hzero
    have h := x.ofWord_word
    rw [word_eq_zero_of_units hzero] at h
    simpa [readsBack, ofNumeral] using h
  · rename_i hne
    cases hc : x.coarsest tie (widest .single + finest .single + 1) (widest .single) with
    | some d => exact coarsest_readsBack hc
    | none => exact readsBack_exact hx hne

theorem exponent_shortest_le (tie : Tie) (x : Binary32) : (x.shortest tie).exponent ≤ 256 := by
  rw [shortest]
  split
  · decide
  · cases hc : x.coarsest tie (widest .single + finest .single + 1) (widest .single) with
    | some d =>
      have := exponent_le_of_coarsest hc
      rw [widest_single] at this
      simp only [Option.getD_some]
      omega
    | none =>
      simp only [Option.getD_none, exact, finest_single]
      decide

end Single

theorem toLower_of_isDigit {c : Char} (h : c.isDigit = true) : c.toLower = c := by
  have hle : c.val ≤ '9'.val := of_decide_eq_true (Bool.and_eq_true_iff.1 h).2
  have hlt : c.val < 'A'.val := UInt32.lt_of_le_of_lt hle (by decide)
  exact dif_neg fun hupper => UInt32.not_le.2 hlt hupper.1

theorem readUnsigned_positional (negative : Bool) (d : Numeral) :
    (readUnsigned negative d.positional : Option (Floating f)) =
      some (ofNumeral negative d.spelled) := by
  obtain ⟨c, cs, hcs, hc⟩ := d.exists_digit_positional
  have hword (w : Char) (word : List Char) (hw : w.isDigit = false) :
      String.ofList (d.positional.map Char.toLower) ≠ String.ofList (w :: word) := by
    intro heq
    rw [hcs, List.map_cons, toLower_of_isDigit hc, String.ofList_inj] at heq
    obtain rfl := (List.cons.inj heq).1
    exact Bool.false_ne_true (hw.symm.trans hc)
  have hinf : ¬(String.ofList (d.positional.map Char.toLower) = "inf" ∨
      String.ofList (d.positional.map Char.toLower) = "infinity") :=
    not_or.2 ⟨hword 'i' ['n', 'f'] rfl, hword 'i' ['n', 'f', 'i', 'n', 'i', 't', 'y'] rfl⟩
  have hnan : String.ofList (d.positional.map Char.toLower) ≠ "nan" := hword 'n' ['a', 'n'] rfl
  rw [readUnsigned, if_neg hinf, if_neg hnan, d.read_positional]
  rfl

theorem readChars_signed (negative : Bool) {c : Char} (cs : List Char) (hminus : c ≠ '-')
    (hplus : c ≠ '+') :
    (readChars (signed negative (c :: cs)) : Option (Floating f)) =
      readUnsigned negative (c :: cs) := by
  cases negative with
  | true => rfl
  | false => simp [signed, readChars, hminus, hplus]

theorem isDigit_ne {c d : Char} (h : c.isDigit = true) (hd : d.isDigit = false) : c ≠ d := by
  rintro rfl
  exact Bool.false_ne_true (hd.symm.trans h)

/-- What is printed of a number reads back as the number, both zeros and both infinities told
apart. -/
theorem readChars_chars {x : Binary32} (hx : x.isNaN = false) : readChars x.chars = some x := by
  rw [chars, hx, if_neg Bool.false_ne_true]
  split
  · rename_i hinf
    have hword : x.word = Format.single.top := of_decide_eq_true hinf
    have hread : (readUnsigned x.negative "inf".toList : Option Binary32) =
        some (infinity x.negative) := rfl
    rw [show "inf".toList = 'i' :: ['n', 'f'] from rfl, readChars_signed _ _ (by decide) (by decide)]
    refine hread.trans ?_
    rw [infinity, ← hword, ofWord_word]
  · obtain ⟨c, cs, hcs, hc⟩ := (x.shortest .upper).exists_digit_positional
    have hback : ofNumeral x.negative (x.shortest .upper) = x :=
      of_decide_eq_true (readsBack_shortest .upper hx)
    rw [hcs, readChars_signed _ _ (isDigit_ne hc rfl) (isDigit_ne hc rfl), ← hcs,
      readUnsigned_positional, ofNumeral_spelled _ (exponent_shortest_le .upper x), hback]

theorem chars_injective {x y : Binary32} (hx : x.isNaN = false) (hy : y.isNaN = false)
    (h : x.chars = y.chars) : x = y := by
  have hread := readChars_chars hx
  rw [h, readChars_chars hy] at hread
  exact (Option.some.inj hread).symm

end Floating

end WeightedStore
