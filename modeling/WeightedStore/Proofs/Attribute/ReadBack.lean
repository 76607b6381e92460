import WeightedStore.Proofs.Attribute.Labels

/-!
Labels read back. The digits of a whole number add up to it, none of them past a bound that the number keeps
to, and there is nothing in a number's text that is skipped as blank. So the label of a value is read as the
value, unless it is the label of what is no number.
-/

namespace WeightedStore

namespace Text

variable {bound : Nat} {cs : List Char}

theorem dropWhile_isBlank_of_forall (h : ∀ c ∈ cs, isBlank c = false) : cs.dropWhile isBlank = cs :=
  List.dropWhile_eq_self_iff.2 fun hlength => by simp [h _ (List.getElem_mem hlength)]

theorem trimChars_of_forall (h : ∀ c ∈ cs, isBlank c = false) : trimChars cs = cs := by
  rw [trimChars, dropWhile_isBlank_of_forall h,
    dropWhile_isBlank_of_forall fun c hc => h c (List.mem_reverse.1 hc), List.reverse_reverse]

theorem trim_ofList (h : ∀ c ∈ cs, isBlank c = false) : trim (String.ofList cs) = String.ofList cs := by
  rw [trim, String.toList_ofList, trimChars_of_forall h]

theorem isBlank_of_isDigit {c : Char} (h : c.isDigit = true) : isBlank c = false := by
  obtain ⟨hlow, hhigh⟩ := Bool.and_eq_true_iff.1 h
  have hlow : 48 ≤ c.toNat := UInt32.le_iff_toNat_le.1 (of_decide_eq_true hlow)
  have hhigh : c.toNat ≤ 57 := UInt32.le_iff_toNat_le.1 (of_decide_eq_true hhigh)
  simp only [isBlank, blankRanges, List.any_cons, List.any_nil, Bool.or_false, Bool.or_eq_false_iff,
    Bool.and_eq_false_iff, decide_eq_false_iff_not]
  omega

theorem isBlank_of_mem_toDigits {n : Nat} {c : Char} (h : c ∈ Nat.toDigits 10 n) : isBlank c = false :=
  isBlank_of_isDigit (Numeral.isDigit_of_mem_toDigits h)

theorem le_ofDigitChars (cs : List Char) (n : Nat) : n ≤ Nat.ofDigitChars 10 cs n := by
  rw [Nat.ofDigitChars_eq_ofDigitChars_zero]
  exact (Nat.le_mul_of_pos_left n (Nat.pow_pos (by decide))).trans (Nat.le_add_right _ _)

theorem readDigits_of_le (past : IntegerFault) {n : Nat} (hd : ∀ c ∈ cs, c.isDigit = true)
    (hbound : Nat.ofDigitChars 10 cs n ≤ bound) :
    readDigits bound past cs n = .ok (Nat.ofDigitChars 10 cs n) := by
  induction cs generalizing n with
  | nil => rfl
  | cons c cs ih =>
    obtain ⟨hc, hd⟩ := List.forall_mem_cons.1 hd
    rw [Nat.ofDigitChars_cons] at hbound ⊢
    have hnext := (le_ofDigitChars cs _).trans hbound
    rw [readDigits, if_pos hc, if_neg (Nat.not_lt.2 hnext)]
    exact ih hd hbound

theorem readDigits_toDigits (past : IntegerFault) {n : Nat} (h : n ≤ bound) :
    readDigits bound past (Nat.toDigits 10 n) 0 = .ok n := by
  have hvalue := Numeral.ofDigitChars_toDigits n
  rw [readDigits_of_le past (fun c hc => Numeral.isDigit_of_mem_toDigits hc) (by rwa [hvalue]), hvalue]

theorem readNat_toDigits {n : Nat} (h : n ≤ bound) : readNat bound (Nat.toDigits 10 n) = .ok n := by
  obtain ⟨c, cs, hcs, hc⟩ := Numeral.exists_digit_toDigits n
  have hplus : c ≠ '+' := Floating.isDigit_ne hc rfl
  rw [← readDigits_toDigits .tooLarge h, hcs, readNat] <;> simp [hplus]

theorem readInt_toDigits {n : Nat} (h : n ≤ bound) : readInt bound (Nat.toDigits 10 n) = .ok (n : Int) := by
  obtain ⟨c, cs, hcs, hc⟩ := Numeral.exists_digit_toDigits n
  have hplus : c ≠ '+' := Floating.isDigit_ne hc rfl
  have hminus : c ≠ '-' := Floating.isDigit_ne hc rfl
  have hread : readDigits bound .tooLarge (c :: cs) 0 = .ok n := hcs ▸ readDigits_toDigits _ h
  rw [hcs, readInt, hread] <;> simp [hplus, hminus, Except.map]

theorem readInt_minus_toDigits {n : Nat} (h : n ≤ bound + 1) :
    readInt bound ('-' :: Nat.toDigits 10 n) = .ok (-n : Int) := by
  rw [readInt, readDigits_toDigits _ h]
  · rfl
  · simp

end Text

namespace Attribute

theorem readUnsigned?_repr {bound n : Nat} (h : n ≤ bound) : readUnsigned? bound n.repr = some n := by
  rw [readUnsigned?, Nat.toList_repr, Text.trimChars_of_forall fun _ => Text.isBlank_of_mem_toDigits,
    Text.readNat_toDigits h]
  rfl

theorem readSigned?_repr (bound : Nat) {i : Int} (hlow : -(bound + 1 : Int) ≤ i) (hhigh : i ≤ bound) :
    readSigned? bound i.repr = some i := by
  rw [readSigned?]
  cases i with
  | ofNat n =>
    have hn : n ≤ bound := by simpa using hhigh
    have htext : (Int.ofNat n).repr.toList = Nat.toDigits 10 n := Nat.toList_repr
    rw [htext, Text.trimChars_of_forall fun _ => Text.isBlank_of_mem_toDigits, Text.readInt_toDigits hn]
    rfl
  | negSucc n =>
    have hn : n + 1 ≤ bound + 1 := by omega
    have htext : (Int.negSucc n).repr.toList = '-' :: Nat.toDigits 10 (n + 1) := by
      simp [Int.repr]
    have hblank : ∀ c ∈ '-' :: Nat.toDigits 10 (n + 1), Text.isBlank c = false :=
      List.forall_mem_cons.2 ⟨by decide, fun _ => Text.isBlank_of_mem_toDigits⟩
    rw [htext, Text.trimChars_of_forall hblank, Text.readInt_minus_toDigits hn]
    rfl

end Attribute

namespace Floating

theorem isBlank_of_mem_signed {negative : Bool} {cs : List Char} (h : ∀ c ∈ cs, Text.isBlank c = false) :
    ∀ c ∈ signed negative cs, Text.isBlank c = false := by
  cases negative with
  | false => exact h
  | true => exact List.forall_mem_cons.2 ⟨by decide, h⟩

theorem isBlank_of_mem_positional (d : Numeral) : ∀ c ∈ d.positional, Text.isBlank c = false := by
  rcases d.positional_eq with ⟨-, htext⟩ | ⟨-, ds, fs, htext, -, -, -, hall⟩
  · rw [htext]
    exact List.forall_mem_append.2 ⟨fun c => Text.isBlank_of_mem_toDigits,
      fun c hc => Text.isBlank_of_isDigit (Numeral.isDigit_of_mem_replicate hc)⟩
  · obtain ⟨hds, hfs⟩ := List.forall_mem_append.1 hall
    rw [htext]
    exact List.forall_mem_append.2 ⟨fun c hc => Text.isBlank_of_isDigit (hds c hc),
      List.forall_mem_cons.2 ⟨by decide, fun c hc => Text.isBlank_of_isDigit (hfs c hc)⟩⟩

theorem isBlank_of_mem_chars (x : Binary32) : ∀ c ∈ x.chars, Text.isBlank c = false := by
  rw [chars]
  split
  · simp [Text.isBlank, Text.blankRanges]
  · split
    · exact isBlank_of_mem_signed (by simp [Text.isBlank, Text.blankRanges])
    · exact isBlank_of_mem_signed (isBlank_of_mem_positional _)

theorem chars_ne_nil (x : Binary32) : x.chars ≠ [] := by
  obtain ⟨c, cs, hcs, -⟩ := (x.shortest .upper).exists_digit_positional
  rw [chars]
  split
  · decide
  · split
    · cases x.negative <;> simp [signed]
    · rw [hcs]
      cases x.negative <;> simp [signed]

theorem read_text {x : Binary32} (hx : x.isNaN = false) : read (Text.trim x.text) = .ok x := by
  have htrim : Text.trim x.text = x.text := Text.trim_ofList x.isBlank_of_mem_chars
  have hne : x.text.isEmpty = false := by
    rw [Bool.eq_false_iff, ne_eq, String.isEmpty_iff, text, ← String.ofList_nil, String.ofList_inj]
    exact x.chars_ne_nil
  rw [htrim, read, hne, if_neg Bool.false_ne_true, text, String.toList_ofList, readChars_chars hx]

end Floating

def ValueType.isNaN : (t : ValueType) → t.Carrier → Bool
  | .float, x => Floating.isNaN x
  | _, _ => false

namespace Attribute

theorem read?_label {t : ValueType} {x : t.Carrier} (h : t.isNaN x = false) : read? (label x) = some x := by
  cases t with
  | uint32 =>
    have hread := readUnsigned?_repr (Nat.le_sub_one_of_lt (UInt32.toNat_lt_size x))
    exact (congrArg (Option.map UInt32.ofNat) hread).trans (congrArg some UInt32.ofNat_toNat)
  | int32 =>
    have hread := readSigned?_repr (UInt32.size / 2 - 1) (Int32.le_toInt x) (Int32.toInt_le x)
    exact (congrArg (Option.map Int32.ofInt) hread).trans (congrArg some (Int32.ofInt_toInt x))
  | uint64 =>
    have hread := readUnsigned?_repr (Nat.le_sub_one_of_lt (UInt64.toNat_lt_size x))
    exact (congrArg (Option.map UInt64.ofNat) hread).trans (congrArg some UInt64.ofNat_toNat)
  | int64 =>
    have hread := readSigned?_repr (UInt64.size / 2 - 1) (Int64.le_toInt x) (Int64.toInt_le x)
    exact (congrArg (Option.map Int64.ofInt) hread).trans (congrArg some (Int64.ofInt_toInt x))
  | float =>
    have hlabel : label x = Floating.text x := label_of_not_isNaN h
    rw [hlabel]
    exact congrArg Except.toOption (Floating.read_text h)
  | string => rfl

theorem isBlank_digitChar : ∀ n < 16, Text.isBlank (Nat.digitChar n) = false := by
  decide

theorem isBlank_of_mem_toDigits_sixteen {n : Nat} {c : Char} (h : c ∈ Nat.toDigits 16 n) :
    Text.isBlank c = false := by
  induction n using Nat.strongRecOn with
  | ind n ih =>
    rw [Nat.toDigits_eq_if (by decide)] at h
    split at h
    · rename_i hn
      rw [List.mem_singleton.1 h]
      exact isBlank_digitChar n hn
    · rcases List.mem_append.1 h with h | h
      · exact ih (n / 16) (by omega) h
      · rw [List.mem_singleton.1 h]
        exact isBlank_digitChar _ (Nat.mod_lt _ (by decide))

theorem isBlank_of_mem_hexadecimal {width n : Nat} {c : Char} (h : c ∈ hexadecimal width n) :
    Text.isBlank c = false := by
  rcases List.mem_append.1 h with h | h
  · exact Text.isBlank_of_isDigit (Numeral.isDigit_of_mem_replicate h)
  · exact isBlank_of_mem_toDigits_sixteen h

theorem readChars_colon (cs : List Char) :
    (Floating.readChars ('N' :: 'a' :: 'N' :: ':' :: cs) : Option Binary32) = none := by
  have hread : Numeral.read ('N' :: 'a' :: 'N' :: ':' :: cs) = none := by
    rw [Numeral.read, List.span_eq_takeWhile_dropWhile]
    rfl
  rw [Floating.readChars]
  · rw [Floating.readUnsigned, hread]
    simp [← String.toList_inj]
  · simp
  · simp

theorem read?_label_of_isNaN {t : ValueType} {x : t.Carrier} (h : t.isNaN x = true) :
    (read? (label x) : Option t.Carrier) = none := by
  cases t with
  | float =>
    have hlabel : label x =
        String.ofList (['N', 'a', 'N', ':', '0', 'x'] ++ hexadecimal 8 (Floating.bits x)) :=
      label_of_isNaN h
    have hblank : ∀ c ∈ ['N', 'a', 'N', ':', '0', 'x'] ++ hexadecimal 8 (Floating.bits x),
        Text.isBlank c = false :=
      List.forall_mem_append.2 ⟨by simp [Text.isBlank, Text.blankRanges],
        fun c => isBlank_of_mem_hexadecimal⟩
    have hread : Floating.read (label x) = (.error .malformed : Except NumberFault Binary32) := by
      have hchars : (Floating.readChars
          (['N', 'a', 'N', ':', '0', 'x'] ++ hexadecimal 8 (Floating.bits x)) : Option Binary32) = none :=
        readChars_colon _
      rw [hlabel, Floating.read, String.toList_ofList, hchars]
      exact if_neg (by simp)
    change (Floating.read (Text.trim (label x))).toOption = none
    rw [hlabel, Text.trim_ofList hblank, ← hlabel, hread]
    rfl
  | _ => cases h

theorem read?_label_eq_some_iff {t : ValueType} {x : t.Carrier} :
    read? (label x) = some x ↔ t.isNaN x = false := by
  refine ⟨fun h => Bool.eq_false_iff.2 fun hnan => ?_, read?_label⟩
  rw [read?_label_of_isNaN hnan] at h
  cases h

end Attribute

end WeightedStore
