import Mathlib
import WeightedStore.Attribute.Instances
import WeightedStore.Proofs.Decimal.ReadBack

/-!
Labels tell values apart. Whole numbers, strings and floating-point numbers do so by their text; what
is no number shows its bits.
-/

namespace WeightedStore.Attribute

def hexadecimalValue (c : Char) : Nat := "0123456789abcdef".toList.idxOf c

def ofHexadecimal (cs : List Char) : Nat := cs.foldl (fun n c => 16 * n + hexadecimalValue c) 0

theorem hexadecimalValue_digitChar : ∀ n < 16, hexadecimalValue (Nat.digitChar n) = n := by
  decide

theorem ofHexadecimal_append_singleton (cs : List Char) (c : Char) :
    ofHexadecimal (cs ++ [c]) = 16 * ofHexadecimal cs + hexadecimalValue c := by
  rw [ofHexadecimal, List.foldl_append]
  rfl

theorem ofHexadecimal_toDigits (n : Nat) : ofHexadecimal (Nat.toDigits 16 n) = n := by
  induction n using Nat.strongRecOn with
  | ind n ih =>
    rw [Nat.toDigits_eq_if (by decide)]
    split
    · rename_i hn
      have := hexadecimalValue_digitChar n hn
      simpa [ofHexadecimal] using this
    · rw [ofHexadecimal_append_singleton, ih (n / 16) (by omega),
        hexadecimalValue_digitChar _ (Nat.mod_lt _ (by decide)), Nat.div_add_mod]

theorem ofHexadecimal_hexadecimal (width n : Nat) : ofHexadecimal (hexadecimal width n) = n := by
  have hzeros (k : Nat) (cs : List Char) :
      ofHexadecimal (List.replicate k '0' ++ cs) = ofHexadecimal cs := by
    induction k with
    | zero => rfl
    | succ k ih => exact ih
  rw [hexadecimal, hzeros, ofHexadecimal_toDigits]

theorem bits_injective {f : Format} {x y : Floating f} (h : x.bits = y.bits) : x = y := by
  rw [← x.ofBits_bits, h, y.ofBits_bits]

theorem chars_ne_cons {x : Binary32} (h : x.isNaN = false) (cs : List Char) :
    x.chars ≠ 'N' :: cs := by
  rw [Floating.chars, h, if_neg Bool.false_ne_true]
  split
  · cases x.negative <;> simp [Floating.signed]
  · obtain ⟨c, rest, hrest, hc⟩ := (x.shortest .upper).exists_digit_positional
    have hne : c ≠ 'N' := Floating.isDigit_ne hc rfl
    rw [hrest]
    cases x.negative <;> simp [Floating.signed, hne]

theorem label_of_isNaN {x : Binary32} (h : x.isNaN = true) :
    label x = String.ofList ("NaN:0x".toList ++ hexadecimal 8 x.bits) := if_pos h

theorem label_of_not_isNaN {x : Binary32} (h : x.isNaN = false) : label x = String.ofList x.chars :=
  if_neg (by simp [h])

theorem label_injective_binary32 : Function.Injective (label : Binary32 → String) := by
  have hne {x y : Binary32} (hx : x.isNaN = true) (hy : y.isNaN = false) : label x ≠ label y := by
    rw [label_of_isNaN hx, label_of_not_isNaN hy, ne_eq, String.ofList_inj]
    exact (chars_ne_cons hy _).symm
  intro x y h
  cases hx : x.isNaN <;> cases hy : y.isNaN
  · rw [label_of_not_isNaN hx, label_of_not_isNaN hy, String.ofList_inj] at h
    exact Floating.chars_injective hx hy h
  · exact absurd h.symm (hne hy hx)
  · exact absurd h (hne hx hy)
  · rw [label_of_isNaN hx, label_of_isNaN hy, String.ofList_inj] at h
    have hbits := congrArg ofHexadecimal (List.append_cancel_left h)
    rw [ofHexadecimal_hexadecimal, ofHexadecimal_hexadecimal] at hbits
    exact bits_injective hbits

theorem label_injective (t : ValueType) : Function.Injective (label : t.Carrier → String) := by
  cases t with
  | uint32 => exact fun x y h => UInt32.toNat_inj.1 (Nat.repr_injective h)
  | int32 => exact fun x y h => Int32.toInt_inj.1 (Int.repr_injective h)
  | uint64 => exact fun x y h => UInt64.toNat_inj.1 (Nat.repr_injective h)
  | int64 => exact fun x y h => Int64.toInt_inj.1 (Int.repr_injective h)
  | float => exact label_injective_binary32
  | string => exact fun x y h => h

end WeightedStore.Attribute
