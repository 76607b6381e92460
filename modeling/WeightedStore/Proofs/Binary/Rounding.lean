import WeightedStore.Binary.Arithmetic

/-!
Rounding to a format. A fraction that is a whole number of units with a word of its own is rounded
to that word.
-/

namespace WeightedStore

-- powers as the core library has them, whatever else is imported
attribute [local instance (high)] instPowNat

theorem roundDiv_mul (q : Nat) {d : Nat} (hd : 0 < d) : roundDiv (q * d) d = q := by
  rw [roundDiv, Nat.mul_mod_left, if_pos (Or.inl hd), Nat.mul_div_cancel q hd]

namespace Format

variable {f : Format} {w : Nat}

theorem exists_fields (h : 2 ^ f.fraction ≤ w) :
    ∃ e m, m < 2 ^ f.fraction ∧ w = (e + 1) * 2 ^ f.fraction + m := by
  have hp : 0 < 2 ^ f.fraction := Nat.two_pow_pos _
  obtain ⟨e, he⟩ : ∃ e, w / 2 ^ f.fraction = e + 1 :=
    Nat.exists_eq_add_one.2 (Nat.div_pos h hp)
  refine ⟨e, w % 2 ^ f.fraction, Nat.mod_lt _ hp, ?_⟩
  rw [← he, Nat.div_add_mod']

theorem log2_units_of_lt (h : w < 2 ^ f.fraction) : (f.units w).log2 - f.fraction = 0 := by
  rw [units, if_pos h]
  rcases Nat.eq_zero_or_pos w with rfl | hw
  · simp
  · have := (Nat.log2_lt (Nat.ne_of_gt hw)).2 h
    omega

theorem log2_units (e : Nat) {m : Nat} (h : m < 2 ^ f.fraction) :
    (f.units ((e + 1) * 2 ^ f.fraction + m)).log2 = f.fraction + e := by
  have hp : 0 < 2 ^ f.fraction := Nat.two_pow_pos _
  have hq : 0 < 2 ^ e := Nat.two_pow_pos _
  rw [f.units_eq e h, Nat.log2_eq_iff (Nat.ne_of_gt (Nat.mul_pos (by omega) hq))]
  refine ⟨?_, ?_⟩
  · rw [Nat.pow_add]
    exact Nat.mul_le_mul_right _ (by omega)
  · rw [show f.fraction + e + 1 = (f.fraction + 1) + e by omega, Nat.pow_add, Nat.pow_succ]
    exact Nat.mul_lt_mul_of_pos_right (by omega) hq

theorem round_units_mul {d : Nat} (hw : w ≤ f.top) (hd : 0 < d) :
    f.round (f.units w * d) d = w := by
  rw [round, Nat.mul_div_cancel _ hd]
  rcases Nat.lt_or_ge w (2 ^ f.fraction) with hlt | hge
  · rw [log2_units_of_lt hlt, units, if_pos hlt, Nat.pow_zero, Nat.mul_one, roundDiv_mul w hd]
    omega
  · obtain ⟨e, m, hm, rfl⟩ := exists_fields hge
    have hscale : (2 ^ f.fraction + m) * 2 ^ e * d = (2 ^ f.fraction + m) * (d * 2 ^ e) := by
      rw [Nat.mul_assoc, Nat.mul_comm d]
    have hpos : 0 < d * 2 ^ e := Nat.mul_pos hd (Nat.two_pow_pos _)
    rw [log2_units e hm, f.units_eq e hm, Nat.add_sub_cancel_left, hscale, roundDiv_mul _ hpos]
    rw [Nat.add_mul] at hw ⊢
    omega

end Format

theorem Floating.ofWord_word {f : Format} (x : Floating f) : ofWord x.negative x.word = x := by
  obtain ⟨negative, w, hw⟩ := x
  simp [ofWord, Nat.mod_eq_of_lt hw]

end WeightedStore
