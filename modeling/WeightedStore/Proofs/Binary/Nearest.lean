import Mathlib.Tactic.ByContra
import WeightedStore.Proofs.Binary.Rounding

/-!
Rounding to the nearest word. A fraction of units lies between the middles towards the neighbours of
one word, a middle belonging to the even word, and that word is the one it is rounded to. So rounding
keeps the order. And a number that is taken off a rounded sum and added again gives the sum back,
although both steps are rounded.
-/

namespace WeightedStore

-- powers as the core library has them, whatever else is imported
attribute [local instance (high)] instPowNat

theorem roundDiv_cases (n d : Nat) :
    (roundDiv n d = n / d ∧ 2 * (n % d) ≤ d ∧ (2 * (n % d) = d → n / d % 2 = 0)) ∨
      (roundDiv n d = n / d + 1 ∧ d ≤ 2 * (n % d) ∧ (2 * (n % d) = d → n / d % 2 = 1)) := by
  rw [roundDiv]
  split
  · exact Or.inl ⟨rfl, by omega, by omega⟩
  · exact Or.inr ⟨rfl, by omega, by omega⟩

namespace Format

variable {f : Format} {a b d m n v w : Nat}

/-- How many units the magnitude of the next word is away. -/
def gap (f : Format) (w : Nat) : Nat := 2 ^ (w / 2 ^ f.fraction - 1)

theorem gap_of_lt (h : w < 2 ^ f.fraction) : f.gap w = 1 := by
  rw [gap, Nat.div_eq_of_lt h]

theorem gap_eq (f : Format) (e : Nat) (h : m < 2 ^ f.fraction) :
    f.gap ((e + 1) * 2 ^ f.fraction + m) = 2 ^ e := by
  rw [gap, Nat.add_comm, Nat.add_mul_div_right _ _ (Nat.two_pow_pos _), Nat.div_eq_of_lt h,
    Nat.zero_add, Nat.add_sub_cancel]

theorem gap_le_gap (h : v ≤ w) : f.gap v ≤ f.gap w :=
  Nat.pow_le_pow_right (by decide) (Nat.sub_le_sub_right (Nat.div_le_div_right h) 1)

theorem units_le_units (h : v ≤ w) : f.units v ≤ f.units w := by
  rcases Nat.eq_or_lt_of_le h with rfl | hlt
  · exact Nat.le_refl _
  · exact Nat.le_of_lt (units_lt_units hlt)

theorem units_lt_units_iff : f.units v < f.units w ↔ v < w := by
  refine ⟨fun h => ?_, units_lt_units⟩
  by_contra hle
  exact Nat.not_lt.2 (units_le_units (Nat.not_lt.1 hle)) h

theorem units_succ (f : Format) (w : Nat) : f.units (w + 1) = f.units w + f.gap w := by
  have hp : 0 < 2 ^ f.fraction := Nat.two_pow_pos _
  rcases Nat.lt_or_ge w (2 ^ f.fraction) with hlt | hge
  · have hw : f.units w = w := by rw [units, if_pos hlt]
    rw [gap_of_lt hlt, hw]
    rcases Nat.lt_or_ge (w + 1) (2 ^ f.fraction) with hlt' | hge'
    · rw [units, if_pos hlt']
    · have hnext : w + 1 = (0 + 1) * 2 ^ f.fraction + 0 := by omega
      rw [hnext, f.units_eq 0 hp]
      omega
  · obtain ⟨e, m, hm, rfl⟩ := exists_fields hge
    rw [f.gap_eq e hm, f.units_eq e hm, ← Nat.succ_mul]
    rcases Nat.lt_or_ge (m + 1) (2 ^ f.fraction) with hlt | hge
    · rw [Nat.add_assoc, f.units_eq e hlt]
      rfl
    · -- the last word with this exponent
      have hnext : (e + 1) * 2 ^ f.fraction + m + 1 = (e + 1 + 1) * 2 ^ f.fraction + 0 := by
        rw [Nat.succ_mul (e + 1)]
        omega
      rw [hnext, f.units_eq (e + 1) hp, Nat.pow_succ', ← Nat.mul_assoc]
      congr 1
      omega

theorem units_le_pred_add_gap (f : Format) (w : Nat) :
    f.units w ≤ f.units (w - 1) + f.gap (w - 1) := by
  rw [← units_succ]
  exact units_le_units (by omega)

theorem even_of_gap_ne (hf : 0 < f.fraction) (h : f.gap (w - 1) ≠ f.gap w) : w % 2 = 0 := by
  have hp : 0 < 2 ^ f.fraction := Nat.two_pow_pos _
  have htwo : 2 ∣ 2 ^ f.fraction := Nat.dvd_of_pow_dvd (Nat.le_refl 1) (Nat.pow_dvd_pow 2 hf)
  have hmod : w % 2 ^ f.fraction = 0 := by
    by_contra hne
    have hlt := Nat.mod_lt w hp
    have hw := Nat.div_add_mod' w (2 ^ f.fraction)
    have hpred : w - 1 = (w % 2 ^ f.fraction - 1) + w / 2 ^ f.fraction * 2 ^ f.fraction := by omega
    have hdiv : (w - 1) / 2 ^ f.fraction = w / 2 ^ f.fraction := by
      rw [hpred, Nat.add_mul_div_right _ _ hp, Nat.div_eq_of_lt (by omega), Nat.zero_add]
    exact h (by rw [gap, gap, hdiv])
  exact Nat.mod_eq_zero_of_dvd (Nat.dvd_trans htwo (Nat.dvd_of_mod_eq_zero hmod))

/-- Whether a word is the nearest one to `n / d` units. Half way to a neighbour the even word is. -/
structure Nearest (f : Format) (n d w : Nat) : Prop where
  below : d * (f.units (w - 1) + f.units w) ≤ 2 * n
  above : 2 * n ≤ d * (f.units w + f.units (w + 1))
  even : d * (f.units (w - 1) + f.units w) = 2 * n ∨ 2 * n = d * (f.units w + f.units (w + 1)) →
    w % 2 = 0

theorem Nearest.le_of_le (hd : 0 < d) (hv : f.Nearest n d v) (hw : f.Nearest m d w) (h : n ≤ m) :
    v ≤ w := by
  by_contra hlt
  rw [Nat.not_le] at hlt
  have hmiddle : f.units w + f.units (w + 1) ≤ f.units (v - 1) + f.units v :=
    Nat.add_le_add (units_le_units (by omega)) (units_le_units hlt)
  have hscaled := Nat.mul_le_mul_left d hmiddle
  have hbelow := hv.below
  have habove := hw.above
  -- both fractions are the one middle between two neighbours, which cannot both be even
  have heq : d * (f.units w + f.units (w + 1)) = d * (f.units (v - 1) + f.units v) := by omega
  have hnext : v = w + 1 := by
    by_contra hne
    have hfar : f.units w + f.units (w + 1) < f.units (v - 1) + f.units v :=
      Nat.add_lt_add (units_lt_units (by omega)) (units_lt_units (by omega))
    exact Nat.ne_of_lt (Nat.mul_lt_mul_of_pos_left hfar hd) heq
  have hv := hv.even (Or.inl (by omega))
  have hw := hw.even (Or.inr (by omega))
  omega

theorem Nearest.eq (hd : 0 < d) (hv : f.Nearest n d v) (hw : f.Nearest n d w) : v = w :=
  Nat.le_antisymm (hv.le_of_le hd hw (Nat.le_refl n)) (hw.le_of_le hd hv (Nat.le_refl n))

theorem nearest_units (f : Format) (w : Nat) : f.Nearest (f.units w) 1 w := by
  have hpred : f.units (w - 1) ≤ f.units w := units_le_units (Nat.sub_le w 1)
  have hnext := f.units_lt_units_succ w
  refine ⟨by omega, by omega, fun h => ?_⟩
  have heq : w - 1 = w := units_injective (f := f) (by omega)
  omega

theorem Nearest.of_between (h : f.Nearest n 1 w)
    (hm : n ≤ m ∧ m ≤ f.units w ∨ f.units w ≤ m ∧ m ≤ n) : f.Nearest m 1 w := by
  have hbelow := h.below
  have habove := h.above
  have heven := h.even
  have hword := f.nearest_units w
  have hbelow' := hword.below
  have habove' := hword.above
  have heven' := hword.even
  refine ⟨by omega, by omega, fun htie => ?_⟩
  rcases htie with htie | htie
  · by_cases hn : 1 * (f.units (w - 1) + f.units w) = 2 * n
    · exact heven (Or.inl hn)
    · exact heven' (Or.inl (by omega))
  · by_cases hn : 2 * n = 1 * (f.units w + f.units (w + 1))
    · exact heven (Or.inr hn)
    · exact heven' (Or.inr (by omega))

theorem units_steps {q s : Nat} (hq : q ≤ 2 ^ (f.fraction + 1)) (hs : s = 0 ∨ 2 ^ f.fraction ≤ q) :
    f.units (s * 2 ^ f.fraction + q) = q * 2 ^ s := by
  have hp : 0 < 2 ^ f.fraction := Nat.two_pow_pos _
  rw [Nat.pow_succ] at hq
  rcases Nat.lt_or_ge q (2 ^ f.fraction) with hlt | hge
  · obtain rfl : s = 0 := by omega
    rw [Nat.zero_mul, Nat.zero_add, Nat.pow_zero, Nat.mul_one, units, if_pos hlt]
  · rcases Nat.lt_or_ge q (2 * 2 ^ f.fraction) with hlt' | hge'
    · have hword : s * 2 ^ f.fraction + q = (s + 1) * 2 ^ f.fraction + (q - 2 ^ f.fraction) := by
        rw [Nat.succ_mul]
        omega
      rw [hword, f.units_eq s (by omega)]
      congr 1
      omega
    · have hword : s * 2 ^ f.fraction + q = (s + 1 + 1) * 2 ^ f.fraction + 0 := by
        rw [Nat.succ_mul, Nat.succ_mul]
        omega
      obtain rfl : q = 2 ^ f.fraction * 2 := by omega
      rw [hword, f.units_eq (s + 1) hp, Nat.pow_succ', Nat.add_zero, Nat.mul_assoc]

def nearestWord (f : Format) (n d : Nat) : Nat :=
  ((n / d).log2 - f.fraction) * 2 ^ f.fraction + roundDiv n (d * 2 ^ ((n / d).log2 - f.fraction))

theorem round_eq_min (f : Format) (n d : Nat) : f.round n d = min f.top (f.nearestWord n d) := rfl

theorem quotient_bounds (f : Format) (n d : Nat) :
    n / (d * 2 ^ ((n / d).log2 - f.fraction)) < 2 ^ (f.fraction + 1) ∧
      ((n / d).log2 - f.fraction = 0 ∨
        2 ^ f.fraction ≤ n / (d * 2 ^ ((n / d).log2 - f.fraction))) := by
  rw [← Nat.div_div_eq_div_mul]
  generalize n / d = k
  have hp (s : Nat) : 0 < 2 ^ s := Nat.two_pow_pos s
  constructor
  · rw [Nat.div_lt_iff_lt_mul (hp _), ← Nat.pow_add]
    exact Nat.lt_of_lt_of_le Nat.lt_log2_self (Nat.pow_le_pow_right (by decide) (by omega))
  · rcases Nat.eq_zero_or_pos (k.log2 - f.fraction) with h | h
    · exact Or.inl h
    · have hk : k ≠ 0 := by
        rintro rfl
        simp at h
      refine Or.inr ((Nat.le_div_iff_mul_le (hp _)).2 ?_)
      rw [← Nat.pow_add, Nat.add_sub_cancel' (by omega)]
      exact Nat.log2_self_le hk

theorem nearest_nearestWord (hf : 0 < f.fraction) (hd : 0 < d) (n : Nat) :
    f.Nearest n d (f.nearestWord n d) := by
  obtain ⟨hlt, hs⟩ := f.quotient_bounds n d
  rw [nearestWord]
  generalize (n / d).log2 - f.fraction = s at hlt hs ⊢
  have hstep : 0 < d * 2 ^ s := Nat.mul_pos hd (Nat.two_pow_pos s)
  have hn := Nat.div_add_mod' n (d * 2 ^ s)
  have hr := Nat.mod_lt n hstep
  have hcases := roundDiv_cases n (d * 2 ^ s)
  generalize n / (d * 2 ^ s) = q at hlt hs hn hcases
  generalize n % (d * 2 ^ s) = r at hn hr hcases
  -- the two words around the fraction
  have hlow : d * f.units (s * 2 ^ f.fraction + q) = q * (d * 2 ^ s) := by
    rw [units_steps (Nat.le_of_lt hlt) hs, Nat.mul_left_comm]
  have hhigh : d * f.units (s * 2 ^ f.fraction + (q + 1)) = q * (d * 2 ^ s) + d * 2 ^ s := by
    rw [units_steps hlt (by omega), Nat.mul_left_comm, Nat.succ_mul]
  have heven : s * 2 ^ f.fraction % 2 = 0 := by
    obtain ⟨k, hk⟩ := Nat.exists_eq_add_one.2 hf
    rw [hk, Nat.pow_succ, ← Nat.mul_assoc]
    exact Nat.mul_mod_left _ 2
  rcases hcases with ⟨hround, hle, htie⟩ | ⟨hround, hle, htie⟩
  -- rounded down, the word before the lower one is further off, unless that one is zero
  · have hpred : d * f.units (s * 2 ^ f.fraction + q - 1) ≤ d * f.units (s * 2 ^ f.fraction + q) :=
      Nat.mul_le_mul_left d (units_le_units (Nat.sub_le _ 1))
    rw [hround]
    refine ⟨?_, ?_, ?_⟩ <;> rw [Nat.mul_add]
    · omega
    · rw [Nat.add_assoc]
      omega
    · rw [Nat.mul_add, Nat.add_assoc]
      rintro (hn' | hn')
      · by_contra hodd
        have hlt : d * f.units (s * 2 ^ f.fraction + q - 1) < d * f.units (s * 2 ^ f.fraction + q) :=
          Nat.mul_lt_mul_of_pos_left (units_lt_units (by omega)) hd
        omega
      · omega
  -- rounded up, the word behind the upper one is further off
  · have hnext : d * f.units (s * 2 ^ f.fraction + (q + 1)) <
        d * f.units (s * 2 ^ f.fraction + (q + 1) + 1) :=
      Nat.mul_lt_mul_of_pos_left (f.units_lt_units_succ _) hd
    have hpred : s * 2 ^ f.fraction + (q + 1) - 1 = s * 2 ^ f.fraction + q := by omega
    rw [hround]
    refine ⟨?_, ?_, ?_⟩ <;> rw [Nat.mul_add]
    · rw [hpred]
      omega
    · omega
    · rw [Nat.mul_add, hpred]
      omega

theorem round_eq_of_nearest (hf : 0 < f.fraction) (hd : 0 < d) (hw : w ≤ f.top)
    (h : f.Nearest n d w) : f.round n d = w := by
  rw [round_eq_min, (nearest_nearestWord hf hd n).eq hd h]
  exact Nat.min_eq_right hw

theorem nearest_round (hf : 0 < f.fraction) (hd : 0 < d) (h : f.round n d < f.top) :
    f.Nearest n d (f.round n d) := by
  have hword : f.round n d = f.nearestWord n d := by
    rw [round_eq_min] at h ⊢
    omega
  rw [hword]
  exact nearest_nearestWord hf hd n

theorem round_le_round (hf : 0 < f.fraction) (hd : 0 < d) (h : n ≤ m) :
    f.round n d ≤ f.round m d := by
  have hle : f.nearestWord n d ≤ f.nearestWord m d :=
    (nearest_nearestWord hf hd n).le_of_le hd (nearest_nearestWord hf hd m) h
  rw [round_eq_min, round_eq_min]
  omega

theorem round_units (hw : w ≤ f.top) : f.round (f.units w) 1 = w := by
  have h : f.round (f.units w * 1) 1 = w := round_units_mul hw Nat.one_pos
  rwa [Nat.mul_one] at h

theorem round_zero (f : Format) : f.round 0 1 = 0 := by
  have h := round_units (Nat.zero_le f.top)
  rwa [units_zero] at h

theorem le_round_units_add (hf : 0 < f.fraction) (ha : a ≤ f.top) (n : Nat) :
    a ≤ f.round (f.units a + n) 1 := by
  have h := round_le_round (f := f) hf Nat.one_pos (Nat.le_add_right (f.units a) n)
  rwa [round_units ha] at h

/-- A sum that is rounded to the word `b`, less one summand and rounded to the word `d`, is `b` again
once that summand is added. -/
theorem Nearest.add_of_sub (hf : 0 < f.fraction) (hab : a ≤ b)
    (hb : f.Nearest (f.units a + f.units w) 1 b) (hd : f.Nearest (f.units b - f.units a) 1 d) :
    f.Nearest (f.units a + f.units d) 1 b := by
  have hle : f.units a ≤ f.units b := units_le_units hab
  have hpred : f.units (b - 1) ≤ f.units b := units_le_units (Nat.sub_le b 1)
  have hgap : f.gap (b - 1) ≤ f.gap b := gap_le_gap (Nat.sub_le b 1)
  have hsteps := f.units_le_pred_add_gap b
  have hnext := f.units_succ b
  have hbelow := hb.below
  have habove := hb.above
  have heven := hb.even
  -- `d` is as near to the difference as `w` is; where it lies on the other side of it, the sum does
  -- too, but is no further off
  rcases Nat.lt_trichotomy w d with hlt | rfl | hgt
  · have hw : f.units w ≤ f.units (d - 1) := units_le_units (by omega)
    have hdist := hd.below
    by_cases hside : f.units a + f.units d ≤ f.units b
    · have hsum := Nat.add_le_add_left (units_le_units (f := f) (Nat.le_of_lt hlt)) (f.units a)
      exact hb.of_between (Or.inl ⟨hsum, hside⟩)
    · exact ⟨by omega, by omega, fun htie => heven (Or.inl (by omega))⟩
  · exact hb
  · have hw : f.units (d + 1) ≤ f.units w := units_le_units hgt
    have hdist := hd.above
    by_cases hside : f.units b ≤ f.units a + f.units d
    · have hsum := Nat.add_le_add_left (units_le_units (f := f) (Nat.le_of_lt hgt)) (f.units a)
      exact hb.of_between (Or.inr ⟨hside, hsum⟩)
    · have hdb : d < b := units_lt_units_iff.1 (by omega : f.units d < f.units b)
      have hd' := f.units_succ d
      have hgap' : f.gap d ≤ f.gap (b - 1) := gap_le_gap (by omega)
      have hb' : f.units b = f.units (b - 1) + f.gap (b - 1) := by
        rw [← units_succ, Nat.sub_add_cancel (by omega)]
      refine ⟨by omega, by omega, fun htie => ?_⟩
      -- a tie here is one for the sum that was rounded first, or the gap widens at `b`
      by_cases hwide : f.gap (b - 1) = f.gap b
      · exact heven (Or.inr (by omega))
      · exact even_of_gap_ne hf hwide

end Format

end WeightedStore
