import WeightedStore.Proofs.Bytes.Spelling

/-!
Records one after the other. What holds of every value a reader can give holds of all records that
are read with it. A reader that reads a spelling gives the records of data that records fill, and
comes on a fault in all other data.
-/

namespace WeightedStore.Decoder

variable {α β ρ : Type}

section Forall

variable {d : Decoder α} {p : α → Prop}

theorem forall_recordsWithin (hd : ∀ c x c', d c = .ok x c' → p x) (fuel : Nat) (c : Cursor) :
    ∀ x ∈ (recordsWithin d fuel c).1, p x := by
  induction fuel generalizing c with
  | zero => exact nofun
  | succ fuel ih =>
    rw [recordsWithin]
    split
    · exact nofun
    · split
      · rename_i x c' hx
        exact List.forall_mem_cons.2 ⟨hd c x c' hx, ih c'⟩
      · exact nofun

end Forall

section Records

variable {d : Decoder β} {p : ρ → Prop} {encode : ρ → Encoding} {f : ρ → β}

def through (p : ρ → Prop) (encode : ρ → Encoding) (f : ρ → β) : Spelling β :=
  fun bytes y => ∃ r, p r ∧ encode r = .ok bytes ∧ f r = y

def throughAll (p : ρ → Prop) (encode : ρ → Encoding) (f : ρ → β) : Spelling (List β) :=
  fun bytes ys =>
    ∃ rs : List ρ, (∀ r ∈ rs, p r) ∧ Encoding.join (rs.map encode) = .ok bytes ∧ rs.map f = ys

theorem throughAll_nil_iff (hne : ∀ r, encode r ≠ .ok []) {ys : List β} :
    throughAll p encode f [] ys ↔ ys = [] := by
  constructor
  · rintro ⟨rs, -, hjoin, rfl⟩
    cases rs with
    | nil => rfl
    | cons r rs =>
      obtain ⟨front, back, hr, -, hnil⟩ := Encoding.join_cons_eq_ok_iff.1 hjoin
      exact absurd ((List.append_eq_nil_iff.1 hnil.symm).1 ▸ hr) (hne r)
  · rintro rfl
    exact ⟨[], nofun, rfl, rfl⟩

theorem throughAll_iff_of_ne_nil (hd : Reads d (through p encode f)) {c : Cursor}
    (hc : c.rest ≠ []) {ys : List β} :
    throughAll p encode f c.rest ys ↔
      ∃ y c' others, d c = .ok y c' ∧ throughAll p encode f c'.rest others ∧ ys = y :: others := by
  constructor
  · rintro ⟨rs, hp, hjoin, rfl⟩
    cases rs with
    | nil => exact absurd (Encoding.join_nil_eq_ok_iff.1 hjoin) hc
    | cons r rs =>
      obtain ⟨hr, hrs⟩ := List.forall_mem_cons.1 hp
      obtain ⟨front, back, hfront, hback, hrest⟩ := Encoding.join_cons_eq_ok_iff.1 hjoin
      exact ⟨f r, ⟨c.position + front.length, back⟩, rs.map f,
        (hd _ _ _).2 ⟨front, ⟨r, hr, hfront, rfl⟩, hrest, rfl⟩, ⟨rs, hrs, hback, rfl⟩, rfl⟩
  · rintro ⟨y, c', others, hy, ⟨rs, hrs, hback, rfl⟩, rfl⟩
    obtain ⟨front, ⟨r, hr, hfront, rfl⟩, hpasses⟩ := (hd _ _ _).1 hy
    refine ⟨r :: rs, List.forall_mem_cons.2 ⟨hr, hrs⟩, ?_, rfl⟩
    exact Encoding.join_cons_eq_ok_iff.2 ⟨front, c'.rest, hfront, hback, hpasses.rest⟩

theorem length_rest_lt (hd : Reads d (through p encode f)) (hne : ∀ r, encode r ≠ .ok [])
    {c c' : Cursor} {y : β} (h : d c = .ok y c') : c'.rest.length < c.rest.length := by
  obtain ⟨front, ⟨r, -, hfront, -⟩, hpasses⟩ := (hd _ _ _).1 h
  have hpos : 0 < front.length := List.length_pos_iff.2 fun hnil => hne r (hnil ▸ hfront)
  rw [hpasses.rest, List.length_append]
  omega

theorem recordsWithin_eq_iff (hd : Reads d (through p encode f)) (hne : ∀ r, encode r ≠ .ok [])
    {fuel : Nat} {c : Cursor} (hfuel : c.rest.length ≤ fuel) {ys : List β} :
    recordsWithin d fuel c = (ys, none) ↔ throughAll p encode f c.rest ys := by
  have hend {bytes : List UInt8} (hnil : bytes = []) (ys : List β) :
      (([], none) : List β × Option DataFault) = (ys, none) ↔ throughAll p encode f bytes ys := by
    rw [hnil, throughAll_nil_iff hne, Prod.mk.injEq, and_iff_left rfl, eq_comm]
  induction fuel generalizing c ys with
  | zero => exact hend (List.length_eq_zero_iff.1 (Nat.le_zero.1 hfuel)) ys
  | succ fuel ih =>
    rw [recordsWithin]
    split
    · rename_i hatEnd
      exact hend (List.isEmpty_iff.1 hatEnd) ys
    · rename_i hatEnd
      rw [throughAll_iff_of_ne_nil hd (mt List.isEmpty_iff.2 hatEnd)]
      cases hread : d c with
      | error fault _ => simp
      | ok y c' =>
        have hlt := length_rest_lt hd hne hread
        have hfuel' : c'.rest.length ≤ fuel := by omega
        dsimp only
        constructor
        · intro heq
          obtain ⟨rfl, hnone⟩ := Prod.mk.inj heq
          exact ⟨y, c', _, rfl, (ih hfuel').1 (Prod.ext rfl hnone), rfl⟩
        · rintro ⟨_, _, others, ⟨⟩, hothers, rfl⟩
          rw [(ih hfuel').2 hothers]

theorem records_eq_iff (hd : Reads d (through p encode f)) (hne : ∀ r, encode r ≠ .ok [])
    {bytes : List UInt8} {ys : List β} :
    records d bytes = (ys, none) ↔ throughAll p encode f bytes ys :=
  recordsWithin_eq_iff (c := .start bytes) hd hne (Nat.le_refl _)

end Records

end WeightedStore.Decoder
