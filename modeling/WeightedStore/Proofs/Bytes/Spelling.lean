import WeightedStore.Proofs.Bytes.Encoding

/-!
The bytes that a reader takes for a value. A reader reads a spelling if it gives a value exactly
where bytes that spell it come next, whatever follows them. Readers put together from such readers
read their spellings put together, and the readers of the stored fields read exactly what is written.
-/

namespace WeightedStore

variable {ε α β : Type}

/-- Which bytes stand for which values. -/
abbrev Spelling (α : Type) := List UInt8 → α → Prop

abbrev Spelling.of (encode : α → Encoding) : Spelling α := fun bytes x => encode x = .ok bytes

structure Cursor.Passes (c : Cursor) (bytes : List UInt8) (c' : Cursor) : Prop where
  rest : c.rest = bytes ++ c'.rest
  position : c'.position = c.position + bytes.length

theorem Cursor.passes_nil_iff {c c' : Cursor} : c.Passes [] c' ↔ c = c' := by
  constructor
  · rintro ⟨hrest, hposition⟩
    cases c
    cases c'
    simp_all
  · rintro rfl
    exact ⟨rfl, rfl⟩

theorem Cursor.passes_append_iff {c c' : Cursor} {front back : List UInt8} :
    c.Passes (front ++ back) c' ↔ ∃ m, c.Passes front m ∧ m.Passes back c' := by
  constructor
  · rintro ⟨hrest, hposition⟩
    refine ⟨⟨c.position + front.length, back ++ c'.rest⟩, ⟨?_, rfl⟩, rfl, ?_⟩
    · rw [hrest, List.append_assoc]
    · rw [hposition, List.length_append, Nat.add_assoc]
  · rintro ⟨m, ⟨hfront, hm⟩, hback, hposition⟩
    exact ⟨by rw [hfront, hback, List.append_assoc],
      by rw [hposition, hm, List.length_append, Nat.add_assoc]⟩

namespace Decoder

theorem bind_eq_ok_iff {d : EStateM ε Cursor α} {f : α → EStateM ε Cursor β} {c c'' : Cursor}
    {y : β} :
    (d >>= f) c = .ok y c'' ↔ ∃ x c', d c = .ok x c' ∧ f x c' = .ok y c'' := by
  change EStateM.bind d f c = .ok y c'' ↔ _
  unfold EStateM.bind
  cases d c with
  | ok x c' =>
    refine ⟨fun h => ⟨x, c', rfl, h⟩, ?_⟩
    rintro ⟨_, _, hx, h⟩
    cases hx
    exact h
  | error fault c' => simp

theorem pure_eq_ok_iff {x y : α} {c c' : Cursor} :
    (pure x : EStateM ε Cursor α) c = .ok y c' ↔ x = y ∧ c = c' := by
  change EStateM.Result.ok x c = .ok y c' ↔ _
  simp

theorem throw_ne_ok {fault : ε} {x : α} {c c' : Cursor} :
    (throw fault : EStateM ε Cursor α) c ≠ .ok x c' := nofun

/-- Whether a reader gives a value exactly where bytes that spell it come next. -/
def Reads (d : EStateM ε Cursor α) (spells : Spelling α) : Prop :=
  ∀ c x c', d c = .ok x c' ↔ ∃ bytes, spells bytes x ∧ c.Passes bytes c'

section Steps

variable {d : EStateM ε Cursor α} {spells spells' : Spelling α}

theorem Reads.congr (h : Reads d spells) (heq : ∀ bytes x, spells bytes x ↔ spells' bytes x) :
    Reads d spells' := fun c x c' => by
  simp only [h c x c', heq]

theorem reads_pure (x : α) :
    Reads (pure x : EStateM ε Cursor α) fun bytes y => bytes = [] ∧ y = x := fun c y c' => by
  rw [pure_eq_ok_iff]
  constructor
  · rintro ⟨rfl, rfl⟩
    exact ⟨[], ⟨rfl, rfl⟩, Cursor.passes_nil_iff.2 rfl⟩
  · rintro ⟨_, ⟨rfl, rfl⟩, h⟩
    exact ⟨rfl, Cursor.passes_nil_iff.1 h⟩

theorem reads_throw (fault : ε) :
    Reads (throw fault : EStateM ε Cursor α) fun _ _ => False :=
  fun c y c' => by simp [throw_ne_ok]

theorem Reads.bind (hd : Reads d spells) {f : α → EStateM ε Cursor β} {next : α → Spelling β}
    (hf : ∀ x, Reads (f x) (next x)) :
    Reads (d >>= f) fun bytes y =>
      ∃ x front back, spells front x ∧ next x back y ∧ bytes = front ++ back := fun c y c' => by
  rw [bind_eq_ok_iff]
  constructor
  · rintro ⟨x, m, hx, hy⟩
    obtain ⟨front, hfront, hm⟩ := (hd c x m).1 hx
    obtain ⟨back, hback, hc'⟩ := (hf x m y c').1 hy
    exact ⟨front ++ back, ⟨x, front, back, hfront, hback, rfl⟩,
      Cursor.passes_append_iff.2 ⟨m, hm, hc'⟩⟩
  · rintro ⟨_, ⟨x, front, back, hfront, hback, rfl⟩, h⟩
    obtain ⟨m, hm, hc'⟩ := Cursor.passes_append_iff.1 h
    exact ⟨x, m, (hd c x m).2 ⟨front, hfront, hm⟩, (hf x m y c').2 ⟨back, hback, hc'⟩⟩

theorem Reads.make (hd : Reads d spells) {f : α → EStateM ε Cursor β} {makes : α → β → Prop}
    (hf : ∀ x, Reads (f x) fun rest y => rest = [] ∧ makes x y) :
    Reads (d >>= f) fun bytes y => ∃ x, spells bytes x ∧ makes x y := by
  refine (hd.bind hf).congr fun bytes y => ?_
  constructor
  · rintro ⟨x, front, _, hx, ⟨rfl, hy⟩, rfl⟩
    exact ⟨x, (List.append_nil front).symm ▸ hx, hy⟩
  · rintro ⟨x, hx, hy⟩
    exact ⟨x, bytes, [], hx, ⟨rfl, hy⟩, (List.append_nil bytes).symm⟩

end Steps

variable {d : Decoder α} {spells : Spelling α}

theorem reads_fields {α₁ α₂ α₃ : Type} {d₁ : Decoder α₁} {d₂ : Decoder α₂} {d₃ : Decoder α₃}
    {encode₁ : α₁ → Encoding} {encode₂ : α₂ → Encoding} {encode₃ : α₃ → Encoding}
    (h₁ : Reads d₁ (.of encode₁)) (h₂ : Reads d₂ (.of encode₂)) (h₃ : Reads d₃ (.of encode₃))
    {make : α₁ → α₂ → α₃ → Decoder β} {makes : α₁ → α₂ → α₃ → β → Prop}
    (h : ∀ x y z, Reads (make x y z) fun rest out => rest = [] ∧ makes x y z out) :
    Reads (d₁ >>= fun x => d₂ >>= fun y => d₃ >>= fun z => make x y z) fun bytes out =>
      ∃ x y z, Encoding.join [encode₁ x, encode₂ y, encode₃ z] = .ok bytes ∧ makes x y z out := by
  refine (h₁.bind fun x => h₂.bind fun y => h₃.make (h x y)).congr fun bytes out => ?_
  simp only [Encoding.join_triple_eq_ok_iff]
  constructor
  · rintro ⟨x, _, _, hx, ⟨y, _, _, hy, ⟨z, hz, hout⟩, rfl⟩, rfl⟩
    exact ⟨x, y, z, ⟨_, _, _, hx, hy, hz, rfl⟩, hout⟩
  · rintro ⟨x, y, z, ⟨_, _, _, hx, hy, hz, rfl⟩, hout⟩
    exact ⟨x, _, _, hx, ⟨y, _, _, hy, ⟨z, hz, hout⟩, rfl⟩, rfl⟩

theorem reads_get_bind {f : Cursor → Decoder α} (h : ∀ c, Reads (f c) spells) :
    Reads (get >>= f) spells := fun c x c' => by
  rw [bind_eq_ok_iff, ← h c c x c']
  constructor
  · rintro ⟨_, _, hget, hf⟩
    obtain ⟨rfl, rfl⟩ := (EStateM.Result.ok.injEq _ _ _ _ ▸ hget : c = _ ∧ c = _)
    exact hf
  · exact fun hf => ⟨c, c, rfl, hf⟩

theorem reads_take (n : Nat) : Reads (take n) fun bytes x => x = bytes ∧ bytes.length = n :=
  fun c x c' => by
  constructor
  · rw [take]
    split
    · rename_i hn
      rintro ⟨⟩
      refine ⟨c.rest.take n, ⟨rfl, List.length_take_of_le hn⟩, ?_, ?_⟩
      · exact (List.take_append_drop n c.rest).symm
      · rw [List.length_take_of_le hn]
        rfl
    · rintro ⟨⟩
  · rintro ⟨_, ⟨rfl, rfl⟩, hrest, hposition⟩
    obtain ⟨position, rest⟩ := c
    obtain ⟨position', rest'⟩ := c'
    dsimp only at hrest hposition
    subst hrest hposition
    exact take_append _ _ _ _ rfl

theorem reads_scalar (s : Scalar) : Reads (scalar s) fun bytes x => bytes = s.encode x := by
  refine ((reads_take s.width).make fun bytes => reads_pure _).congr fun bytes x => ?_
  constructor
  · rintro ⟨_, ⟨rfl, hlength⟩, rfl⟩
    rw [s.encode_ofWord hlength]
  · rintro rfl
    exact ⟨_, ⟨rfl, s.length_encode x⟩, (s.ofWord_encode x).symm⟩

theorem reads_scalar_encode (s : Scalar) : Reads (scalar s) (.of fun x => .ok (s.encode x)) :=
  (reads_scalar s).congr fun bytes x => by rw [Spelling.of, Except.ok.injEq, eq_comm]

theorem reads_count : Reads count (.of Bytes.encodeCount) := by
  refine ((reads_scalar .uint32).make fun n => reads_pure _).congr fun bytes n => ?_
  rw [Spelling.of, Bytes.encodeCount_eq_ok_iff]
  constructor
  · rintro ⟨x, rfl, rfl⟩
    exact ⟨UInt32.toNat_lt x, by rw [UInt32.ofNat_toNat]⟩
  · rintro ⟨hn, rfl⟩
    exact ⟨.ofNat n, rfl, (UInt32.toNat_ofNat_of_lt' hn).symm⟩

theorem length_scalarsOf (s : Scalar) (n : Nat) (bytes : List UInt8) :
    (scalarsOf s n bytes).length = n := by
  induction n generalizing bytes with
  | zero => rfl
  | succ n ih => rw [scalarsOf, List.length_cons, ih]

theorem flatMap_scalarsOf {s : Scalar} {n : Nat} {bytes : List UInt8}
    (h : bytes.length = n * s.width) : (scalarsOf s n bytes).flatMap s.encode = bytes := by
  induction n generalizing bytes with
  | zero =>
    rw [Nat.zero_mul, List.length_eq_zero_iff] at h
    rw [h]
    rfl
  | succ n ih =>
    rw [Nat.succ_mul] at h
    have hfirst : (bytes.take s.width).length = s.width := List.length_take_of_le (by omega)
    have hothers : (bytes.drop s.width).length = n * s.width := by
      rw [List.length_drop]
      omega
    rw [scalarsOf, List.flatMap_cons, s.encode_ofWord hfirst, ih hothers, List.take_append_drop]

theorem scalarsOf_flatMap (s : Scalar) (xs : List s.Carrier) :
    scalarsOf s xs.length (xs.flatMap s.encode) = xs := by
  induction xs with
  | nil => rfl
  | cons x xs ih =>
    have hlength := s.length_encode x
    rw [List.length_cons, List.flatMap_cons, scalarsOf, List.take_left' hlength,
      List.drop_left' hlength, s.ofWord_encode, ih]

theorem reads_scalars (s : Scalar) : Reads (scalars s) (.of (Bytes.encodeScalars s)) := by
  refine (reads_count.bind fun n => (reads_take (n * s.width)).make fun bytes =>
    reads_pure _).congr fun bytes xs => ?_
  rw [Spelling.of, Bytes.encodeScalars, Encoding.join_pair_eq_ok_iff]
  constructor
  · rintro ⟨n, field, _, hfield, ⟨_, ⟨rfl, hbody⟩, rfl⟩, rfl⟩
    refine ⟨field, ?_, ?_⟩
    · rw [length_scalarsOf]
      exact hfield
    · rw [flatMap_scalarsOf hbody]
  · rintro ⟨field, hfield, rfl⟩
    exact ⟨xs.length, field, _, hfield, ⟨_, ⟨rfl, Bytes.length_flatMap_encode s xs⟩,
      (scalarsOf_flatMap s xs).symm⟩, rfl⟩

theorem reads_blob : Reads blob (.of Bytes.encodeBlob) := by
  refine (reads_count.bind fun n => reads_take n).congr fun bytes xs => ?_
  rw [Spelling.of, Bytes.encodeBlob, Encoding.join_pair_eq_ok_iff]
  constructor
  · rintro ⟨n, field, body, hfield, ⟨rfl, rfl⟩, rfl⟩
    exact ⟨field, hfield, rfl⟩
  · rintro ⟨field, hfield, rfl⟩
    exact ⟨xs.length, field, xs, hfield, ⟨rfl, rfl⟩, rfl⟩

theorem fromUTF8?_eq_some_iff {bytes : List UInt8} {s : String} :
    String.fromUTF8? ⟨bytes.toArray⟩ = some s ↔ bytes = s.toUTF8.data.toList := by
  rw [String.fromUTF8?]
  constructor
  · intro h
    split at h
    · rw [← Option.some.inj h]
      rfl
    · cases h
  · rintro rfl
    exact dif_pos s.isValidUTF8

theorem reads_text (start : Nat) (bytes : List UInt8) :
    Reads (match String.fromUTF8? ⟨bytes.toArray⟩ with
      | some s => return s
      | none => throw (.invalidText start) : Decoder String) fun rest s =>
        rest = [] ∧ bytes = s.toUTF8.data.toList := by
  cases h : String.fromUTF8? ⟨bytes.toArray⟩ with
  | some text =>
    refine (reads_pure text).congr fun rest s => and_congr_right fun _ => ?_
    rw [← fromUTF8?_eq_some_iff, h, Option.some.injEq, eq_comm]
  | none =>
    refine (reads_throw _).congr fun rest s => ?_
    rw [← fromUTF8?_eq_some_iff, h]
    simp

theorem reads_string : Reads string (.of Bytes.encodeString) := by
  refine reads_get_bind fun c => (reads_blob.make (reads_text c.position)).congr fun bytes s => ?_
  constructor
  · rintro ⟨_, h, rfl⟩
    exact h
  · exact fun h => ⟨_, h, rfl⟩

theorem reads_times {encode : α → Encoding} (hd : Reads d (.of encode)) (n : Nat) :
    Reads (times d n) fun bytes xs => xs.length = n ∧ Encoding.join (xs.map encode) = .ok bytes := by
  induction n with
  | zero =>
    refine (reads_pure []).congr fun bytes xs => ?_
    constructor
    · rintro ⟨rfl, rfl⟩
      exact ⟨rfl, rfl⟩
    · rintro ⟨hxs, hbytes⟩
      rw [List.length_eq_zero_iff.1 hxs] at hbytes ⊢
      exact ⟨Encoding.join_nil_eq_ok_iff.1 hbytes, rfl⟩
  | succ n ih =>
    refine (hd.bind fun x => ih.make fun xs => reads_pure _).congr fun bytes xs => ?_
    constructor
    · rintro ⟨x, front, back, hx, ⟨xs, ⟨rfl, hxs⟩, rfl⟩, rfl⟩
      exact ⟨rfl, Encoding.join_cons_eq_ok_iff.2 ⟨front, back, hx, hxs, rfl⟩⟩
    · rintro ⟨hlength, hbytes⟩
      cases xs with
      | nil => cases hlength
      | cons x xs =>
        obtain ⟨front, back, hx, hxs, rfl⟩ := Encoding.join_cons_eq_ok_iff.1 hbytes
        exact ⟨x, front, back, hx, ⟨xs, ⟨Nat.succ.inj hlength, hxs⟩, rfl⟩, rfl⟩

theorem reads_counted {encode : α → Encoding} (hd : Reads d (.of encode)) :
    Reads (counted d) (.of fun xs => .join (Bytes.encodeCount xs.length :: xs.map encode)) := by
  refine (reads_count.bind fun n => reads_times hd n).congr fun bytes xs => ?_
  rw [Spelling.of, Encoding.join_cons_eq_ok_iff]
  constructor
  · rintro ⟨n, front, back, hn, ⟨rfl, hxs⟩, rfl⟩
    exact ⟨front, back, hn, hxs, rfl⟩
  · rintro ⟨front, back, hn, hxs, rfl⟩
    exact ⟨xs.length, front, back, hn, ⟨rfl, hxs⟩, rfl⟩

end Decoder

end WeightedStore
