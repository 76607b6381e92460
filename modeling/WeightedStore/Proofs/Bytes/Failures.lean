import WeightedStore.Proofs.Bytes.Sequence

/-!
Where readers fail and stop. A step that finds too few bytes takes none; so a field is not read because its
first bytes, or the bytes that its length field announces, are not all there, or because they are no text,
and in each case it is known where the reader is left. Over any bytes and any fields asked for, readers keep
within the bytes and do not go back.
-/

namespace WeightedStore

namespace Cursor

structure Over (bytes : List UInt8) (c : Cursor) : Prop where
  within : c.position ≤ bytes.length
  rest : c.rest = bytes.drop c.position

variable {bytes : List UInt8} {c c' : Cursor}

theorem over_start (bytes : List UInt8) : (start bytes).Over bytes := ⟨Nat.zero_le _, rfl⟩

theorem Over.remaining (h : c.Over bytes) : c.remaining = bytes.length - c.position := by
  rw [Cursor.remaining, h.rest, List.length_drop]

theorem Over.advance (h : c.Over bytes) {n : Nat} (hn : n ≤ c.remaining) : (c.advance n).Over bytes where
  within := by
    have hc := h.within
    rw [h.remaining] at hn
    change c.position + n ≤ bytes.length
    omega
  rest := by rw [Cursor.advance, h.rest, List.drop_drop]

@[simp] theorem remaining_advance (c : Cursor) (n : Nat) : (c.advance n).remaining = c.remaining - n :=
  List.length_drop

@[simp] theorem advance_advance (c : Cursor) (m n : Nat) : (c.advance m).advance n = c.advance (m + n) := by
  simp only [advance, List.drop_drop, Nat.add_assoc]

theorem passes_iff : c.Passes bytes c' ↔
    bytes.length ≤ c.remaining ∧ bytes = c.rest.take bytes.length ∧ c' = c.advance bytes.length := by
  constructor
  · rintro ⟨hrest, hposition⟩
    obtain ⟨position, rest⟩ := c'
    simp_all [remaining, advance]
  · rintro ⟨-, htake, rfl⟩
    have hrest := List.take_append_drop bytes.length c.rest
    rw [← htake] at hrest
    exact ⟨hrest.symm, rfl⟩

end Cursor

namespace Decoder

variable {α β : Type}

abbrev Failure := Cursor → DataFault → Cursor → Prop

def FailsAs (d : Decoder α) (fails : Failure) : Prop := ∀ c fault c', d c = .error fault c' ↔ fails c fault c'

def short (needed : Nat) : Failure := fun c fault c' =>
  c.remaining < needed ∧ fault = .truncated c.position needed c.remaining ∧ c' = c

theorem FailsAs.congr {d : Decoder α} {fails fails' : Failure} (h : FailsAs d fails)
    (heq : ∀ c fault c', fails c fault c' ↔ fails' c fault c') : FailsAs d fails' := fun c fault c' => by
  rw [h, heq]

theorem failsAs_pure (x : α) : FailsAs (pure x) fun _ _ _ => False := by
  intro c fault c'
  exact iff_of_false nofun id

theorem failsAs_take (n : Nat) : FailsAs (take n) (short n) := by
  intro c fault c'
  rw [take, short]
  split
  · rename_i hn
    exact iff_of_false (by simp) fun h => Nat.not_lt.2 hn h.1
  · rename_i hn
    rw [EStateM.Result.error.injEq, and_iff_right (Nat.not_le.1 hn)]
    exact and_congr eq_comm eq_comm

theorem FailsAs.bind {d : Decoder α} {f : α → Decoder β} {fails : Failure} {next : α → Failure}
    (hd : FailsAs d fails) (hf : ∀ x, FailsAs (f x) (next x)) :
    FailsAs (d >>= f) fun c fault c' => fails c fault c' ∨ ∃ x m, d c = .ok x m ∧ next x m fault c' := by
  intro c fault c'
  dsimp only
  rw [← hd c fault c']
  change EStateM.bind d f c = .error fault c' ↔ _
  unfold EStateM.bind
  cases d c with
  | ok x m => simp [hf x m fault c']
  | error e m => simp

theorem FailsAs.make {d : Decoder α} {f : α → Decoder β} {fails : Failure} (hd : FailsAs d fails)
    (hf : ∀ x, FailsAs (f x) fun _ _ _ => False) : FailsAs (d >>= f) fails :=
  (hd.bind hf).congr fun _ _ _ => by simp

theorem failsAs_scalar (s : Scalar) : FailsAs (scalar s) (short s.width) :=
  (failsAs_take s.width).make fun _ => failsAs_pure _

theorem failsAs_count : FailsAs count (short 4) := (failsAs_scalar .uint32).make fun _ => failsAs_pure _

theorem count_eq_ok_iff {n : Nat} {c m : Cursor} :
    count c = .ok n m ↔ Bytes.encodeCount n = .ok (c.rest.take 4) ∧ m = c.advance 4 := by
  rw [reads_count c n m]
  constructor
  · rintro ⟨bytes, hbytes, hpasses⟩
    obtain ⟨-, htake, hm⟩ := Cursor.passes_iff.1 hpasses
    rw [Bytes.length_of_encodeCount hbytes] at htake hm
    exact ⟨htake ▸ hbytes, hm⟩
  · rintro ⟨hbytes, hm⟩
    have hlength := Bytes.length_of_encodeCount hbytes
    refine ⟨_, hbytes, Cursor.passes_iff.2 ⟨List.length_take_le' _ _, ?_, ?_⟩⟩
    · rw [hlength]
    · rw [hlength, hm]

def shortCounted (width : Nat) : Failure := fun c fault c' => short 4 c fault c' ∨
  ∃ n, Bytes.encodeCount n = .ok (c.rest.take 4) ∧ short (n * width) (c.advance 4) fault c'

theorem FailsAs.counted {d : Nat → Decoder α} {width : Nat} (hd : ∀ n, FailsAs (d n) (short (n * width))) :
    FailsAs (count >>= d) (shortCounted width) := by
  refine (failsAs_count.bind hd).congr fun c fault c' => or_congr_right ?_
  simp only [count_eq_ok_iff, and_assoc, exists_and_left, exists_eq_left]

theorem failsAs_scalars (s : Scalar) : FailsAs (scalars s) (shortCounted s.width) :=
  FailsAs.counted fun n => (failsAs_take (n * s.width)).make fun _ => failsAs_pure _

theorem failsAs_blob : FailsAs blob (shortCounted 1) :=
  FailsAs.counted fun n => by
    rw [Nat.mul_one]
    exact failsAs_take n

theorem take_eq_ok_iff {n : Nat} {x : List UInt8} {c m : Cursor} :
    take n c = .ok x m ↔ n ≤ c.remaining ∧ x = c.rest.take n ∧ m = c.advance n := by
  rw [take]
  split
  · rename_i hn
    rw [EStateM.Result.ok.injEq, and_iff_right hn]
    exact and_congr eq_comm eq_comm
  · rename_i hn
    exact iff_of_false (by simp) fun h => hn h.1

theorem blob_eq_ok_iff {body : List UInt8} {c m : Cursor} :
    blob c = .ok body m ↔ ∃ n, Bytes.encodeCount n = .ok (c.rest.take 4) ∧ n ≤ c.remaining - 4 ∧
      body = (c.rest.drop 4).take n ∧ m = c.advance (4 + n) := by
  rw [blob, bind_eq_ok_iff]
  simp only [count_eq_ok_iff, take_eq_ok_iff, and_assoc, exists_and_left, exists_eq_left,
    Cursor.remaining_advance, Cursor.advance_advance]
  rfl

def noText (start : Nat) (bytes : List UInt8) : Failure := fun c fault c' =>
  (∀ s : String, s.toUTF8.data.toList ≠ bytes) ∧ fault = .invalidText start ∧ c' = c

theorem failsAs_text (start : Nat) (bytes : List UInt8) :
    FailsAs (match String.fromUTF8? ⟨bytes.toArray⟩ with
      | some s => return s
      | none => throw (.invalidText start) : Decoder String) (noText start bytes) := by
  intro c fault c'
  rw [noText]
  cases h : String.fromUTF8? ⟨bytes.toArray⟩ with
  | some text => exact iff_of_false nofun fun hnone => hnone.1 text (fromUTF8?_eq_some_iff.1 h).symm
  | none =>
    have hnone (s : String) : s.toUTF8.data.toList ≠ bytes := fun hs => by
      rw [fromUTF8?_eq_some_iff.2 hs.symm] at h
      cases h
    rw [and_iff_right hnone]
    change EStateM.Result.error _ _ = _ ↔ _
    rw [EStateM.Result.error.injEq]
    exact and_congr eq_comm eq_comm

theorem failsAs_string : FailsAs string fun c fault c' => shortCounted 1 c fault c' ∨
    ∃ body m, blob c = .ok body m ∧ noText c.position body m fault c' := by
  intro c fault c'
  exact failsAs_blob.bind (failsAs_text c.position) c fault c'

end Decoder

namespace Shape

def countedWidth? : Shape → Option Nat
  | scalar _ => none
  | column s => some s.width
  | blob | string => some 1

/-- How a field is not read, and where that leaves the reader. -/
inductive Fails : Shape → Cursor → DataFault → Cursor → Prop
  | scalar {s : Scalar} {c : Cursor} : c.remaining < s.width →
      Fails (.scalar s) c (.truncated c.position s.width c.remaining) c
  /-- The length field is not all there. -/
  | count {shape : Shape} {width : Nat} {c : Cursor} : shape.countedWidth? = some width → c.remaining < 4 →
      Fails shape c (.truncated c.position 4 c.remaining) c
  /-- What the length field announces is not all there. -/
  | body {shape : Shape} {width n : Nat} {c : Cursor} : shape.countedWidth? = some width →
      Bytes.encodeCount n = .ok (c.rest.take 4) → c.remaining - 4 < n * width →
      Fails shape c (.truncated (c.position + 4) (n * width) (c.remaining - 4)) (c.advance 4)
  | text {n : Nat} {c : Cursor} : Bytes.encodeCount n = .ok (c.rest.take 4) → n ≤ c.remaining - 4 →
      (∀ s : String, s.toUTF8.data.toList ≠ (c.rest.drop 4).take n) →
      Fails .string c (.invalidText c.position) (c.advance (4 + n))

variable {shape : Shape} {c c' : Cursor} {fault : DataFault}

theorem fails_iff_of_counted {width : Nat} (hwidth : shape.countedWidth? = some width) :
    shape.Fails c fault c' ↔ Decoder.shortCounted width c fault c' ∨
      shape = .string ∧ ∃ body m, Decoder.blob c = .ok body m ∧ Decoder.noText c.position body m fault c' := by
  constructor
  · intro h
    cases h with
    | scalar _ => cases hwidth
    | count hcounted hshort => exact .inl (.inl ⟨hshort, rfl, rfl⟩)
    | body hcounted hn hshort =>
      obtain rfl := Option.some.inj (hcounted.symm.trans hwidth)
      rw [← Cursor.remaining_advance] at hshort ⊢
      exact .inl (.inr ⟨_, hn, hshort, rfl, rfl⟩)
    | text hn hlong hnone =>
      exact .inr ⟨rfl, _, _, Decoder.blob_eq_ok_iff.2 ⟨_, hn, hlong, rfl, rfl⟩, hnone, rfl, rfl⟩
  · rintro ((⟨hshort, rfl, rfl⟩ | ⟨n, hn, hshort, rfl, rfl⟩) | ⟨rfl, body, m, hbody, hnone, rfl, rfl⟩)
    · exact .count hwidth hshort
    · rw [Cursor.remaining_advance] at hshort ⊢
      exact .body hwidth hn hshort
    · obtain ⟨n, hn, hlong, rfl, rfl⟩ := Decoder.blob_eq_ok_iff.1 hbody
      exact .text hn hlong hnone

theorem decoder_eq_error_iff : shape.decoder c = .error fault c' ↔ shape.Fails c fault c' := by
  cases shape with
  | scalar s =>
    rw [decoder, Decoder.failsAs_scalar]
    constructor
    · rintro ⟨hshort, rfl, rfl⟩
      exact .scalar hshort
    · rintro (⟨hshort⟩ | ⟨⟨⟩, -⟩ | ⟨⟨⟩, -, -⟩)
      exact ⟨hshort, rfl, rfl⟩
  | column s =>
    rw [decoder, Decoder.failsAs_scalars, fails_iff_of_counted rfl]
    simp
  | blob =>
    rw [decoder, Decoder.failsAs_blob, fails_iff_of_counted rfl]
    simp
  | string =>
    rw [decoder, Decoder.failsAs_string, fails_iff_of_counted rfl]
    simp

theorem Fails.exists_advance (h : shape.Fails c fault c') : ∃ n ≤ c.remaining, c' = c.advance n := by
  have hfield {n : Nat} (hn : Bytes.encodeCount n = .ok (c.rest.take 4)) : 4 ≤ c.remaining := by
    have hlength := Bytes.length_of_encodeCount hn
    rw [List.length_take] at hlength
    rw [Cursor.remaining]
    omega
  cases h with
  | scalar _ => exact ⟨0, Nat.zero_le _, rfl⟩
  | count _ _ => exact ⟨0, Nat.zero_le _, rfl⟩
  | body _ hn _ => exact ⟨4, hfield hn, rfl⟩
  | text hn hlong _ =>
    have hfour := hfield hn
    exact ⟨_, by omega, rfl⟩

theorem Fails.truncated {offset needed available : Nat}
    (h : shape.Fails c (.truncated offset needed available) c') :
    offset = c'.position ∧ available = c'.remaining ∧ available < needed := by
  cases h with
  | scalar hshort => exact ⟨rfl, rfl, hshort⟩
  | count _ hshort => exact ⟨rfl, rfl, hshort⟩
  | body _ _ hshort => exact ⟨rfl, (Cursor.remaining_advance c 4).symm, hshort⟩

end Shape

/-- What readings over some bytes keep to: the reader does not go back nor past the end, takes the bytes of
the value that it gives, and fails and stops as the shape of the field says. -/
structure Reading.Kept (bytes : List UInt8) (r : Reading) : Prop where
  forward : r.start.position ≤ r.stop.position
  place : r.stop.Over bytes
  taken : ∀ x, r.value? = some x →
    x.encode = .ok (r.start.rest.take x.size) ∧ r.stop.position = r.start.position + x.size
  failed : ∀ fault c', r.outcome = .error fault ∧ r.stop = c' ↔ r.shape.Fails r.start fault c'
  truncated : ∀ offset needed available, r.outcome = .error (.truncated offset needed available) →
    offset = r.stop.position ∧ available = bytes.length - offset ∧ available < needed

namespace Shape

variable {bytes : List UInt8} {c : Cursor}

theorem kept_read (shape : Shape) (h : c.Over bytes) : (shape.read c).Kept bytes := by
  cases hread : shape.decoder c with
  | ok value stop =>
    obtain ⟨taken, hvalue, hpasses⟩ := (shape.reads_decoder c value stop).1 hread
    obtain ⟨hle, htake, rfl⟩ := Cursor.passes_iff.1 hpasses
    have hsize : taken.length = (FieldValue.mk shape value).size := FieldValue.length_of_encode hvalue
    rw [read, hread]
    refine ⟨Nat.le_add_right _ _, h.advance hle, fun x hx => ?_, fun fault c' => ?_, by simp⟩
    · obtain rfl := Option.some.inj hx
      rw [← hsize, ← htake]
      exact ⟨hvalue, rfl⟩
    · rw [← decoder_eq_error_iff, hread]
      simp
  | error fault stop =>
    -- how much was taken before the fault, a length field or a whole string, hangs on the kind of failure
    have hfails := decoder_eq_error_iff.1 hread
    obtain ⟨n, hn, hstop⟩ := hfails.exists_advance
    have hover : stop.Over bytes := hstop ▸ h.advance hn
    rw [read, hread]
    refine ⟨?_, hover, by simp [Reading.value?], fun fault' c' => ?_, fun offset needed available hfault => ?_⟩
    · rw [hstop]
      exact Nat.le_add_right _ _
    · rw [← decoder_eq_error_iff, hread]
      simp
    · obtain rfl := Except.error.inj hfault
      obtain ⟨rfl, rfl, hshort⟩ := hfails.truncated
      exact ⟨rfl, hover.remaining, hshort⟩

theorem readEach_kept_of_over (shapes : List Shape) (h : c.Over bytes) :
    ∃ readings stop, readEach shapes c = (readings, stop) ∧ readings.map Reading.shape = shapes ∧
      readings.map Reading.start ++ [stop] = c :: readings.map Reading.stop ∧ ∀ r ∈ readings, r.Kept bytes := by
  induction shapes generalizing c with
  | nil => exact ⟨[], c, rfl, rfl, rfl, nofun⟩
  | cons shape shapes ih =>
    have hkept := shape.kept_read h
    obtain ⟨readings, stop, hreadings, hshapes, hstarts, hall⟩ := ih hkept.place
    refine ⟨shape.read c :: readings, stop, ?_, ?_, ?_, List.forall_mem_cons.2 ⟨hkept, hall⟩⟩
    · rw [readEach, hreadings]
    · rw [List.map_cons, shape_read, hshapes]
    · rw [List.map_cons, List.cons_append, hstarts, start_read, List.map_cons]

/-- Over any bytes, readings of any fields keep to them, however many of the readings fail. -/
theorem readEach_kept (bytes : List UInt8) (shapes : List Shape) :
    ∃ readings stop, readEach shapes (.start bytes) = (readings, stop) ∧ readings.map Reading.shape = shapes ∧
      readings.map Reading.start ++ [stop] = .start bytes :: readings.map Reading.stop ∧
      ∀ r ∈ readings, r.Kept bytes :=
  readEach_kept_of_over shapes (Cursor.over_start bytes)

/-- A column announces two numbers and one is there, which is read once the column is given up. -/
example : (readEach [.column .uint32, .scalar .uint32] (.start [2, 0, 0, 0, 7, 0, 0, 0])).1.map
    (fun r => (r.value?.isSome, r.stop.position)) = [(false, 4), (true, 8)] := rfl

end Shape

end WeightedStore
