import Mathlib.Tactic.Common
import WeightedStore.Bytes.Field

/-!
What is written. Pieces are written one after the other if each can be written, and take the sum of
their sizes. A length field takes four bytes and can be written of lengths below its limit.
-/

namespace WeightedStore

theorem exists_of_bind_eq_ok {ε β γ : Type} {result : Except ε β} {f : β → Except ε γ} {y : γ}
    (h : result >>= f = .ok y) : ∃ x, result = .ok x ∧ f x = .ok y := by
  cases result with
  | error e => cases h
  | ok x => exact ⟨x, rfl, h⟩

theorem exists_of_map_eq_ok {ε β γ : Type} {result : Except ε β} {f : β → γ} {y : γ}
    (h : f <$> result = .ok y) : ∃ x, result = .ok x ∧ f x = y := by
  cases result with
  | error e => cases h
  | ok x => exact ⟨x, rfl, Except.ok.inj h⟩

theorem mapError_eq_ok_iff {ε φ β : Type} {result : Except ε β} {f : ε → φ} {x : β} :
    result.mapError f = .ok x ↔ result = .ok x := by
  cases result <;> simp [Except.mapError]

namespace Encoding

variable {α : Type}

theorem join_nil_eq_ok_iff {bytes : List UInt8} : join [] = .ok bytes ↔ bytes = [] := by
  rw [join, Except.ok.injEq, eq_comm]

theorem join_cons_eq_ok_iff {piece : Encoding} {pieces : List Encoding} {bytes : List UInt8} :
    join (piece :: pieces) = .ok bytes ↔
      ∃ front back, piece = .ok front ∧ join pieces = .ok back ∧ bytes = front ++ back := by
  rw [join]
  cases piece with
  | error fault => simp [bind, Except.bind]
  | ok front =>
    cases join pieces with
    | error fault => simp [bind, Except.bind]
    | ok back => simp [bind, Except.bind, pure, Except.pure, eq_comm]

theorem join_map_append {encode : α → Encoding} {xs ys : List α} {front back : List UInt8}
    (hx : join (xs.map encode) = .ok front) (hy : join (ys.map encode) = .ok back) :
    join ((xs ++ ys).map encode) = .ok (front ++ back) := by
  induction xs generalizing front with
  | nil =>
    rw [join_nil_eq_ok_iff.1 hx]
    exact hy
  | cons x xs ih =>
    obtain ⟨first, rest, hfirst, hrest, rfl⟩ := join_cons_eq_ok_iff.1 hx
    exact join_cons_eq_ok_iff.2
      ⟨first, rest ++ back, hfirst, ih hrest, List.append_assoc first rest back⟩

theorem join_pair_eq_ok_iff {piece : Encoding} {body bytes : List UInt8} :
    join [piece, .ok body] = .ok bytes ↔ ∃ field, piece = .ok field ∧ bytes = field ++ body := by
  simp only [join_cons_eq_ok_iff, join_nil_eq_ok_iff, Except.ok.injEq]
  constructor
  · rintro ⟨field, _, hfield, ⟨_, _, rfl, rfl, rfl⟩, rfl⟩
    exact ⟨field, hfield, by rw [List.append_nil]⟩
  · rintro ⟨field, hfield, rfl⟩
    exact ⟨field, _, hfield, ⟨_, _, rfl, rfl, rfl⟩, by rw [List.append_nil]⟩

theorem join_triple_eq_ok_iff {first second third : Encoding} {bytes : List UInt8} :
    join [first, second, third] = .ok bytes ↔
      ∃ x y z, first = .ok x ∧ second = .ok y ∧ third = .ok z ∧ bytes = x ++ (y ++ z) := by
  simp only [join_cons_eq_ok_iff, join_nil_eq_ok_iff]
  constructor
  · rintro ⟨x, _, hx, ⟨y, _, hy, ⟨z, _, hz, rfl, rfl⟩, rfl⟩, rfl⟩
    exact ⟨x, y, z, hx, hy, hz, by rw [List.append_nil]⟩
  · rintro ⟨x, y, z, hx, hy, hz, rfl⟩
    exact ⟨x, _, hx, ⟨y, _, hy, ⟨z, _, hz, rfl, rfl⟩, rfl⟩, by rw [List.append_nil]⟩

theorem eq_ok_nil_of_mem {piece : Encoding} {pieces : List Encoding} (h : join pieces = .ok [])
    (hmem : piece ∈ pieces) : piece = .ok [] := by
  induction pieces with
  | nil => cases hmem
  | cons first pieces ih =>
    obtain ⟨front, back, hfirst, hpieces, hnil⟩ := join_cons_eq_ok_iff.1 h
    obtain ⟨rfl, rfl⟩ := List.append_eq_nil_iff.1 hnil.symm
    rcases List.mem_cons.1 hmem with rfl | hmem
    · exact hfirst
    · exact ih hpieces hmem

theorem exists_join {pieces : List Encoding} (h : ∀ piece ∈ pieces, ∃ bytes, piece = .ok bytes) :
    ∃ bytes, join pieces = .ok bytes := by
  induction pieces with
  | nil => exact ⟨[], rfl⟩
  | cons piece pieces ih =>
    obtain ⟨⟨front, hfront⟩, hpieces⟩ := List.forall_mem_cons.1 h
    obtain ⟨back, hback⟩ := ih hpieces
    exact ⟨front ++ back, join_cons_eq_ok_iff.2 ⟨front, back, hfront, hback, rfl⟩⟩

theorem length_of_join_map {encode : α → Encoding} {size : α → Nat} {xs : List α}
    (hsize : ∀ x ∈ xs, ∀ bytes, encode x = .ok bytes → bytes.length = size x) {bytes : List UInt8}
    (h : join (xs.map encode) = .ok bytes) : bytes.length = xs.foldr (fun x n => size x + n) 0 := by
  induction xs generalizing bytes with
  | nil =>
    rw [join_nil_eq_ok_iff.1 h]
    rfl
  | cons x xs ih =>
    obtain ⟨hx, hxs⟩ := List.forall_mem_cons.1 hsize
    obtain ⟨front, back, hfront, hback, rfl⟩ := join_cons_eq_ok_iff.1 h
    rw [List.length_append, hx front hfront, ih hxs hback, List.foldr_cons]

end Encoding

namespace Bytes

theorem encodeCount_eq_ok_iff {n : Nat} {bytes : List UInt8} :
    encodeCount n = .ok bytes ↔
      n < UInt32.size ∧ bytes = Scalar.uint32.encode (UInt32.ofNat n) := by
  rw [encodeCount]
  split
  · rename_i hn
    rw [Except.ok.injEq, eq_comm, and_iff_right hn]
  · rename_i hn
    simp [hn]

theorem length_flatMap_encode (s : Scalar) (xs : List s.Carrier) :
    (xs.flatMap s.encode).length = xs.length * s.width := by
  induction xs with
  | nil => exact (Nat.zero_mul _).symm
  | cons x xs ih =>
    rw [List.flatMap_cons, List.length_append, s.length_encode, ih, List.length_cons, Nat.succ_mul,
      Nat.add_comm]

theorem length_of_encodeCount {n : Nat} {bytes : List UInt8}
    (h : encodeCount n = .ok bytes) : bytes.length = 4 := by
  rw [(encodeCount_eq_ok_iff.1 h).2]
  exact Scalar.length_encode .uint32 _

theorem exists_encodeCount {n : Nat} (h : n < UInt32.size) :
    ∃ bytes, encodeCount n = .ok bytes :=
  ⟨_, encodeCount_eq_ok_iff.2 ⟨h, rfl⟩⟩

theorem length_of_encodeScalars {s : Scalar} {xs : List s.Carrier} {bytes : List UInt8}
    (h : encodeScalars s xs = .ok bytes) : bytes.length = columnSize s xs.length := by
  obtain ⟨field, hfield, rfl⟩ := Encoding.join_pair_eq_ok_iff.1 h
  rw [List.length_append, length_of_encodeCount hfield, length_flatMap_encode, columnSize]

theorem length_of_encodeBlob {xs bytes : List UInt8} (h : encodeBlob xs = .ok bytes) :
    bytes.length = blobSize xs.length := by
  obtain ⟨field, hfield, rfl⟩ := Encoding.join_pair_eq_ok_iff.1 h
  rw [List.length_append, length_of_encodeCount hfield, blobSize]

theorem encodeScalars_ne_nil (s : Scalar) (xs : List s.Carrier) :
    encodeScalars s xs ≠ .ok [] := by
  intro h
  have hlength := length_of_encodeScalars h
  rw [List.length_nil, columnSize] at hlength
  omega

theorem exists_encodeScalars {s : Scalar} {xs : List s.Carrier}
    (h : xs.length < UInt32.size) : ∃ bytes, encodeScalars s xs = .ok bytes := by
  obtain ⟨field, hfield⟩ := exists_encodeCount h
  exact ⟨_, Encoding.join_pair_eq_ok_iff.2 ⟨field, hfield, rfl⟩⟩

theorem exists_encodeBlob {xs : List UInt8} (h : xs.length < UInt32.size) :
    ∃ bytes, encodeBlob xs = .ok bytes := by
  obtain ⟨field, hfield⟩ := exists_encodeCount h
  exact ⟨_, Encoding.join_pair_eq_ok_iff.2 ⟨field, hfield, rfl⟩⟩

end Bytes

end WeightedStore
