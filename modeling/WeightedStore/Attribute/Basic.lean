import WeightedStore.Attribute.DataType
import WeightedStore.Bytes.Field

/-!
What a type of attribute values offers: a total order, the value that an operand stands for, the
text of a value and its bytes. Ids are values that results show as 64-bit numbers.
-/

namespace WeightedStore

class Attribute (α : Type) where
  type : ValueType
  decEq : DecidableEq α
  /-- The total order of the values. -/
  atMost : α → α → Bool
  atMost_trans : ∀ x y z, atMost x y → atMost y z → atMost x z
  atMost_total : ∀ x y, atMost x y || atMost y x
  atMost_antisymm : ∀ x y, atMost x y → atMost y x → x = y
  /-- The value that a search operand stands for. -/
  read? : String → Option α
  text : α → String
  /-- A text that tells values apart, which `text` need not do. -/
  label : α → String := text
  encode : α → Encoding
  /-- The number of bytes that `encode` gives. -/
  size : α → Nat
  decoder : Decoder α

namespace Attribute

variable {α : Type} [Attribute α]

instance (priority := low) : DecidableEq α := decEq

def before (x y : α) : Bool := !atMost y x

def encodeColumn (xs : List α) : Encoding := .join (Bytes.encodeCount xs.length :: xs.map encode)

def columnDecoder : Decoder (List α) := Decoder.counted decoder

def columnSize (xs : List α) : Nat := 4 + xs.foldr (fun x n => size x + n) 0

@[simp] theorem atMost_refl (x : α) : atMost x x = true := by
  simpa using atMost_total x x

@[simp] theorem before_irrefl (x : α) : before x x = false := by
  simp [before]

theorem before_eq_true_iff (x y : α) : before x y = true ↔ atMost x y = true ∧ x ≠ y := by
  have h := atMost_total x y
  simp only [before, Bool.not_eq_true', Bool.or_eq_true] at h ⊢
  constructor
  · intro hy
    refine ⟨h.resolve_right (by simp [hy]), ?_⟩
    rintro rfl
    simp at hy
  · rintro ⟨hx, hne⟩
    cases hy : atMost y x with
    | false => rfl
    | true => exact absurd (atMost_antisymm x y hx hy) hne

theorem atMost_of_before {x y : α} (h : before x y = true) : atMost x y = true :=
  ((before_eq_true_iff x y).1 h).1

theorem before_of_before_of_atMost {x y z : α} (h : before x y = true) (h' : atMost y z = true) :
    before x z = true := by
  rw [before, Bool.not_eq_true'] at h ⊢
  cases hz : atMost z x with
  | false => rfl
  | true => exact absurd (atMost_trans y z x h' hz) (by simp [h])

theorem before_of_atMost_of_before {x y z : α} (h : atMost x y = true) (h' : before y z = true) :
    before x z = true := by
  rw [before, Bool.not_eq_true'] at h' ⊢
  cases hz : atMost z x with
  | false => rfl
  | true => exact absurd (atMost_trans z x y hz h) (by simp [h'])

end Attribute

class Identifier (ι : Type) extends Attribute ι where
  idType : IdType
  scalar : Scalar
  toScalar : ι → scalar.Carrier
  ofScalar : scalar.Carrier → ι
  ofScalar_toScalar : ∀ x, ofScalar (toScalar x) = x
  toScalar_ofScalar : ∀ x, toScalar (ofScalar x) = x
  /-- The id as results show it. -/
  wide : ι → UInt64
  wide_injective : ∀ x y, wide x = wide y → x = y
  atMost_eq_wide : ∀ x y, atMost x y = decide (wide x ≤ wide y)

namespace Identifier

variable {ι : Type} [Identifier ι]

def encodeColumn (ids : List ι) : Encoding :=
  Bytes.encodeScalars (scalar ι) (ids.map toScalar)

def columnDecoder : Decoder (List ι) := do
  let xs ← Decoder.scalars (scalar ι)
  return xs.map ofScalar

def columnSize (ι : Type) [Identifier ι] (n : Nat) : Nat := Bytes.columnSize (scalar ι) n

end Identifier

end WeightedStore
