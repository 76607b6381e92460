import WeightedStore.Binary.Format

/-!
Scalars of a fixed width and their bytes, the least significant byte first.
-/

namespace WeightedStore

-- powers as the core library has them, whatever else is imported
attribute [local instance (high)] instPowNat

namespace Bytes

def littleEndian : Nat → Nat → List UInt8
  | 0, _ => []
  | count + 1, n => UInt8.ofNat n :: littleEndian count (n / 256)

def ofLittleEndian : List UInt8 → Nat
  | [] => 0
  | b :: bs => b.toNat + 256 * ofLittleEndian bs

@[simp] theorem length_littleEndian (count n : Nat) : (littleEndian count n).length = count := by
  induction count generalizing n with
  | zero => rfl
  | succ count ih => simp [littleEndian, ih]

theorem ofLittleEndian_littleEndian (count n : Nat) :
    ofLittleEndian (littleEndian count n) = n % 256 ^ count := by
  induction count generalizing n with
  | zero => simp [littleEndian, ofLittleEndian, Nat.mod_one]
  | succ count ih =>
    have h : 256 ^ (count + 1) = 256 * 256 ^ count := by rw [Nat.pow_succ, Nat.mul_comm]
    rw [littleEndian, ofLittleEndian, ih, UInt8.toNat_ofNat', h, Nat.mod_mul]

theorem littleEndian_ofLittleEndian (bs : List UInt8) :
    littleEndian bs.length (ofLittleEndian bs) = bs := by
  induction bs with
  | nil => rfl
  | cons b bs ih =>
    have h := b.toNat_lt
    have hb : UInt8.ofNat (b.toNat + 256 * ofLittleEndian bs) = b := by
      apply UInt8.toNat_inj.1
      rw [UInt8.toNat_ofNat']
      omega
    have hq : (b.toNat + 256 * ofLittleEndian bs) / 256 = ofLittleEndian bs := by omega
    rw [List.length_cons, littleEndian, ofLittleEndian, hb, hq, ih]

theorem ofLittleEndian_lt (bs : List UInt8) : ofLittleEndian bs < 256 ^ bs.length := by
  induction bs with
  | nil => exact Nat.one_pos
  | cons b bs ih =>
    have hb := b.toNat_lt
    rw [List.length_cons, ofLittleEndian, Nat.pow_succ]
    omega

end Bytes

inductive Scalar
  | uint32
  | int32
  | uint64
  | int64
  | binary32
  deriving DecidableEq, Repr

namespace Scalar

def width : Scalar → Nat
  | uint32 | int32 | binary32 => 4
  | uint64 | int64 => 8

abbrev Carrier : Scalar → Type
  | uint32 => UInt32
  | int32 => Int32
  | uint64 => UInt64
  | int64 => Int64
  | binary32 => Binary32

def toWord : (s : Scalar) → s.Carrier → Nat
  | uint32, x => x.toNat
  | int32, x => x.toUInt32.toNat
  | uint64, x => x.toNat
  | int64, x => x.toUInt64.toNat
  | binary32, x => x.bits

def ofWord : (s : Scalar) → Nat → s.Carrier
  | uint32, n => UInt32.ofNat n
  | int32, n => (UInt32.ofNat n).toInt32
  | uint64, n => UInt64.ofNat n
  | int64, n => (UInt64.ofNat n).toInt64
  | binary32, n => Floating.ofBits n

def encode (s : Scalar) (x : s.Carrier) : List UInt8 := Bytes.littleEndian s.width (s.toWord x)

@[simp] theorem length_encode (s : Scalar) (x : s.Carrier) : (s.encode x).length = s.width :=
  Bytes.length_littleEndian _ _

@[simp] theorem ofWord_toWord (s : Scalar) (x : s.Carrier) : s.ofWord (s.toWord x) = x := by
  cases s <;> simp [ofWord, toWord]

theorem toWord_lt (s : Scalar) (x : s.Carrier) : s.toWord x < 256 ^ s.width := by
  cases s with
  | uint32 => exact UInt32.toNat_lt x
  | int32 => exact UInt32.toNat_lt _
  | uint64 => exact UInt64.toNat_lt x
  | int64 => exact UInt64.toNat_lt _
  | binary32 => exact Floating.bits_lt x

theorem toWord_ofWord (s : Scalar) {n : Nat} (h : n < 256 ^ s.width) : s.toWord (s.ofWord n) = n := by
  cases s with
  | uint32 => exact UInt32.toNat_ofNat_of_lt' h
  | int32 =>
    change (UInt32.ofNat n).toInt32.toUInt32.toNat = n
    rw [UInt32.toUInt32_toInt32]
    exact UInt32.toNat_ofNat_of_lt' h
  | uint64 => exact UInt64.toNat_ofNat_of_lt' h
  | int64 =>
    change (UInt64.ofNat n).toInt64.toUInt64.toNat = n
    rw [UInt64.toUInt64_toInt64]
    exact UInt64.toNat_ofNat_of_lt' h
  | binary32 => exact Floating.bits_ofBits h

theorem encode_ofWord (s : Scalar) {bytes : List UInt8} (h : bytes.length = s.width) :
    s.encode (s.ofWord (Bytes.ofLittleEndian bytes)) = bytes := by
  have hlt : Bytes.ofLittleEndian bytes < 256 ^ s.width := h ▸ Bytes.ofLittleEndian_lt bytes
  rw [encode, toWord_ofWord s hlt, ← h, Bytes.littleEndian_ofLittleEndian]

theorem ofWord_encode (s : Scalar) (x : s.Carrier) :
    s.ofWord (Bytes.ofLittleEndian (s.encode x)) = x := by
  rw [encode, Bytes.ofLittleEndian_littleEndian, Nat.mod_eq_of_lt (s.toWord_lt x), ofWord_toWord]

end Scalar

end WeightedStore
