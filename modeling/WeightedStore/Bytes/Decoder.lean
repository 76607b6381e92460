import WeightedStore.Bytes.Fault
import WeightedStore.Bytes.Scalar

/-!
Readers of stored data. A reader moves a cursor over the bytes; one that fails leaves the cursor
where its last complete step left it, so that reading can go on.
-/

namespace WeightedStore

structure Cursor where
  position : Nat
  rest : List UInt8
  deriving DecidableEq

namespace Cursor

def start (bytes : List UInt8) : Cursor := ⟨0, bytes⟩

def remaining (c : Cursor) : Nat := c.rest.length

def atEnd (c : Cursor) : Bool := c.rest.isEmpty

def advance (c : Cursor) (n : Nat) : Cursor := ⟨c.position + n, c.rest.drop n⟩

end Cursor

abbrev Decoder := EStateM DataFault Cursor

namespace Decoder

/-- The next `n` bytes; when fewer are left, none is taken. -/
def take (n : Nat) : Decoder (List UInt8) := fun c =>
  if n ≤ c.remaining then .ok (c.rest.take n) (c.advance n)
  else .error (.truncated c.position n c.remaining) c

def scalar (s : Scalar) : Decoder s.Carrier := do
  let bytes ← take s.width
  return s.ofWord (Bytes.ofLittleEndian bytes)

def count : Decoder Nat := do
  let n ← scalar .uint32
  return n.toNat

def scalarsOf (s : Scalar) : Nat → List UInt8 → List s.Carrier
  | 0, _ => []
  | n + 1, bytes =>
    s.ofWord (Bytes.ofLittleEndian (bytes.take s.width)) :: scalarsOf s n (bytes.drop s.width)

def scalars (s : Scalar) : Decoder (List s.Carrier) := do
  let n ← count
  let bytes ← take (n * s.width)
  return scalarsOf s n bytes

def blob : Decoder (List UInt8) := do
  let n ← count
  take n

def string : Decoder String := do
  let start := (← get).position
  let bytes ← blob
  match String.fromUTF8? ⟨bytes.toArray⟩ with
  | some s => return s
  | none => throw (.invalidText start)

def times {α : Type} (d : Decoder α) : Nat → Decoder (List α)
  | 0 => return []
  | n + 1 => do
    let x ← d
    let xs ← times d n
    return x :: xs

def counted {α : Type} (d : Decoder α) : Decoder (List α) := do
  let n ← count
  times d n

def recordsWithin {α : Type} (d : Decoder α) : Nat → Cursor → List α × Option DataFault
  | 0, _ => ([], none)
  | fuel + 1, c =>
    if c.atEnd then ([], none)
    else match d c with
      | .ok x c' =>
        let (xs, fault) := recordsWithin d fuel c'
        (x :: xs, fault)
      | .error fault _ => ([], some fault)

/-- The records that bytes hold, and the fault at which they break off. A record takes at least one
byte, so there are not more of them than bytes. -/
def records {α : Type} (d : Decoder α) (bytes : List UInt8) : List α × Option DataFault :=
  recordsWithin d bytes.length (.start bytes)

def allRecords {α : Type} (d : Decoder α) (bytes : List UInt8) : Except DataFault (List α) :=
  match records d bytes with
  | (xs, none) => .ok xs
  | (_, some fault) => .error fault

theorem take_append (n position : Nat) (xs rest : List UInt8) (h : xs.length = n) :
    take n ⟨position, xs ++ rest⟩ = .ok xs ⟨position + n, rest⟩ := by
  subst h
  simp [take, Cursor.remaining, Cursor.advance]

end Decoder

end WeightedStore
