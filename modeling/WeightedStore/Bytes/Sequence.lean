import WeightedStore.Bytes.Field

/-!
Fields of any shapes one after the other. A writer appends to the bytes it has; a reader goes on from where
it stopped, also after a field that it could not read.
-/

namespace WeightedStore

structure FieldValue where
  shape : Shape
  value : shape.Carrier

namespace FieldValue

def encode (x : FieldValue) : Encoding := x.shape.encode x.value

def size : FieldValue → Nat
  | ⟨.scalar s, _⟩ => s.width
  | ⟨.column s, xs⟩ => Bytes.columnSize s xs.length
  | ⟨.blob, bytes⟩ => Bytes.blobSize bytes.length
  | ⟨.string, text⟩ => Bytes.blobSize text.utf8ByteSize

/-- Writes fields behind the bytes that are there. Gives all bytes, and how many there are after each field. -/
def writeEach (bytes : List UInt8) : List FieldValue → Except DataFault (List UInt8 × List Nat)
  | [] => .ok (bytes, [])
  | x :: xs => do
    let more ← x.encode
    let (written, lengths) ← writeEach (bytes ++ more) xs
    return (written, (bytes ++ more).length :: lengths)

end FieldValue

structure Reading where
  shape : Shape
  start : Cursor
  outcome : Except DataFault shape.Carrier
  stop : Cursor

def Reading.value? (r : Reading) : Option FieldValue :=
  match r.outcome with
  | .ok x => some ⟨r.shape, x⟩
  | .error _ => none

namespace Shape

def read (shape : Shape) (c : Cursor) : Reading :=
  match shape.decoder c with
  | .ok x stop => ⟨shape, c, .ok x, stop⟩
  | .error fault stop => ⟨shape, c, .error fault, stop⟩

@[simp] theorem shape_read (shape : Shape) (c : Cursor) : (shape.read c).shape = shape := by
  rw [read]
  split <;> rfl

@[simp] theorem start_read (shape : Shape) (c : Cursor) : (shape.read c).start = c := by
  rw [read]
  split <;> rfl

def readEach : List Shape → Cursor → List Reading × Cursor
  | [], c => ([], c)
  | shape :: shapes, c =>
    let reading := shape.read c
    let (readings, stop) := readEach shapes reading.stop
    (reading :: readings, stop)

end Shape

end WeightedStore
