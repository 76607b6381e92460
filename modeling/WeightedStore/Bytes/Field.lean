import WeightedStore.Bytes.Decoder

/-!
The fields that stored records are made of: scalars, columns of scalars, blobs and strings, each
with its bytes and its reader.
-/

namespace WeightedStore

abbrev Encoding := Except DataFault (List UInt8)

def Encoding.join : List Encoding → Encoding
  | [] => .ok []
  | piece :: rest => do
    let bytes ← piece
    let others ← join rest
    return bytes ++ others

namespace Bytes

/-- A length field. It has 32 bits, and what is longer than they can say is not stored. -/
def encodeCount (n : Nat) : Encoding :=
  if n < UInt32.size then .ok (Scalar.uint32.encode (UInt32.ofNat n)) else .error (.oversized n)

def encodeScalars (s : Scalar) (xs : List s.Carrier) : Encoding :=
  .join [encodeCount xs.length, .ok (xs.flatMap s.encode)]

def encodeBlob (bytes : List UInt8) : Encoding := .join [encodeCount bytes.length, .ok bytes]

def encodeString (s : String) : Encoding := encodeBlob s.toUTF8.data.toList

def columnSize (s : Scalar) (n : Nat) : Nat := 4 + n * s.width

def blobSize (n : Nat) : Nat := 4 + n

end Bytes

inductive Shape
  | scalar (s : Scalar)
  | column (s : Scalar)
  | blob
  | string
  deriving DecidableEq, Repr

namespace Shape

abbrev Carrier : Shape → Type
  | scalar s => s.Carrier
  | column s => List s.Carrier
  | blob => List UInt8
  | string => String

def encode : (shape : Shape) → shape.Carrier → Encoding
  | scalar s, x => .ok (s.encode x)
  | column s, xs => Bytes.encodeScalars s xs
  | blob, bytes => Bytes.encodeBlob bytes
  | string, text => Bytes.encodeString text

def decoder : (shape : Shape) → Decoder shape.Carrier
  | scalar s => Decoder.scalar s
  | column s => Decoder.scalars s
  | blob => Decoder.blob
  | string => Decoder.string

end Shape

end WeightedStore
