import WeightedStore.Attribute.Instances
import WeightedStore.Proofs.Bytes.Spelling

/-!
Stored values and columns. They are read exactly where they were written, and take the bytes that
were counted for them. A column is written if its length field can say how long it is and every
value in it can be written, which holds of all but strings of too many bytes.
-/

namespace WeightedStore

namespace Identifier

variable {ι : Type} [Identifier ι] {ids : List ι} {bytes : List UInt8}

theorem reads_columnDecoder :
    Decoder.Reads columnDecoder (.of (encodeColumn : List ι → Encoding)) := by
  refine ((Decoder.reads_scalars _).make fun xs => Decoder.reads_pure _).congr fun bytes ids => ?_
  constructor
  · rintro ⟨xs, hxs, rfl⟩
    have hmap : (xs.map ofScalar).map (toScalar : ι → _) = xs := by
      simp [Function.comp_def, toScalar_ofScalar]
    rw [Spelling.of, encodeColumn, hmap]
    exact hxs
  · intro h
    have hmap : (ids.map toScalar).map ofScalar = ids := by
      simp [Function.comp_def, ofScalar_toScalar]
    exact ⟨_, h, hmap.symm⟩

theorem length_of_encodeColumn (h : encodeColumn ids = .ok bytes) :
    bytes.length = columnSize ι ids.length := by
  rw [Bytes.length_of_encodeScalars h, List.length_map, columnSize]

theorem exists_encodeColumn (h : ids.length < UInt32.size) : ∃ bytes, encodeColumn ids = .ok bytes :=
  Bytes.exists_encodeScalars (by rwa [List.length_map])

end Identifier

def ValueType.Fits : (t : ValueType) → t.Carrier → Prop
  | string, s => s.utf8ByteSize < UInt32.size
  | uint32, _ | int32, _ | uint64, _ | int64, _ | float, _ => True

namespace Attribute

variable {t : ValueType} {x : t.Carrier} {xs : List t.Carrier} {bytes : List UInt8}

theorem reads_decoder (t : ValueType) :
    Decoder.Reads (decoder : Decoder t.Carrier) (.of encode) := by
  cases t with
  | string => exact Decoder.reads_string
  | uint32 => exact Decoder.reads_scalar_encode .uint32
  | int32 => exact Decoder.reads_scalar_encode .int32
  | uint64 => exact Decoder.reads_scalar_encode .uint64
  | int64 => exact Decoder.reads_scalar_encode .int64
  | float => exact Decoder.reads_scalar_encode .binary32

theorem reads_columnDecoder (t : ValueType) :
    Decoder.Reads (columnDecoder : Decoder (List t.Carrier)) (.of encodeColumn) :=
  Decoder.reads_counted (reads_decoder t)

theorem length_of_encode (h : encode x = .ok bytes) : bytes.length = size x := by
  cases t with
  | string =>
    obtain ⟨field, hfield, rfl⟩ := Encoding.join_pair_eq_ok_iff.1 h
    rw [List.length_append, Bytes.length_of_encodeCount hfield]
    rfl
  | uint32 => exact Except.ok.inj h ▸ Scalar.length_encode .uint32 x
  | int32 => exact Except.ok.inj h ▸ Scalar.length_encode .int32 x
  | uint64 => exact Except.ok.inj h ▸ Scalar.length_encode .uint64 x
  | int64 => exact Except.ok.inj h ▸ Scalar.length_encode .int64 x
  | float => exact Except.ok.inj h ▸ Scalar.length_encode .binary32 x

theorem exists_encode (h : t.Fits x) : ∃ bytes, encode x = .ok bytes := by
  cases t with
  | string =>
    obtain ⟨field, hfield⟩ := Bytes.exists_encodeCount h
    exact ⟨_, Encoding.join_pair_eq_ok_iff.2 ⟨field, hfield, rfl⟩⟩
  | uint32 | int32 | uint64 | int64 | float => exact ⟨_, rfl⟩

theorem length_of_encodeColumn (h : encodeColumn xs = .ok bytes) :
    bytes.length = columnSize xs := by
  obtain ⟨field, body, hfield, hbody, rfl⟩ := Encoding.join_cons_eq_ok_iff.1 h
  rw [List.length_append, Bytes.length_of_encodeCount hfield, columnSize,
    Encoding.length_of_join_map (fun _ _ _ => length_of_encode) hbody]

theorem exists_encodeColumn (hlength : xs.length < UInt32.size) (h : ∀ x ∈ xs, t.Fits x) :
    ∃ bytes, encodeColumn xs = .ok bytes :=
  Encoding.exists_join <| List.forall_mem_cons.2
    ⟨Bytes.exists_encodeCount hlength, List.forall_mem_map.2 fun x hx => exists_encode (h x hx)⟩

end Attribute

end WeightedStore
