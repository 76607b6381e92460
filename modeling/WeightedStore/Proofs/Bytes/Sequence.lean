import Mathlib.Data.List.Forall2
import WeightedStore.Bytes.Sequence
import WeightedStore.Proofs.Bytes.Spelling

/-!
Fields written one after the other and read back. A reader that asks for the shapes of what was written gets
the values, is after each where the writer was after it, and is at the end after the last.
-/

namespace WeightedStore

theorem Shape.reads_decoder (shape : Shape) : Decoder.Reads shape.decoder (.of shape.encode) := by
  cases shape with
  | scalar s => exact Decoder.reads_scalar_encode s
  | column s => exact Decoder.reads_scalars s
  | blob => exact Decoder.reads_blob
  | string => exact Decoder.reads_string

namespace FieldValue

/-- Whether the length of a value can be said in a length field. -/
def Fits : FieldValue → Prop
  | ⟨.scalar _, _⟩ => True
  | ⟨.column _, xs⟩ => xs.length < UInt32.size
  | ⟨.blob, bytes⟩ => bytes.length < UInt32.size
  | ⟨.string, text⟩ => text.utf8ByteSize < UInt32.size

variable {x : FieldValue} {fields : List FieldValue}

theorem exists_encode (h : x.Fits) : ∃ bytes, x.encode = .ok bytes := by
  obtain ⟨shape, value⟩ := x
  cases shape with
  | scalar s => exact ⟨_, rfl⟩
  | column s => exact Bytes.exists_encodeScalars h
  | blob => exact Bytes.exists_encodeBlob h
  | string => exact Bytes.exists_encodeBlob h

theorem length_of_encode {bytes : List UInt8} (h : x.encode = .ok bytes) : bytes.length = x.size := by
  obtain ⟨shape, value⟩ := x
  cases shape with
  | scalar s =>
    obtain rfl := Except.ok.inj h
    exact s.length_encode value
  | column s => exact Bytes.length_of_encodeScalars h
  | blob => exact Bytes.length_of_encodeBlob h
  | string => exact Bytes.length_of_encodeBlob h

end FieldValue

structure Reading.Gives (r : Reading) (x : FieldValue) : Prop where
  value : r.value? = some x
  position : r.stop.position = r.start.position + x.size

namespace Shape

theorem read_of_passes {x : FieldValue} {bytes : List UInt8} (hx : x.encode = .ok bytes) {c m : Cursor}
    (h : c.Passes bytes m) : x.shape.read c = ⟨x.shape, c, .ok x.value, m⟩ := by
  have hread : x.shape.decoder c = .ok x.value m := (x.shape.reads_decoder c x.value m).2 ⟨bytes, hx, h⟩
  rw [read, hread]

/-- The reader of a sequence goes with its writer: where the writer had `front` and wrote what follows, the
reader stands behind `front` and reads what follows. -/
theorem exists_writeEach {fields : List FieldValue} (h : ∀ x ∈ fields, x.Fits) (front : List UInt8) :
    ∃ back lengths, FieldValue.writeEach front fields = .ok (front ++ back, lengths) ∧
      ∀ c stop : Cursor, c.position = front.length → c.Passes back stop →
        ∃ readings, readEach (fields.map FieldValue.shape) c = (readings, stop) ∧
          List.Forall₂ Reading.Gives readings fields ∧ readings.map (fun r => r.stop.position) = lengths := by
  induction fields generalizing front with
  | nil =>
    refine ⟨[], [], by rw [List.append_nil, FieldValue.writeEach], fun c stop _ hpasses => ?_⟩
    obtain rfl := Cursor.passes_nil_iff.1 hpasses
    exact ⟨[], rfl, .nil, rfl⟩
  | cons x fields ih =>
    obtain ⟨hx, h⟩ := List.forall_mem_cons.1 h
    obtain ⟨bytes, hbytes⟩ := FieldValue.exists_encode hx
    obtain ⟨back, lengths, hwritten, hread⟩ := ih h (front ++ bytes)
    refine ⟨bytes ++ back, (front ++ bytes).length :: lengths, ?_, fun c stop hc hpasses => ?_⟩
    · rw [FieldValue.writeEach, hbytes, ← List.append_assoc]
      simp only [bind, Except.bind, hwritten]
      rfl
    · obtain ⟨m, hfirst, hrest⟩ := Cursor.passes_append_iff.1 hpasses
      have hm : m.position = (front ++ bytes).length := by rw [hfirst.position, hc, List.length_append]
      obtain ⟨readings, hreadings, hgives, hlengths⟩ := hread m stop hm hrest
      have hsize : m.position = c.position + x.size := by
        rw [hfirst.position, FieldValue.length_of_encode hbytes]
      refine ⟨⟨x.shape, c, .ok x.value, m⟩ :: readings, ?_, .cons ⟨rfl, hsize⟩ hgives, ?_⟩
      · rw [List.map_cons, readEach, read_of_passes hbytes hfirst]
        simp only [hreadings]
      · rw [List.map_cons, hlengths, hm]

/-- Fields that can be stored are written and read back: their shapes give their values, each takes its size,
the reader is after each where the writer was after it, and nothing is left. -/
theorem readEach_writeEach {fields : List FieldValue} (h : ∀ x ∈ fields, x.Fits) :
    ∃ written lengths readings stop, FieldValue.writeEach [] fields = .ok (written, lengths) ∧
      readEach (fields.map FieldValue.shape) (.start written) = (readings, stop) ∧
      List.Forall₂ Reading.Gives readings fields ∧ readings.map (fun r => r.stop.position) = lengths ∧
      stop.atEnd = true := by
  obtain ⟨written, lengths, hwritten, hread⟩ := exists_writeEach h []
  have hpasses : (Cursor.start written).Passes written ⟨written.length, []⟩ :=
    ⟨(List.append_nil written).symm, (Nat.zero_add _).symm⟩
  obtain ⟨readings, hreadings, hgives, hlengths⟩ := hread _ _ rfl hpasses
  exact ⟨written, lengths, readings, _, hwritten, hreadings, hgives, hlengths, rfl⟩

theorem readEach_writeEach_mixed :
    let fields : List FieldValue := [⟨.scalar .uint64, (7 : UInt64)⟩, ⟨.scalar .int32, (-3 : Int32)⟩,
      ⟨.scalar .binary32, Floating.ofBits 0x7fc00001⟩, ⟨.column .int64, [(-1 : Int64), 2, 3]⟩, ⟨.string, "âge"⟩,
      ⟨.blob, [0xff, 0xfe]⟩, ⟨.column .uint32, []⟩]
    (∀ x ∈ fields, x.Fits) ∧ ∃ written readings stop,
      FieldValue.writeEach [] fields = .ok (written, [8, 12, 16, 44, 52, 58, 62]) ∧
      readEach (fields.map FieldValue.shape) (.start written) = (readings, stop) ∧
      readings.map Reading.value? = fields.map some ∧
      readings.map (fun r => r.stop.position) = [8, 12, 16, 44, 52, 58, 62] ∧ stop.atEnd = true := by
  intro fields
  have hfits : ∀ x ∈ fields, x.Fits := by simp [fields, FieldValue.Fits]; decide
  obtain ⟨written, lengths, readings, stop, hwritten, hreadings, hgives, hlengths, hstop⟩ :=
    readEach_writeEach hfits
  have hcounted : (FieldValue.writeEach [] fields).map Prod.snd = .ok [8, 12, 16, 44, 52, 58, 62] := by rfl
  rw [hwritten] at hcounted
  obtain rfl := Except.ok.inj hcounted
  refine ⟨hfits, written, readings, stop, hwritten, hreadings, ?_, hlengths, hstop⟩
  rw [← List.forall₂_eq_eq_eq, List.forall₂_map_left_iff, List.forall₂_map_right_iff]
  exact hgives.imp fun _ _ h => h.value

end Shape

end WeightedStore
