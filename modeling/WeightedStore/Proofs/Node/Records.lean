import WeightedStore.Proofs.Bytes.Spelling
import WeightedStore.Proofs.Neighborhood.Consistency
import WeightedStore.Proofs.Node.StoredColumns

/-!
The bytes of node records. What is read for a part of a record is what is sound and written with these
bytes, so a record that is accepted is the one its node is written as, and it takes as many bytes as
that node announces.
-/

namespace WeightedStore

open Decoder

namespace RecordDecoder

variable {α : Type}

theorem reads_field {d : Decoder α} {spells : Spelling α} (h : Reads d spells)
    (node : Option UInt64) (name : RecordField) : Reads (field node name d) spells :=
  fun c x c' => by
    rw [← h c x c', field]
    cases d c <;> simp

theorem reads_consistent (node : UInt64) (r : Except Inconsistency α) :
    Reads (consistent node r) fun rest x => rest = [] ∧ r = .ok x := by
  cases r with
  | ok x =>
    refine (reads_pure x).congr fun rest y => and_congr_right fun _ => ?_
    rw [Except.ok.injEq, eq_comm]
  | error cause => exact (reads_throw (NodeError.inconsistent node cause)).congr fun rest y => by simp

end RecordDecoder

open RecordDecoder

namespace Neighborhood

variable {a : Neighborhood} {c : Columns} {bytes : List UInt8}

theorem Columns.encode_eq_ok_iff :
    c.encode = .ok bytes ↔ ∃ ids weights ends neighbors totals,
      Bytes.encodeScalars .int32 c.ids = .ok ids ∧
      Bytes.encodeScalars .binary32 c.weights = .ok weights ∧
      Bytes.encodeScalars .uint32 c.ends = .ok ends ∧
      Bytes.encodeScalars .uint64 c.neighbors = .ok neighbors ∧
      Bytes.encodeScalars .binary32 c.totals = .ok totals ∧
      bytes = ids ++ (weights ++ (ends ++ (neighbors ++ totals))) := by
  rw [Columns.encode]
  simp only [Encoding.join_cons_eq_ok_iff, Encoding.join_nil_eq_ok_iff]
  constructor
  · rintro ⟨ids, _, hids, ⟨weights, _, hweights, ⟨ends, _, hends, ⟨neighbors, _, hneighbors,
      ⟨totals, _, htotals, rfl, rfl⟩, rfl⟩, rfl⟩, rfl⟩, rfl⟩
    exact ⟨ids, weights, ends, neighbors, totals, hids, hweights, hends, hneighbors, htotals,
      by rw [List.append_nil]⟩
  · rintro ⟨ids, weights, ends, neighbors, totals, hids, hweights, hends, hneighbors, htotals, rfl⟩
    exact ⟨ids, _, hids, ⟨weights, _, hweights, ⟨ends, _, hends, ⟨neighbors, _, hneighbors,
      ⟨totals, _, htotals, rfl, rfl⟩, rfl⟩, rfl⟩, rfl⟩, by rw [List.append_nil]⟩

theorem Columns.reads_decoder (node : UInt64) :
    Reads (Columns.decoder node) (.of Columns.encode) := by
  refine ((reads_field (reads_scalars .int32) _ _).bind fun ids =>
    (reads_field (reads_scalars .binary32) _ _).bind fun weights =>
    (reads_field (reads_scalars .uint32) _ _).bind fun ends =>
    (reads_field (reads_scalars .uint64) _ _).bind fun neighbors =>
    (reads_field (reads_scalars .binary32) _ _).make fun totals =>
    reads_pure (Columns.mk ids weights ends neighbors totals)).congr fun bytes c => ?_
  rw [Spelling.of, Columns.encode_eq_ok_iff]
  constructor
  · rintro ⟨ids, _, _, hids, ⟨weights, _, _, hweights, ⟨ends, _, _, hends, ⟨neighbors, _, _,
      hneighbors, ⟨totals, htotals, rfl⟩, rfl⟩, rfl⟩, rfl⟩, rfl⟩
    exact ⟨_, _, _, _, _, hids, hweights, hends, hneighbors, htotals, rfl⟩
  · rintro ⟨_, _, _, _, _, hids, hweights, hends, hneighbors, htotals, rfl⟩
    exact ⟨_, _, _, hids, ⟨_, _, _, hweights, ⟨_, _, _, hends, ⟨_, _, _, hneighbors,
      ⟨_, htotals, rfl⟩, rfl⟩, rfl⟩, rfl⟩, rfl⟩

theorem reads_columns (node : UInt64) (c : Columns) :
    Reads (match Pool.ofColumns c.ids c.weights with
      | .error fault => throw (.corrupt node .groupWeights fault)
      | .ok _ => consistent node (ofColumns c c.pool) : RecordDecoder Neighborhood) fun rest a =>
        rest = [] ∧ (∃ pool, Pool.ofColumns c.ids c.weights = .ok pool) ∧
          ofColumns c c.pool = .ok a := by
  cases Pool.ofColumns c.ids c.weights with
  | ok pool =>
    refine (reads_consistent node (ofColumns c c.pool)).congr fun rest a => and_congr_right fun _ => ?_
    exact (and_iff_right ⟨pool, rfl⟩).symm
  | error fault =>
    exact (reads_throw (NodeError.corrupt node .groupWeights fault)).congr fun rest a => by simp

theorem length_neighbors_of_encode (h : a.encode = .ok bytes) : a.neighborCount < UInt32.size := by
  obtain ⟨_, _, _, _, _, _, _, _, hneighbors, _, _⟩ := Columns.encode_eq_ok_iff.1 h
  obtain ⟨_, hcount, _⟩ := Encoding.join_pair_eq_ok_iff.1 hneighbors
  rw [← length_neighbors]
  exact (Bytes.encodeCount_eq_ok_iff.1 hcount).1

theorem reads_decoder (node : UInt64) :
    Reads (decoder node) fun bytes a => a.encode = .ok bytes ∧ a.Sound := by
  refine ((Columns.reads_decoder node).make (reads_columns node)).congr fun bytes a => ?_
  constructor
  · rintro ⟨c, hbytes, hpool, hread⟩
    obtain ⟨hlength, hweights⟩ := (Pool.ofColumns_eq_ok_iff c.ids c.weights).1 hpool
    obtain ⟨hsound, rfl⟩ := sound_of_ofColumns hlength.symm hweights hread
    exact ⟨hbytes, hsound⟩
  · rintro ⟨hbytes, hsound⟩
    have hneighbors := length_neighbors_of_encode hbytes
    have hlength : a.columns.ids.length = a.columns.weights.length := by
      rw [length_ids]
      exact hsound.length_weights.symm
    exact ⟨a.columns, hbytes, (Pool.ofColumns_eq_ok_iff _ _).2 ⟨hlength, hsound.isWeight⟩,
      hsound.ofColumns_columns hneighbors⟩

theorem length_of_encode (hsound : a.Sound) (h : a.encode = .ok bytes) :
    bytes.length = a.encodedSize := by
  obtain ⟨ids, weights, ends, neighbors, totals, hids, hweights, hends, hneighbors, htotals, rfl⟩ :=
    Columns.encode_eq_ok_iff.1 h
  have hids := Bytes.length_of_encodeScalars hids
  have hweights := Bytes.length_of_encodeScalars hweights
  have hends := Bytes.length_of_encodeScalars hends
  have hneighbors := Bytes.length_of_encodeScalars hneighbors
  have htotals := Bytes.length_of_encodeScalars htotals
  have hstored : a.columns.weights.length = a.groupCount := hsound.length_weights
  rw [length_ids] at hids
  rw [hstored] at hweights
  rw [length_ends] at hends
  rw [length_neighbors] at hneighbors
  rw [length_totals] at htotals
  rw [List.length_append, List.length_append, List.length_append, List.length_append, hids, hweights,
    hends, hneighbors, htotals, encodedSize]
  omega

theorem exists_encode (hsound : a.Sound) (hgroups : a.groupCount < UInt32.size)
    (hneighbors : a.neighborCount < UInt32.size) : ∃ bytes, a.encode = .ok bytes := by
  have hstored : a.columns.weights.length = a.groupCount := hsound.length_weights
  obtain ⟨ids, hids⟩ := Bytes.exists_encodeScalars (s := .int32) ((length_ids a).symm ▸ hgroups)
  obtain ⟨weights, hweights⟩ := Bytes.exists_encodeScalars (s := .binary32) (hstored.symm ▸ hgroups)
  obtain ⟨ends, hends⟩ := Bytes.exists_encodeScalars (s := .uint32) ((length_ends a).symm ▸ hgroups)
  obtain ⟨neighbors, hids'⟩ := Bytes.exists_encodeScalars (s := .uint64)
    ((length_neighbors a).symm ▸ hneighbors)
  obtain ⟨totals, htotals⟩ := Bytes.exists_encodeScalars (s := .binary32)
    ((length_totals a).symm ▸ hneighbors)
  exact ⟨_, Columns.encode_eq_ok_iff.2
    ⟨ids, weights, ends, neighbors, totals, hids, hweights, hends, hids', htotals, rfl⟩⟩

end Neighborhood

namespace StoredColumn

variable {α : Type} {c : StoredColumn α} {encodeValues : List α → Encoding} {bytes : List UInt8}

theorem encode_eq_ok_iff :
    c.encode encodeValues = .ok bytes ↔ ∃ offsets values,
      Bytes.encodeScalars .int32 c.offsets = .ok offsets ∧ encodeValues c.values = .ok values ∧
        bytes = offsets ++ values := by
  rw [encode]
  simp only [Encoding.join_cons_eq_ok_iff, Encoding.join_nil_eq_ok_iff]
  constructor
  · rintro ⟨offsets, _, hoffsets, ⟨values, _, hvalues, rfl, rfl⟩, rfl⟩
    exact ⟨offsets, values, hoffsets, hvalues, by rw [List.append_nil]⟩
  · rintro ⟨offsets, values, hoffsets, hvalues, rfl⟩
    exact ⟨offsets, _, hoffsets, ⟨values, _, hvalues, rfl, rfl⟩, by rw [List.append_nil]⟩

theorem reads_decoder {d : Decoder (List α)} (hd : Reads d (.of encodeValues)) (node : UInt64)
    (offsetsField valuesField : RecordField) :
    Reads (decoder node offsetsField valuesField d) (.of (encode · encodeValues)) := by
  refine ((reads_field (reads_scalars .int32) _ _).bind fun offsets =>
    (reads_field hd _ _).make fun values =>
    reads_pure (StoredColumn.mk offsets values)).congr fun bytes c => ?_
  rw [Spelling.of, encode_eq_ok_iff]
  constructor
  · rintro ⟨offsets, _, _, hoffsets, ⟨values, hvalues, rfl⟩, rfl⟩
    exact ⟨_, _, hoffsets, hvalues, rfl⟩
  · rintro ⟨_, _, hoffsets, hvalues, rfl⟩
    exact ⟨_, _, _, hoffsets, ⟨_, hvalues, rfl⟩, rfl⟩

theorem length_of_encode (size : Nat → Nat)
    (hsize : ∀ {values bytes}, encodeValues values = .ok bytes → bytes.length = size values.length)
    (h : c.encode encodeValues = .ok bytes) :
    bytes.length = Bytes.columnSize .int32 c.offsets.length + size c.values.length := by
  obtain ⟨_, _, hoffsets, hvalues, rfl⟩ := encode_eq_ok_iff.1 h
  rw [List.length_append, Bytes.length_of_encodeScalars hoffsets, hsize hvalues]

end StoredColumn

namespace FeatureColumn

variable {α : Type} {c : FeatureColumn α} {encodeValues : List α → Encoding} {bytes : List UInt8}

theorem length_of_encode_stored (size : Nat → Nat)
    (hsize : ∀ {values bytes}, encodeValues values = .ok bytes → bytes.length = size values.length)
    (h : c.stored.encode encodeValues = .ok bytes) :
    bytes.length = Bytes.columnSize .int32 c.count + size c.values.length := by
  rw [StoredColumn.length_of_encode size hsize h, length_offsets_stored]
  rfl

end FeatureColumn

namespace Features

variable {f : Features} {bytes : List UInt8}

structure Sound (f : Features) : Prop where
  integers : f.integers.Sound
  floats : f.floats.Sound
  binaries : f.binaries.Sound

theorem reads_columns (node : UInt64) (integers : StoredColumn UInt64)
    (floats : StoredColumn Binary32) (binaries : StoredColumn UInt8) :
    Reads (do return {
      integers := ← consistent node integers.read
      floats := ← consistent node floats.read
      binaries := ← consistent node binaries.read } : RecordDecoder Features) fun rest f =>
        rest = [] ∧ (f.integers.stored = integers ∧ f.floats.stored = floats ∧
          f.binaries.stored = binaries) ∧ f.Sound := by
  refine ((reads_consistent node integers.read).bind fun x =>
    (reads_consistent node floats.read).bind fun y =>
    (reads_consistent node binaries.read).make fun z =>
    reads_pure (Features.mk x y z)).congr fun rest f => ?_
  simp only [StoredColumn.read_eq_ok_iff]
  constructor
  · rintro ⟨x, _, _, ⟨rfl, hx⟩, ⟨y, _, _, ⟨rfl, hy⟩, ⟨z, ⟨rfl, hz⟩, rfl⟩, rfl⟩, rfl⟩
    exact ⟨rfl, ⟨hx.1, hy.1, hz.1⟩, hx.2, hy.2, hz.2⟩
  · rintro ⟨rfl, ⟨hx, hy, hz⟩, hsound⟩
    exact ⟨f.integers, [], [], ⟨rfl, hx, hsound.integers⟩,
      ⟨f.floats, [], [], ⟨rfl, hy, hsound.floats⟩, ⟨f.binaries, ⟨rfl, hz, hsound.binaries⟩, rfl⟩, rfl⟩,
      rfl⟩

theorem reads_decoder (node : UInt64) :
    Reads (decoder node) fun bytes f => f.encode = .ok bytes ∧ f.Sound := by
  refine ((StoredColumn.reads_decoder (reads_scalars .uint64) _ _ _).bind fun integers =>
    (StoredColumn.reads_decoder (reads_scalars .binary32) _ _ _).bind fun floats =>
    (StoredColumn.reads_decoder reads_blob _ _ _).make fun binaries =>
    reads_columns node integers floats binaries).congr fun bytes f => ?_
  rw [encode, Encoding.join_triple_eq_ok_iff]
  constructor
  · rintro ⟨_, _, _, hx, ⟨_, _, _, hy, ⟨_, hz, ⟨rfl, rfl, rfl⟩, hsound⟩, rfl⟩, rfl⟩
    exact ⟨⟨_, _, _, hx, hy, hz, rfl⟩, hsound⟩
  · rintro ⟨⟨_, _, _, hx, hy, hz, rfl⟩, hsound⟩
    exact ⟨_, _, _, hx, ⟨_, _, _, hy, ⟨_, hz, ⟨rfl, rfl, rfl⟩, hsound⟩, rfl⟩, rfl⟩

theorem length_of_encode (h : f.encode = .ok bytes) : bytes.length = f.encodedSize := by
  obtain ⟨integers, floats, binaries, hintegers, hfloats, hbinaries, rfl⟩ :=
    Encoding.join_triple_eq_ok_iff.1 h
  have hintegers := FeatureColumn.length_of_encode_stored (Bytes.columnSize .uint64)
    Bytes.length_of_encodeScalars hintegers
  have hfloats := FeatureColumn.length_of_encode_stored (Bytes.columnSize .binary32)
    Bytes.length_of_encodeScalars hfloats
  have hbinaries := FeatureColumn.length_of_encode_stored Bytes.blobSize
    Bytes.length_of_encodeBlob hbinaries
  rw [List.length_append, List.length_append, hintegers, hfloats, hbinaries, encodedSize]
  omega

end Features

namespace Node

variable {n : Node} {bytes : List UInt8}

structure Sound (n : Node) : Prop where
  outgoing : n.outgoing.Sound
  incoming : n.incoming.Sound
  features : n.features.Sound

theorem encode_eq_ok_iff :
    n.encode = .ok bytes ↔ ∃ outgoing incoming features, n.outgoing.encode = .ok outgoing ∧
      n.incoming.encode = .ok incoming ∧ n.features.encode = .ok features ∧
        bytes = n.encodeHeader ++ (outgoing ++ (incoming ++ features)) := by
  have hparts : n.encode = .ok bytes ↔ Encoding.join [.ok n.encodeHeader, n.outgoing.encode,
      n.incoming.encode, n.features.encode] = .ok bytes := by
    rw [encode]
    cases Encoding.join [.ok n.encodeHeader, n.outgoing.encode, n.incoming.encode,
      n.features.encode] <;> simp [Except.mapError]
  rw [hparts, Encoding.join_cons_eq_ok_iff]
  simp only [Encoding.join_triple_eq_ok_iff, Except.ok.injEq]
  constructor
  · rintro ⟨_, _, rfl, ⟨outgoing, incoming, features, hout, hin, hfeatures, rfl⟩, rfl⟩
    exact ⟨outgoing, incoming, features, hout, hin, hfeatures, rfl⟩
  · rintro ⟨outgoing, incoming, features, hout, hin, hfeatures, rfl⟩
    exact ⟨_, _, rfl, ⟨outgoing, incoming, features, hout, hin, hfeatures, rfl⟩, rfl⟩

theorem reads_decoder : Reads decoder fun bytes n => n.encode = .ok bytes ∧ n.Sound := by
  refine ((reads_field (reads_scalar .uint64) _ _).bind fun id : UInt64 =>
    (reads_field (reads_scalar .int32) _ _).bind fun type =>
    (reads_field (reads_scalar .binary32) _ _).bind fun weight =>
    (Neighborhood.reads_decoder id).bind fun outgoing =>
    (Neighborhood.reads_decoder id).bind fun incoming =>
    (Features.reads_decoder id).make fun features =>
    reads_pure (Node.mk id type weight outgoing incoming features)).congr fun bytes n => ?_
  rw [encode_eq_ok_iff]
  constructor
  · rintro ⟨id, _, _, rfl, ⟨type, _, _, rfl, ⟨weight, _, _, rfl, ⟨outgoing, _, _, ⟨hout, houtgoing⟩,
      ⟨incoming, _, _, ⟨hin, hincoming⟩, ⟨features, ⟨hfeat, hfeatures⟩, rfl⟩, rfl⟩, rfl⟩, rfl⟩, rfl⟩,
      rfl⟩
    refine ⟨⟨_, _, _, hout, hin, hfeat, ?_⟩, houtgoing, hincoming, hfeatures⟩
    simp only [encodeHeader, List.append_assoc]
  · rintro ⟨⟨_, _, _, hout, hin, hfeat, rfl⟩, hsound⟩
    refine ⟨n.id, _, _, rfl, ⟨n.type, _, _, rfl, ⟨n.weight, _, _, rfl, ⟨n.outgoing, _, _,
      ⟨hout, hsound.outgoing⟩, ⟨n.incoming, _, _, ⟨hin, hsound.incoming⟩, ⟨n.features,
      ⟨hfeat, hsound.features⟩, rfl⟩, rfl⟩, rfl⟩, rfl⟩, rfl⟩, ?_⟩
    simp only [encodeHeader, List.append_assoc]

/-- A byte string is accepted exactly if it is how a sound node is written. -/
theorem decode_eq_ok_iff : decode bytes = .ok n ↔ n.encode = .ok bytes ∧ n.Sound := by
  have hread (c : Cursor) : decoder (.start bytes) = .ok n c ↔
      ∃ front, (n.encode = .ok front ∧ n.Sound) ∧ (Cursor.start bytes).Passes front c :=
    reads_decoder _ n c
  constructor
  · intro h
    rw [decode] at h
    cases hd : decoder (.start bytes) with
    | error e c =>
      rw [hd] at h
      cases h
    | ok read c =>
      rw [hd] at h
      dsimp only at h
      split at h
      · rename_i hend
        obtain rfl : read = n := Except.ok.inj h
        obtain ⟨front, hn, hpasses⟩ := (hread c).1 hd
        have hfront : bytes = front := by
          have hrest := hpasses.rest
          rwa [List.isEmpty_iff.1 hend, List.append_nil] at hrest
        rwa [hfront]
      · cases h
  · intro h
    have hpasses : (Cursor.start bytes).Passes bytes ⟨bytes.length, []⟩ :=
      ⟨(List.append_nil bytes).symm, (Nat.zero_add _).symm⟩
    rw [decode, (hread _).2 ⟨bytes, h, hpasses⟩]
    rfl

theorem length_of_encode (hsound : n.Sound) (h : n.encode = .ok bytes) :
    bytes.length = n.encodedSize := by
  obtain ⟨outgoing, incoming, features, hout, hin, hfeatures, rfl⟩ := encode_eq_ok_iff.1 h
  rw [List.length_append, List.length_append, List.length_append, encodeHeader, List.length_append,
    List.length_append, Scalar.length_encode, Scalar.length_encode, Scalar.length_encode,
    Neighborhood.length_of_encode hsound.outgoing hout,
    Neighborhood.length_of_encode hsound.incoming hin, Features.length_of_encode hfeatures, encodedSize]
  omega

/-- A record is the only one of its node: written again, the node gives just these bytes, as many as it
announces, and no others are read as it. -/
theorem decode_canonical (h : decode bytes = .ok n) :
    n.encode = .ok bytes ∧ bytes.length = n.encodedSize ∧
      ∀ other : List UInt8, decode other = .ok n → other = bytes := by
  obtain ⟨hencode, hsound⟩ := decode_eq_ok_iff.1 h
  refine ⟨hencode, length_of_encode hsound hencode, fun other hother => ?_⟩
  have hencode' := (decode_eq_ok_iff.1 hother).1
  rw [hencode] at hencode'
  exact (Except.ok.inj hencode').symm

theorem decode_canonical_unsorted :
    let one : Binary32 := .ofBits 0x3f800000
    let two : Binary32 := .ofBits 0x40000000
    let n : Node := ⟨7, -1, .ofBits 0x7fc00001,
      ⟨[⟨[(2, one), (1, two)]⟩], .ofWeighted [(0, two)]⟩, ⟨[], .ofWeighted []⟩, .empty⟩
    let bytes : List UInt8 :=
      [7, 0, 0, 0, 0, 0, 0, 0, 255, 255, 255, 255, 1, 0, 192, 127,
        1, 0, 0, 0, 0, 0, 0, 0, 1, 0, 0, 0, 0, 0, 0, 64, 1, 0, 0, 0, 2, 0, 0, 0,
        2, 0, 0, 0, 2, 0, 0, 0, 0, 0, 0, 0, 1, 0, 0, 0, 0, 0, 0, 0,
        2, 0, 0, 0, 0, 0, 128, 63, 0, 0, 0, 64,
        0, 0, 0, 0, 0, 0, 0, 0, 0, 0, 0, 0, 0, 0, 0, 0, 0, 0, 0, 0,
        0, 0, 0, 0, 0, 0, 0, 0, 0, 0, 0, 0, 0, 0, 0, 0, 0, 0, 0, 0, 0, 0, 0, 0]
    decode bytes = .ok n ∧ n.encode = .ok bytes ∧ bytes.length = n.encodedSize ∧
      ∀ other : List UInt8, decode other = .ok n → other = bytes := by
  intro one two n bytes
  have hfeatures : n.features.Sound := ⟨by decide, by decide, by decide⟩
  have hincoming : n.incoming.Sound := Neighborhood.sound_of_no_group
  have houtgoing : n.outgoing.Sound :=
    ⟨rfl, by decide, rfl, Neighborhood.holds_iff.1 (by decide +kernel)⟩
  have hbytes : n.encode = .ok bytes := by decide +kernel
  have hdecode : decode bytes = .ok n :=
    decode_eq_ok_iff.2 ⟨hbytes, houtgoing, hincoming, hfeatures⟩
  exact ⟨hdecode, decode_canonical hdecode⟩

end Node

end WeightedStore
