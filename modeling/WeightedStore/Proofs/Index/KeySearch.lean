import WeightedStore.Proofs.Index.ListSearch

/-!
Keys of a hash index as operands. A label stands for one value and is read as that value, unless it is the
label of what is no number. So each key that an index lists selects the bucket of its value and no other, or
is refused because no operand stands for its value.
-/

namespace WeightedStore

namespace Attribute

theorem label_eq_label_iff {t : ValueType} {x y : t.Carrier} :
    label x = label y ↔ atMost x y = true ∧ atMost y x = true := by
  constructor
  · intro h
    obtain rfl := label_injective t h
    exact ⟨atMost_refl x, atMost_refl x⟩
  · rintro ⟨hxy, hyx⟩
    exact congrArg label (atMost_antisymm x y hxy hyx)

end Attribute

namespace HashIndex

variable {ι : Type} [Identifier ι] {t : ValueType} {index : HashIndex ι t.Carrier}

theorem select_equal {value : t.Carrier} {bucket : Pool ι} (hi : index.WellFormed)
    (hbucket : index.get? value = some bucket) : index.select (Condition.equal value).holds =
      .buckets ⟨index.name, [(Attribute.label value, bucketOf bucket)]⟩ := by
  have hrun : index.bucketsWhere (Condition.equal value).holds = [(value, bucket)] :=
    hi.ascending.run_of_get? hbucket
  rw [select_eq, chosen, hrun]
  rfl

theorem search_label {value : t.Carrier} {bucket : Pool ι} (hi : index.WellFormed)
    (hbucket : index.get? value = some bucket) (h : t.isNaN value = false) :
    index.search .equal (Attribute.label value) =
      .ok (.buckets ⟨index.name, [(Attribute.label value, bucketOf bucket)]⟩) := by
  rw [search, if_neg (by decide), Condition.read_equal_label h]
  exact congrArg Except.ok (select_equal hi hbucket)

theorem search_label_of_isNaN {value : t.Carrier} (h : t.isNaN value = true) :
    index.search .equal (Attribute.label value) =
      .error (.invalidValue index.name (Attribute.label value) (Attribute.type t.Carrier)) := by
  have hread : (Condition.read .equal (Attribute.label value) : Except String (Condition t.Carrier)) =
      .error (Attribute.label value) := by
    rw [Condition.read, Condition.readValue, Attribute.read?_label_of_isNaN h]
    rfl
  rw [search, if_neg (by decide), hread]

/-- Values have the same label only if the order does not tell them apart, floating-point ones only if they
have the same bits; and each but what is no number is read from its label. So a key that a hash index lists
is the label of one value that has a bucket, and selects just this bucket, unless the value is no number:
then no operand stands for it. -/
theorem search_listed_key (t : ValueType) :
    (∀ x y : t.Carrier, Attribute.label x = Attribute.label y ↔
      Attribute.atMost x y = true ∧ Attribute.atMost y x = true) ∧
    (∀ x y : Binary32, Attribute.label x = Attribute.label y ↔ x.bits = y.bits) ∧
    (∀ x : t.Carrier, Attribute.read? (Attribute.label x) = some x ↔ t.isNaN x = false) ∧
    ∀ index : HashIndex ι t.Carrier, index.Reached → ∀ key ∈ index.keys,
      ∃ value bucket, index.get? value = some bucket ∧ Attribute.label value = key ∧
        index.search .equal key =
          if t.isNaN value then .error (.invalidValue index.name key (Attribute.type t.Carrier))
          else .ok (.buckets ⟨index.name, [(key, bucketOf bucket)]⟩) := by
  refine ⟨fun x y => Attribute.label_eq_label_iff, fun x y => ?_,
    fun x => Attribute.read?_label_eq_some_iff, fun index hi key hkey => ?_⟩
  · exact Attribute.label_injective_binary32.eq_iff.trans
      ⟨fun h => congrArg Floating.bits h, Attribute.bits_injective⟩
  · obtain ⟨⟨value, bucket⟩, hmem, rfl⟩ := List.mem_map.1 hkey
    have hbucket : index.get? value = some bucket := hi.wellFormed.ascending.get?_eq_some_iff.2 hmem
    refine ⟨value, bucket, hbucket, rfl, ?_⟩
    cases hnan : t.isNaN value with
    | true => exact search_label_of_isNaN hnan
    | false => exact search_label hi.wellFormed hbucket hnan

theorem search_listed_key_zeros :
    let payload : Binary32 := .ofBits 0x7fc00001
    let index : HashIndex UInt32 Binary32 := ⟨"score",
      [(.negativeZero, .ofWeighted [(2, .zero)]), (.zero, .ofWeighted [(1, .zero)]),
        (payload, .ofWeighted [(3, .zero)])]⟩
    index.Reached ∧ index.keys = ["-0", "0", "NaN:0x7fc00001"] ∧
      index.search .equal "-0" = .ok (.buckets ⟨"score", [("-0", ⟨[(2, .zero)], .zero⟩)]⟩) ∧
      index.search .equal "NaN:0x7fc00001" =
        .error (.invalidValue "score" "NaN:0x7fc00001" .float) := by
  intro payload index
  let first : HashIndex UInt32 Binary32 := ⟨"score", [(.zero, .ofWeighted [(1, .zero)])]⟩
  let second : HashIndex UInt32 Binary32 := ⟨"score",
    [(.negativeZero, .ofWeighted [(2, .zero)]), (.zero, .ofWeighted [(1, .zero)])]⟩
  have hfirst : (empty "score").add .zero [1] [.zero] = .ok first := rfl
  have hsecond : first.add .negativeZero [2] [.zero] = .ok second := rfl
  have hthird : second.add payload [3] [.zero] = .ok index := rfl
  have hi : index.Reached := .add (.add (.add (.empty "score") hfirst) hsecond) hthird
  have hkeys : index.keys = ["-0", "0", "NaN:0x7fc00001"] := by
    cbv
  obtain ⟨-, -, -, hsearch⟩ := search_listed_key (ι := UInt32) .float
  refine ⟨hi, hkeys, ?_, ?_⟩
  · obtain ⟨value, bucket, hbucket, hlabel, hfound⟩ := hsearch index hi "-0" (by simp [hkeys])
    obtain rfl : value = Floating.negativeZero := Attribute.label_injective .float (hlabel.trans (by cbv))
    obtain rfl : Pool.ofWeighted [(2, .zero)] = bucket := Option.some.inj hbucket
    exact hfound
  · obtain ⟨value, bucket, -, hlabel, hfound⟩ := hsearch index hi "NaN:0x7fc00001" (by simp [hkeys])
    obtain rfl : value = payload := Attribute.label_injective .float (hlabel.trans (by cbv))
    exact hfound

end HashIndex

end WeightedStore
