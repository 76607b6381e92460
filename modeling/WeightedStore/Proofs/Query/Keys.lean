import WeightedStore.Attribute.Instances
import WeightedStore.Text.Pieces

/-!
The key of a query. A text that stands for an id has no colon in it, blanks and all, so that the first
double colon of a query is the one behind its key, whatever colons follow.
-/

namespace WeightedStore

namespace Text

variable {bound n m : Nat} {past : IntegerFault} {cs left : List Char}

theorem cut?_cons_of_ne {c : Char} (h : c ≠ ':') (cs : List Char) :
    cut? (c :: cs) = (cut? cs).map fun (front, back) => (c :: front, back) := by
  rw [cut?]
  rintro rest rfl
  exact absurd rfl h

theorem cut?_append (h : ':' ∉ left) (right : List Char) :
    cut? (left ++ ':' :: ':' :: right) = some (left, right) := by
  induction left with
  | nil => rfl
  | cons c left ih =>
    obtain ⟨hc, hleft⟩ := List.ne_and_not_mem_of_not_mem_cons h
    rw [List.cons_append, cut?_cons_of_ne (Ne.symm hc), ih hleft]
    rfl

theorem isDigit_of_readDigits (h : readDigits bound past cs n = .ok m) :
    ∀ c ∈ cs, c.isDigit = true := by
  induction cs generalizing n with
  | nil => exact nofun
  | cons c cs ih =>
    rw [readDigits] at h
    split at h
    · rename_i hdigit
      split at h
      · cases h
      · exact List.forall_mem_cons.2 ⟨hdigit, ih h⟩
    · cases h

theorem isDigit_of_readNat (h : readNat bound cs = .ok n) : ∀ c ∈ cs, c = '+' ∨ c.isDigit = true := by
  unfold readNat at h
  split at h
  · cases h
  · cases h
  · exact List.forall_mem_cons.2
      ⟨Or.inl rfl, fun c hc => Or.inr (isDigit_of_readDigits h c hc)⟩
  · exact fun c hc => Or.inr (isDigit_of_readDigits h c hc)

theorem mem_dropWhile {p : Char → Bool} {c : Char} (hc : c ∈ cs) (h : p c = false) :
    c ∈ cs.dropWhile p := by
  induction cs with
  | nil => cases hc
  | cons d cs ih =>
    rw [List.dropWhile_cons]
    split
    · rename_i hd
      rcases List.mem_cons.1 hc with rfl | hc
      · rw [h] at hd
        cases hd
      · exact ih hc
    · exact hc

theorem mem_trimChars {c : Char} (hc : c ∈ cs) (h : isBlank c = false) : c ∈ trimChars cs := by
  rw [trimChars, List.mem_reverse]
  exact mem_dropWhile (List.mem_reverse.2 (mem_dropWhile hc h)) h

theorem colon_notMem_of_readNat (h : readNat bound (trimChars cs) = .ok n) : ':' ∉ cs := by
  intro hcolon
  have hmem : ':' ∈ trimChars cs := mem_trimChars hcolon (by decide)
  rcases isDigit_of_readNat h _ hmem with heq | hdigit
  · exact absurd heq (by decide)
  · exact absurd hdigit (by decide)

end Text

namespace Attribute

theorem colon_notMem_of_readUnsigned? {bound n : Nat} {s : String}
    (h : readUnsigned? bound s = some n) : ':' ∉ s.toList := by
  rw [readUnsigned?] at h
  cases hread : Text.readNat bound (Text.trimChars s.toList) with
  | error fault =>
    rw [hread] at h
    cases h
  | ok n => exact Text.colon_notMem_of_readNat hread

theorem colon_notMem_of_read? {t : IdType} {s : String} {key : t.Carrier}
    (h : read? s = some key) : ':' ∉ s.toList := by
  cases t with
  | uint32 =>
    obtain ⟨n, hn, -⟩ := Option.map_eq_some_iff.1 h
    exact colon_notMem_of_readUnsigned? hn
  | uint64 =>
    obtain ⟨n, hn, -⟩ := Option.map_eq_some_iff.1 h
    exact colon_notMem_of_readUnsigned? hn

end Attribute

end WeightedStore
