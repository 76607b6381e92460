import Mathlib.Data.List.Infix
import WeightedStore.Text.Pieces

/-!
The items of a list operand. Texts joined by double colons are cut apart where they were joined, single
colons in them notwithstanding, as long as no text has a double colon of its own or ends in a colon that
would make one with the next.
-/

namespace WeightedStore.Text

structure Listable (texts : List String) : Prop where
  nonempty : ∀ s ∈ texts, s ≠ ""
  apart : ∀ s ∈ texts, ¬[':', ':'] <:+: s.toList
  ends : ∀ s ∈ texts.dropLast, ¬[':'] <:+ s.toList

section Chars

variable {c : Char} {cs left : List Char}

theorem pieces_cons (h : ¬[':', ':'] <+: c :: cs) : pieces (c :: cs) = (pieces cs).modifyHead (c :: ·) := by
  have hne := pieces_ne_nil cs
  rw [pieces]
  · cases hp : pieces cs with
    | nil => exact absurd hp hne
    | cons piece rest => rfl
  · rintro rest rfl rfl
    exact h (List.prefix_append [':', ':'] rest)

theorem pieces_of_apart (h : ¬[':', ':'] <:+: cs) : pieces cs = [cs] := by
  induction cs with
  | nil => rfl
  | cons c cs ih =>
    rw [pieces_cons fun hprefix => h hprefix.isInfix, ih fun hinfix => h (List.infix_cons hinfix)]
    rfl

theorem pieces_append (hapart : ¬[':', ':'] <:+: left) (hend : ¬[':'] <:+ left) (right : List Char) :
    pieces (left ++ ':' :: ':' :: right) = left :: pieces right := by
  induction left with
  | nil => rfl
  | cons c left ih =>
    have hpair : ¬[':', ':'] <+: c :: (left ++ ':' :: ':' :: right) := by
      -- the second colon of a pair here would be the one behind `left`, or stand in it
      intro hprefix
      obtain ⟨rfl, hnext⟩ := List.cons_prefix_cons.1 hprefix
      cases left with
      | nil => exact hend (List.suffix_refl _)
      | cons d left =>
        obtain ⟨rfl, -⟩ := List.cons_prefix_cons.1 hnext
        exact hapart (List.prefix_append [':', ':'] left).isInfix
    rw [List.cons_append, pieces_cons hpair, ih (fun h => hapart (List.infix_cons h))
      (fun h => hend (h.trans (List.suffix_cons c left)))]
    rfl

theorem pieces_intercalate {texts : List (List Char)} (hne : texts ≠ [])
    (hapart : ∀ cs ∈ texts, ¬[':', ':'] <:+: cs) (hend : ∀ cs ∈ texts.dropLast, ¬[':'] <:+ cs) :
    pieces (List.intercalate [':', ':'] texts) = texts := by
  induction texts with
  | nil => exact absurd rfl hne
  | cons cs texts ih =>
    obtain ⟨hcs, hapart⟩ := List.forall_mem_cons.1 hapart
    cases texts with
    | nil =>
      rw [List.intercalate_singleton]
      exact pieces_of_apart hcs
    | cons next texts =>
      rw [List.dropLast_cons_cons] at hend
      obtain ⟨hcsEnd, hend⟩ := List.forall_mem_cons.1 hend
      rw [List.intercalate_cons_cons, List.append_assoc, List.cons_append, List.cons_append, List.nil_append,
        pieces_append hcs hcsEnd, ih (List.cons_ne_nil _ _) hapart hend]

end Chars

theorem items_intercalate {texts : List String} (h : Listable texts) :
    items ("::".intercalate texts) = texts := by
  by_cases hne : texts = []
  · subst hne
    rfl
  · have hpieces : pieces ("::".intercalate texts).toList = texts.map String.toList := by
      rw [String.toList_intercalate]
      refine pieces_intercalate (by simpa using hne) (List.forall_mem_map.2 h.apart) ?_
      rw [← List.map_dropLast]
      exact List.forall_mem_map.2 h.ends
    have hkept : (texts.map String.toList).filter (· ≠ []) = texts.map String.toList := by
      refine List.filter_eq_self.2 (List.forall_mem_map.2 fun s hs => ?_)
      simpa using h.nonempty s hs
    rw [items, hpieces, hkept, List.map_map]
    exact List.map_id'' (fun s => String.ofList_toList) texts

end WeightedStore.Text
