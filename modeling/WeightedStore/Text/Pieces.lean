/-!
Cutting a text at separators, which are single characters or double colons.
-/

namespace WeightedStore.Text

def piecesBy (p : Char → Bool) : List Char → List (List Char)
  | [] => [[]]
  | c :: cs =>
    if p c then [] :: piecesBy p cs
    else match piecesBy p cs with
      | [] => [[c]]
      | piece :: rest => (c :: piece) :: rest

/-- The pieces between double colons, the leftmost of several colons in a row making the pair. -/
def pieces : List Char → List (List Char)
  | [] => [[]]
  | ':' :: ':' :: cs => [] :: pieces cs
  | c :: cs => match pieces cs with
    | [] => [[c]]
    | piece :: rest => (c :: piece) :: rest

def cut? : List Char → Option (List Char × List Char)
  | [] => none
  | ':' :: ':' :: cs => some ([], cs)
  | c :: cs => (cut? cs).map fun (left, right) => (c :: left, right)

def items (s : String) : List String :=
  ((pieces s.toList).filter (· ≠ [])).map String.ofList

theorem pieces_ne_nil (cs : List Char) : pieces cs ≠ [] := by
  fun_induction pieces cs <;> simp_all

end WeightedStore.Text
