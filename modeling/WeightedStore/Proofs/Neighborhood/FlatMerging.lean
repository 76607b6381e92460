import WeightedStore.Proofs.Neighborhood.Flat

/-!
Neighbors merged by id on the flat columns. Every group has a front that moves through it, and each step
reads at the fronts only; a front that has come to the end of its group is not read any more.
-/

namespace WeightedStore.Neighborhood

namespace Columns

def pop? (c : Columns) : List Front → Option (Option (Neighbor × List Front))
  | [] => some none
  | f :: rest => do
    let popped ← pop? c rest
    if f.stop ≤ f.place then return popped.map fun (n, rest) => (n, f :: rest)
    else
      let n ← c.neighborAt? f.start f.place f.group
      let next : Front := { f with place := f.place + 1 }
      match popped with
      | none => return some (n, next :: rest)
      | some (m, others) =>
        if m.id < n.id then return some (m, f :: others) else return some (n, next :: rest)

variable {c : Columns} {f : Front} {fronts : List Front} {l : List Neighbor}
  {lists : List (List Neighbor)}

end Columns

variable {a : Neighborhood}

end WeightedStore.Neighborhood
