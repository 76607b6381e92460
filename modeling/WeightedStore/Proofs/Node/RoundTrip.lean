import WeightedStore.Proofs.Neighborhood.Built
import WeightedStore.Proofs.Node.Records

/-!
Nodes that are put together and written. What is built of neighborhoods and features is sound, so its
record is read back as the same node. The one thing that can stand in the way is a column of more
features than a length field can say.
-/

namespace WeightedStore

namespace FeatureColumn

variable {α : Type} {c : FeatureColumn α} {encodeValues : List α → Encoding}

end FeatureColumn

namespace Features

variable {f : Features} {integers : List (List UInt64)} {floats : List (List Binary32)}
  {binaries : List (List UInt8)}

end Features

theorem Neighborhood.Built.exists_encode {a : Neighborhood} (h : a.Built) : ∃ bytes, a.encode = .ok bytes :=
  Neighborhood.exists_encode h.sound (Nat.lt_of_le_of_lt h.groupCount_le (by decide)) h.neighborCount_lt

namespace Node

variable {n : Node} {integers : List (List UInt64)} {floats : List (List Binary32)}
  {binaries : List (List UInt8)}

end Node

end WeightedStore
