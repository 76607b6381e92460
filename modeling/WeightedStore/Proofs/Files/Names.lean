import WeightedStore.Files.Path
import WeightedStore.Proofs.Decimal.ReadBack
import WeightedStore.Shard.Catalog

/-!
The names that paths end in. A name joined to a directory is the last step of the path, whatever the directory
is; so the description of an index and its parts stand at different names.
-/

namespace WeightedStore

namespace Path

variable {leaf : String}

end Path

section PartFile

variable (part : Nat)

end PartFile

end WeightedStore
