import WeightedStore.Command.CsvRow
import WeightedStore.Proofs.Index.RangeMerge
import WeightedStore.Proofs.Traversal

/-!
What the lines of a text tell. A text gives an index exactly if each of its lines, blank ones and comments
apart, tells a row with a good weight, and then the index is built from those rows in their order.
-/

namespace WeightedStore

namespace Text

variable {bound n : Nat} {cs : List Char}

end Text

namespace CsvRow

variable {text name : String} {cs : List Char} {row : CsvRow}

end CsvRow

end WeightedStore
