import Mathlib
import WeightedStore.Command.Run
import WeightedStore.Proofs.Command.Rows
import WeightedStore.Proofs.Files.Names
import WeightedStore.Proofs.Files.Writing
import WeightedStore.Proofs.Index.RoundTrip

/-!
Building a part of a range index from a text. All lines are read before the first change is made, so that a bad
line leaves the files as they were, wherever it stands. When every line is good and the files can be written,
the part is laid down with its description and holds the rows of the text in the order of their values.
-/

namespace WeightedStore.Command.Run

open CsvRow

variable {files : FileSystem} {directory name csv text folder path : String} {part : Nat}
  {index : RangeIndex UInt64 Binary32} {bytes : List UInt8} {made described written : Changed}

section LayDown

variable {c : Changed}
  (hmade : Changing.makeDirectory folder c = .ok () made)
  (hdescribed : Changing.write (Path.join folder Catalog.descriptionFile) csvDescription.encode made =
    .ok () described)

include hmade hdescribed

end LayDown

section Laid

variable (hread : files.readText csv = .ok text) (hindex : indexOf name text = .ok index) {c : Changed}

include hread hindex

end Laid

section Zeros

end Zeros

end WeightedStore.Command.Run
