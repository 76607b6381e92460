/-!
What the file system can answer in place of a file.
-/

namespace WeightedStore

inductive FileFault
  | notFound
  | alreadyThere
  | notDirectory
  | isDirectory
  | nameTooLong
  | invalidText
  deriving DecidableEq, Repr

def FileFault.message : FileFault → String
  | notFound => "No such file or directory (os error 2)"
  | alreadyThere => "File exists (os error 17)"
  | notDirectory => "Not a directory (os error 20)"
  | isDirectory => "Is a directory (os error 21)"
  | nameTooLong => "File name too long (os error 36)"
  | invalidText => "stream did not contain valid UTF-8"

end WeightedStore
