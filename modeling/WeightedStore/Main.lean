import WeightedStore.Command.Run

/-!
The program: reads the files that a command looks at, runs the command on them, and carries out what
the command answers.
-/

namespace WeightedStore.Disk

/-- What stands at a path, as the changes that would make it, down to a number of levels. What
cannot be looked at is left out. -/
def survey : Nat → String → IO (List FileChange)
  | 0, _ => return []
  | depth + 1, path => do
    try
      let real ← IO.FS.realPath path
      if ← real.isDir then
        let inside ← (← real.readDir).toList.mapM fun entry =>
          survey depth (Path.join path entry.fileName)
        return .makeDirectory (.ofText path) :: inside.flatten
      else return [.write (.ofText path) (← IO.FS.readBinFile path).toList]
    catch _ => return []

def surveyTo (depth : Nat) (path : Path) : IO (List FileChange) := do
  let count := path.steps.length
  let found ← (List.range (count + 1)).mapM fun i =>
    survey (if i = count then depth else 1) { path with steps := path.steps.take i : Path }.text
  return found.flatten

def filesAt (places : List (String × Nat)) : IO FileSystem := do
  let place := Path.ofText (← IO.currentDir).toString
  let found ← places.mapM fun (text, depth) => do
    let path := Path.ofText text
    let steps := if path.fromRoot then path.steps else place.steps ++ path.steps
    surveyTo depth { fromRoot := true, steps }
  let files : FileSystem := ⟨.directory [], place.steps.map Step.text⟩
  return found.flatten.foldl (fun files change => (change.apply files).toOption.getD files) files

def carryOut : FileChange → IO Unit
  | .makeDirectory path => IO.FS.createDir path.text
  | .write path bytes => IO.FS.writeBinFile path.text ⟨bytes.toArray⟩

end WeightedStore.Disk

open WeightedStore in
def main (arguments : List String) : IO UInt32 := do
  let files ← Disk.filesAt (((Arguments.read arguments).map Invocation.places).getD [])
  let seed := Bytes.ofLittleEndian (← IO.getRandomBytes 8).toList
  let stream := WordStream.scripted [] (UInt64.ofNat seed)
  let outcome := Command.Run.run files stream arguments
  outcome.changes.forM Disk.carryOut
  IO.print outcome.out
  IO.eprint outcome.err
  return outcome.code.toUInt32
