import WeightedStore.Index.Error

/-!
Failures of a command and their report: a message and the chain of causes beneath it.
-/

namespace WeightedStore

structure Failure where
  message : String
  causes : List String := []
  deriving DecidableEq, Repr

namespace Failure

def ofStore (e : StoreError) : Failure := ⟨e.message, e.cause?.toList⟩

def within (context : String) (f : Failure) : Failure := ⟨context, f.message :: f.causes⟩

def hang (blanks : Nat) (text : String) : List Char :=
  text.toList.flatMap fun c => if c = '\n' then '\n' :: List.replicate blanks ' ' else [c]

def numbered (number : Nat) (cause : String) : List Char :=
  let digits := Nat.toDigits 10 number
  List.replicate (5 - digits.length) ' ' ++ digits ++ [':', ' '] ++ hang 7 cause ++ ['\n']

def causeLines : List String → List Char
  | [] => []
  | [cause] => "\nCaused by:\n    ".toList ++ hang 4 cause ++ ['\n']
  | causes => "\nCaused by:\n".toList ++ causes.zipIdx.flatMap fun (cause, i) => numbered i cause

def report (f : Failure) : String :=
  s!"Error: {f.message}\n" ++ String.ofList (causeLines f.causes)

end Failure

end WeightedStore
