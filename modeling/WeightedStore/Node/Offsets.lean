/-!
Lists of lists laid out flat: all elements one after the other, and where each list ends.
-/

namespace WeightedStore.Offsets

variable {α : Type}

/-- Offsets with a sign are less than this, half of what 32 bits can say. -/
def limit : Nat := UInt32.size / 2

def endsFrom (start : Nat) : List (List α) → List Nat
  | [] => []
  | l :: rest => (start + l.length) :: endsFrom (start + l.length) rest

def ends (lists : List (List α)) : List Nat := endsFrom 0 lists

def splitFrom (start : Nat) : List Nat → List α → List (List α)
  | [], _ => []
  | stop :: rest, xs => xs.take (stop - start) :: splitFrom stop rest (xs.drop (stop - start))

def split (ends : List Nat) (xs : List α) : List (List α) := splitFrom 0 ends xs

@[simp] theorem length_endsFrom (start : Nat) (lists : List (List α)) :
    (endsFrom start lists).length = lists.length := by
  induction lists generalizing start with
  | nil => rfl
  | cons l rest ih => simp [endsFrom, ih]

theorem splitFrom_endsFrom (start : Nat) (lists : List (List α)) :
    splitFrom start (endsFrom start lists) lists.flatten = lists := by
  induction lists generalizing start with
  | nil => rfl
  | cons l rest ih => simp [endsFrom, splitFrom, ih]

end WeightedStore.Offsets
