import WeightedStore.Binary.Arithmetic

/-!
Selections as a plain list of ids with weights, in ascending order of ids. An id may be listed
several times; two lists are compared run by run.
-/

namespace WeightedStore

abbrev Entry := UInt64 × Binary32

abbrev Ascending (entries : List Entry) : Prop := entries.Pairwise fun a b => a.1 ≤ b.1

def sortById (entries : List Entry) : List Entry := entries.mergeSort fun a b => a.1 ≤ b.1

theorem ascending_sortById (entries : List Entry) : Ascending (sortById entries) := by
  have h : (sortById entries).Pairwise fun a b => decide (a.1 ≤ b.1) = true :=
    List.pairwise_mergeSort (fun a b c => by simpa using UInt64.le_trans)
      (fun a b => by simpa using UInt64.le_total a.1 b.1) entries
  exact h.imp of_decide_eq_true

structure Listing where
  name : String
  entries : List Entry
  sorted : Ascending entries
  deriving DecidableEq

namespace Listing

def ofEntries (name : String) (entries : List Entry) : Listing :=
  ⟨name, sortById entries, ascending_sortById entries⟩

def common : List Entry → List Entry → List Entry
  | [], _ => []
  | _, [] => []
  | a :: l, b :: r =>
    if a.1 < b.1 then common l (b :: r)
    else if b.1 < a.1 then common (a :: l) r
    else a :: common l r
termination_by l r => l.length + r.length

/-- The entries of both lists, those of the second that find a partner in the first left out. -/
def combined : List Entry → List Entry → List Entry
  | [], r => r
  | l, [] => l
  | a :: l, b :: r =>
    if a.1 < b.1 then a :: combined l (b :: r)
    else if b.1 < a.1 then b :: combined (a :: l) r
    else a :: combined l r
termination_by l r => l.length + r.length

theorem common_sublist (l r : List Entry) : (common l r).Sublist l := by
  fun_induction common l r with
  | case1 => exact List.Sublist.refl _
  | case2 => exact List.nil_sublist _
  | case3 a l b r _ ih => exact ih.cons a
  | case4 a l b r _ _ ih => exact ih
  | case5 a l b r _ _ ih => exact ih.cons_cons a

theorem ascending_common {l r : List Entry} (hl : Ascending l) : Ascending (common l r) :=
  hl.sublist (common_sublist l r)

theorem mem_or_mem_of_mem_combined {l r : List Entry} {e : Entry} (h : e ∈ combined l r) :
    e ∈ l ∨ e ∈ r := by
  fun_induction combined l r with
  | case1 r => exact Or.inr h
  | case2 l => exact Or.inl h
  | case3 a l b r _ ih =>
    rcases List.mem_cons.1 h with rfl | h
    · exact Or.inl List.mem_cons_self
    · exact (ih h).imp_left (List.mem_cons_of_mem a)
  | case4 a l b r _ _ ih =>
    rcases List.mem_cons.1 h with rfl | h
    · exact Or.inr List.mem_cons_self
    · exact (ih h).imp_right (List.mem_cons_of_mem b)
  | case5 a l b r _ _ ih =>
    rcases List.mem_cons.1 h with rfl | h
    · exact Or.inl List.mem_cons_self
    · exact (ih h).imp (List.mem_cons_of_mem a) (List.mem_cons_of_mem b)

theorem le_of_ascending_cons {a e : Entry} {l : List Entry} (h : Ascending (a :: l))
    (he : e ∈ a :: l) : a.1 ≤ e.1 := by
  rcases List.mem_cons.1 he with rfl | he
  · exact UInt64.le_refl _
  · exact (List.pairwise_cons.1 h).1 e he

theorem ascending_combined {l r : List Entry} (hl : Ascending l) (hr : Ascending r) :
    Ascending (combined l r) := by
  fun_induction combined l r with
  | case1 r => exact hr
  | case2 l => exact hl
  | case3 a l b r hab ih =>
    refine List.pairwise_cons.2 ⟨fun e he => ?_, ih (List.pairwise_cons.1 hl).2 hr⟩
    rcases mem_or_mem_of_mem_combined he with he | he
    · exact (List.pairwise_cons.1 hl).1 e he
    · exact UInt64.le_trans (UInt64.le_of_lt hab) (le_of_ascending_cons hr he)
  | case4 a l b r _ hba ih =>
    refine List.pairwise_cons.2 ⟨fun e he => ?_, ih hl (List.pairwise_cons.1 hr).2⟩
    rcases mem_or_mem_of_mem_combined he with he | he
    · exact UInt64.le_trans (UInt64.le_of_lt hba) (le_of_ascending_cons hl he)
    · exact (List.pairwise_cons.1 hr).1 e he
  | case5 a l b r _ hba ih =>
    obtain ⟨ha, hl⟩ := List.pairwise_cons.1 hl
    obtain ⟨hb, hr⟩ := List.pairwise_cons.1 hr
    refine List.pairwise_cons.2 ⟨fun e he => ?_, ih hl hr⟩
    rcases mem_or_mem_of_mem_combined he with he | he
    · exact ha e he
    · exact UInt64.le_trans (UInt64.not_lt.1 hba) (hb e he)

def intersection (l r : Listing) : Listing :=
  ⟨l.name, common l.entries r.entries, ascending_common l.sorted⟩

def union (l r : Listing) : Listing :=
  ⟨l.name, combined l.entries r.entries, ascending_combined l.sorted r.sorted⟩

end Listing

end WeightedStore
