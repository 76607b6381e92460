import Mathlib.Data.List.Basic
import WeightedStore.Query.Condition

/-!
What an operator asks of a value once its operand is read, and how a condition comes out of the two:
the first text that stands for no value refuses the operand, and otherwise the condition holds of
the values that the operator admits. The operators come in opposite pairs.
-/

namespace WeightedStore

variable {α : Type} [Attribute α]

def Attribute.reads (α : Type) [Attribute α] (text : String) : Bool :=
  (Attribute.read? text : Option α).isSome

namespace Operator

def texts (op : Operator) (operand : String) : List String :=
  if op.takesList then Text.items operand else [operand]

def relates : Operator → α → α → Bool
  | less, x, v => Attribute.before x v
  | lessEqual, x, v => Attribute.atMost x v
  | greater, x, v => Attribute.before v x
  | greaterEqual, x, v => Attribute.atMost v x
  | equal, x, v | isIn, x, v => x = v
  | notEqual, x, v | notIn, x, v => x ≠ v

/-- Which values an operator admits: for `isIn` those that equal some value of the operand, for the
others those that stand to each of them as the operator says. -/
def admits (op : Operator) (vs : List α) (x : α) : Bool :=
  if op = isIn then vs.any (op.relates x) else vs.all (op.relates x)

def opposite : Operator → Operator
  | less => greaterEqual
  | lessEqual => greater
  | equal => notEqual
  | greater => lessEqual
  | greaterEqual => less
  | notEqual => equal
  | isIn => notIn
  | notIn => isIn

theorem texts_opposite (op : Operator) (operand : String) :
    op.opposite.texts operand = op.texts operand := by
  cases op <;> rfl

theorem relates_opposite (op : Operator) (x v : α) :
    op.opposite.relates x v = !op.relates x v := by
  cases op <;> simp [opposite, relates, Attribute.before]

theorem admits_singleton (op : Operator) (v x : α) : op.admits [v] x = op.relates x v := by
  simp [admits]

theorem admits_isIn (vs : List α) (x : α) : isIn.admits vs x = decide (x ∈ vs) := by
  rw [Bool.eq_iff_iff]
  simp [admits, relates, List.any_eq_true]

theorem admits_notIn (vs : List α) (x : α) : notIn.admits vs x = !isIn.admits vs x := by
  change vs.all (notIn.relates x) = !vs.any (isIn.relates x)
  rw [List.all_eq_not_any_not]
  simp only [← relates_opposite, opposite]

theorem exists_mapM_of_reads {texts : List String}
    (h : ∀ text ∈ texts, Attribute.reads α text = true) :
    ∃ vs : List α, texts.mapM Attribute.read? = some vs := by
  induction texts with
  | nil => exact ⟨[], rfl⟩
  | cons text rest ih =>
    obtain ⟨v, hv⟩ := Option.isSome_iff_exists.1 (h text List.mem_cons_self)
    obtain ⟨vs, hvs⟩ := ih fun t ht => h t (List.mem_cons_of_mem _ ht)
    exact ⟨v :: vs, by rw [List.mapM_cons, hv, hvs]; rfl⟩

theorem eq_singleton_of_mapM {op : Operator} {operand : String} {vs : List α}
    (hop : op.takesList = false) (h : (op.texts operand).mapM Attribute.read? = some vs) :
    ∃ v, Attribute.read? operand = some v ∧ vs = [v] := by
  rw [texts, hop] at h
  cases hv : (Attribute.read? operand : Option α) with
  | none => simp [hv] at h
  | some v => exact ⟨v, rfl, by simpa [hv] using h.symm⟩

theorem admits_opposite {op : Operator} {operand : String} {vs : List α}
    (h : (op.texts operand).mapM Attribute.read? = some vs) (x : α) :
    op.opposite.admits vs x = !op.admits vs x := by
  cases hop : op.takesList with
  | false =>
    obtain ⟨v, -, rfl⟩ := eq_singleton_of_mapM hop h
    rw [admits_singleton, admits_singleton, relates_opposite]
  | true =>
    cases op with
    | isIn => exact admits_notIn vs x
    | notIn => rw [admits_notIn, Bool.not_not, opposite]
    | _ => cases hop

end Operator

namespace Condition

theorem readValues_cons (text : String) (rest : List String) :
    (readValues (text :: rest) : Except String (List α)) = match Attribute.read? text with
      | some v => (v :: ·) <$> readValues rest
      | none => .error text := by
  rw [readValues, readValue]
  cases (Attribute.read? text : Option α) with
  | none => rfl
  | some v => cases (readValues rest : Except String (List α)) <;> rfl

theorem readValues_eq_error_iff {texts : List String} {t : String} :
    (readValues texts : Except String (List α)) = .error t ↔
      texts.find? (fun text => !Attribute.reads α text) = some t := by
  induction texts with
  | nil => simp [readValues]
  | cons text rest ih =>
    rw [readValues_cons, List.find?_cons, Attribute.reads]
    cases (Attribute.read? text : Option α) with
    | none => simp
    | some v =>
      simp only [Option.isSome_some, Bool.not_true]
      rw [← ih]
      cases (readValues rest : Except String (List α)) <;> simp [Functor.map, Except.map]

theorem readValues_of_mapM {texts : List String} {vs : List α}
    (h : texts.mapM Attribute.read? = some vs) : readValues texts = .ok vs := by
  induction texts generalizing vs with
  | nil => simp_all [readValues]
  | cons text rest ih =>
    rw [List.mapM_cons] at h
    obtain ⟨v, hv, h⟩ := Option.bind_eq_some_iff.1 h
    obtain ⟨ws, hws, h⟩ := Option.bind_eq_some_iff.1 h
    obtain rfl := Option.some.inj h
    rw [readValues_cons, hv, ih hws]
    rfl

theorem readValue_eq_error_iff {text t : String} :
    (readValue text : Except String α) = .error t ↔
      [text].find? (fun text => !Attribute.reads α text) = some t := by
  rw [readValue, List.find?_singleton, Attribute.reads]
  cases (Attribute.read? text : Option α) <;> simp

theorem read_eq_error_iff {op : Operator} {operand t : String} :
    (read op operand : Except String (Condition α)) = .error t ↔
      (op.texts operand).find? (fun text => !Attribute.reads α text) = some t := by
  have hmap {β : Type} (f : β → Condition α) (e : Except String β) :
      f <$> e = .error t ↔ e = .error t := by
    cases e <;> simp [Functor.map, Except.map]
  cases op <;> rw [read, hmap]
  case isIn | notIn => exact readValues_eq_error_iff
  all_goals exact readValue_eq_error_iff

theorem read_of_mapM {op : Operator} {operand : String} {vs : List α}
    (h : (op.texts operand).mapM Attribute.read? = some vs) :
    ∃ c : Condition α, read op operand = .ok c ∧ ∀ x, c.holds x = op.admits vs x := by
  cases hop : op.takesList with
  | true =>
    have hvs : readValues (Text.items operand) = .ok vs := by
      rw [Operator.texts, hop] at h
      exact readValues_of_mapM h
    cases op with
    | isIn => exact ⟨among vs, by rw [read, hvs]; rfl, fun x => (Operator.admits_isIn vs x).symm⟩
    | notIn =>
      refine ⟨outside vs, by rw [read, hvs]; rfl, fun x => ?_⟩
      rw [Operator.admits_notIn, Operator.admits_isIn, ← decide_not]
      rfl
    | _ => cases hop
  | false =>
    obtain ⟨v, hv, rfl⟩ := Operator.eq_singleton_of_mapM hop h
    have hv : readValue operand = .ok v := by rw [readValue, hv]
    cases op
    case isIn | notIn => cases hop
    all_goals
      rw [read, hv]
      refine ⟨_, rfl, fun x => ?_⟩
      rw [Operator.admits_singleton]
      rfl

end Condition

end WeightedStore
