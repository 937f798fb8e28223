import Mathlib.Data.List.Basic

/-! Three-valued logic over lists. -/

namespace BlockchainPG.Lib

open List

inductive Truth where
  | false
  | null
  | true
deriving DecidableEq, Repr

namespace Truth

def not : Truth → Truth
  | .false => .true
  | .null => .null
  | .true => .false

def and : Truth → Truth → Truth
  | .false, _ => .false
  | .null, .false => .false
  | .null, _ => .null
  | .true, second => second

def or : Truth → Truth → Truth
  | .true, _ => .true
  | .null, .true => .true
  | .null, _ => .null
  | .false, second => second

/-- The conjunction of a list. -/
def all (truths : List Truth) : Truth := truths.foldr and .true

/-- The disjunction of a list. -/
def any (truths : List Truth) : Truth := truths.foldr or .false

theorem ext {first second : Truth} (whenTrue : first = .true ↔ second = .true)
    (whenFalse : first = .false ↔ second = .false) : first = second := by
  cases first <;> cases second <;> simp_all

theorem not_eq_true {truth : Truth} : truth.not = .true ↔ truth = .false := by cases truth <;> simp [not]

theorem not_eq_false {truth : Truth} : truth.not = .false ↔ truth = .true := by cases truth <;> simp [not]

theorem not_not (truth : Truth) : truth.not.not = truth := by cases truth <;> rfl

theorem all_eq_true {truths : List Truth} : all truths = .true ↔ ∀ truth ∈ truths, truth = .true := by
  induction truths with
  | nil => simp [all]
  | cons truth rest ih =>
    rw [forall_mem_cons, ← ih, all, foldr_cons, ← all]
    cases truth <;> cases all rest <;> simp [and]

theorem all_eq_false {truths : List Truth} : all truths = .false ↔ ∃ truth ∈ truths, truth = .false := by
  induction truths with
  | nil => simp [all]
  | cons truth rest ih =>
    simp only [mem_cons, exists_eq_or_imp, ← ih]
    rw [all, foldr_cons, ← all]
    cases truth <;> cases all rest <;> simp [and]

theorem any_eq_true {truths : List Truth} : any truths = .true ↔ ∃ truth ∈ truths, truth = .true := by
  induction truths with
  | nil => simp [any]
  | cons truth rest ih =>
    simp only [mem_cons, exists_eq_or_imp, ← ih]
    rw [any, foldr_cons, ← any]
    cases truth <;> cases any rest <;> simp [or]

theorem any_eq_false {truths : List Truth} : any truths = .false ↔ ∀ truth ∈ truths, truth = .false := by
  induction truths with
  | nil => simp [any]
  | cons truth rest ih =>
    rw [forall_mem_cons, ← ih, any, foldr_cons, ← any]
    cases truth <;> cases any rest <;> simp [or]

theorem not_all (truths : List Truth) : (all truths).not = any (truths.map not) := by
  apply ext
  · simp [not_eq_true, all_eq_false, any_eq_true]
  · simp [not_eq_false, all_eq_true, any_eq_false]

theorem not_any (truths : List Truth) : (any truths).not = all (truths.map not) := by
  apply ext
  · simp [not_eq_true, any_eq_false, all_eq_true]
  · simp [not_eq_false, any_eq_true, all_eq_false]

end Truth

end BlockchainPG.Lib
