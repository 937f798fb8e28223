import Mathlib.Logic.Function.Basic

/-! Singly linked lists: cells that hold a pointer to the next one. -/

namespace BlockchainPG.Lib

open Function

variable {α : Type u} [DecidableEq α] {link link' : α → Option α} {cells first second : List α}

/-- The cells that are reached from a pointer are those of a list, in this order. -/
def Chain (link : α → Option α) : Option α → List α → Prop
  | head, [] => head = none
  | head, cell :: rest => head = some cell ∧ Chain link (link cell) rest

omit [DecidableEq α] in
theorem Chain.congr (chain : Chain link head cells) (same : ∀ cell ∈ cells, link' cell = link cell) :
    Chain link' head cells := by
  induction cells generalizing head with
  | nil => exact chain
  | cons cell rest ih =>
    refine ⟨chain.1, ?_⟩
    rw [same cell List.mem_cons_self]
    exact ih chain.2 fun other mem => same other (List.mem_cons_of_mem _ mem)

omit [DecidableEq α] in
theorem Chain.nil_iff (chain : Chain link head cells) : head = none ↔ cells = [] := by
  cases cells with
  | nil => exact ⟨fun _ => rfl, fun _ => chain⟩
  | cons cell rest => simp [chain.1]

theorem Chain.update (chain : Chain link head cells) (outside : cell ∉ cells) (next : Option α) :
    Chain (Function.update link cell next) head cells :=
  chain.congr fun _ mem => update_of_ne (ne_of_mem_of_not_mem mem outside) ..

theorem Chain.append (chain : Chain link head cells) (last : cells.getLast? = some tail) (distinct : cells.Nodup)
    (new : cell ∉ cells) (ends : link cell = none) :
    Chain (Function.update link tail (some cell)) head (cells ++ [cell]) := by
  induction cells generalizing head with
  | nil => cases last
  | cons front rest ih =>
    obtain ⟨notIn, distinct⟩ := List.nodup_cons.mp distinct
    refine ⟨chain.1, ?_⟩
    cases rest with
    | nil =>
      obtain rfl : front = tail := by simpa using last
      have ne : cell ≠ front := fun same => new (same ▸ List.mem_cons_self)
      rw [update_self]
      exact ⟨rfl, by rw [update_of_ne ne, ends]; rfl⟩
    | cons following rest =>
      rw [List.getLast?_cons_cons] at last
      have tailIn : tail ∈ following :: rest := List.mem_of_getLast? last
      rw [update_of_ne (ne_of_mem_of_not_mem tailIn notIn).symm]
      exact ih chain.2 last distinct fun mem => new (List.mem_cons_of_mem _ mem)

theorem Chain.split (chain : Chain link head (first ++ second)) (last : first.getLast? = some tail)
    (distinct : (first ++ second).Nodup) :
    Chain (Function.update link tail none) head first ∧ Chain (Function.update link tail none) (link tail) second := by
  induction first generalizing head with
  | nil => cases last
  | cons front rest ih =>
    rw [List.cons_append, List.nodup_cons] at distinct
    rw [List.cons_append] at chain
    cases rest with
    | nil =>
      obtain rfl : front = tail := by simpa using last
      refine ⟨⟨chain.1, update_self ..⟩, ?_⟩
      exact Chain.update chain.2 distinct.1 none
    | cons following rest =>
      rw [List.getLast?_cons_cons] at last
      have tailIn : tail ∈ following :: rest := List.mem_of_getLast? last
      obtain ⟨front', back⟩ := ih chain.2 last distinct.2
      refine ⟨⟨chain.1, ?_⟩, back⟩
      rw [update_of_ne (ne_of_mem_of_not_mem (List.mem_append_left _ tailIn) distinct.1).symm]
      exact front'

end BlockchainPG.Lib
