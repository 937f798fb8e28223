import Mathlib.Order.BoundedOrder.Basic
import Mathlib.Order.MinMax
import BlockchainPG.Lib.Slots

/-! Binary trees of maxima in an array. -/

namespace BlockchainPG.Lib.MaxTree

open Function

variable {κ : Type u} [LinearOrder κ] [OrderBot κ] {size inner : Nat} {nodes : Nat → κ}

def childMax (size : Nat) (nodes : Nat → κ) (x : Nat) : κ :=
  max (if 2 * x + 1 < size then nodes (2 * x + 1) else ⊥) (if 2 * x + 2 < size then nodes (2 * x + 2) else ⊥)

def Consistent (size inner : Nat) (nodes : Nat → κ) : Prop := ∀ x < inner, nodes x = childMax size nodes x

def ConsistentBut (hole size inner : Nat) (nodes : Nat → κ) : Prop :=
  ∀ x < inner, x ≠ hole → nodes x = childMax size nodes x

theorem childMax_update (left : changed ≠ 2 * x + 1) (right : changed ≠ 2 * x + 2) (value : κ) :
    childMax size (update nodes changed value) x = childMax size nodes x := by
  rw [childMax, childMax, update_of_ne left.symm, update_of_ne right.symm]

theorem le_childMax (child : x = 2 * parent + 1 ∨ x = 2 * parent + 2) (inside : x < size) :
    nodes x ≤ childMax size nodes parent := by
  rcases child with rfl | rfl
  · rw [childMax, if_pos inside]
    exact le_max_left _ _
  · rw [childMax, if_pos inside]
    exact le_max_right _ _

theorem exists_child (above : ⊥ < bound) (promised : bound ≤ childMax size nodes x) :
    ∃ child, (child = 2 * x + 1 ∨ child = 2 * x + 2) ∧ child < size ∧ bound ≤ nodes child := by
  rcases le_max_iff.mp promised with left | right
  · by_cases inside : 2 * x + 1 < size
    · rw [if_pos inside] at left
      exact ⟨_, Or.inl rfl, inside, left⟩
    · rw [if_neg inside] at left
      exact absurd left (not_le.mpr above)
  · by_cases inside : 2 * x + 2 < size
    · rw [if_pos inside] at right
      exact ⟨_, Or.inr rfl, inside, right⟩
    · rw [if_neg inside] at right
      exact absurd right (not_le.mpr above)

/-- In a consistent tree whose nodes all hang below inner ones the root is the greatest. -/
theorem Consistent.le_root (consistent : Consistent size inner nodes) (hang : size ≤ 2 * inner + 1)
    (inside : x < size) : nodes x ≤ nodes 0 := by
  induction x using Nat.strongRecOn with
  | ind x ih =>
    by_cases root : x = 0
    · rw [root]
    · have child : x = 2 * ((x - 1) / 2) + 1 ∨ x = 2 * ((x - 1) / 2) + 2 := by omega
      calc nodes x ≤ childMax size nodes ((x - 1) / 2) := le_childMax child inside
        _ = nodes ((x - 1) / 2) := (consistent _ (by omega)).symm
        _ ≤ nodes 0 := ih _ (by omega) (by omega)

/-- What a node of a consistent tree promises above `⊥` is held by a node behind the inner ones. -/
theorem Consistent.exists_leaf (consistent : Consistent size inner nodes) (above : ⊥ < bound) (inside : x < size)
    (promised : bound ≤ nodes x) : ∃ leaf, inner ≤ leaf ∧ leaf < size ∧ bound ≤ nodes leaf := by
  obtain ⟨rest, same⟩ : ∃ rest, rest = size - x := ⟨_, rfl⟩
  induction rest using Nat.strongRecOn generalizing x with
  | ind rest ih =>
    by_cases bottom : inner ≤ x
    · exact ⟨x, bottom, inside, promised⟩
    · rw [consistent x (by omega)] at promised
      obtain ⟨child, below, there, holds⟩ := exists_child above promised
      exact ih (size - child) (by omega) there holds rfl

/-- Every inner node is computed again, the last one first. -/
def rebuild (size inner : Nat) (nodes : Nat → κ) : Nat → κ :=
  forDown inner 0 (fun next nodes => update nodes (next - 1) (childMax size nodes (next - 1))) nodes

theorem rebuild_spec (size inner : Nat) (nodes : Nat → κ) :
    Consistent size inner (rebuild size inner nodes) ∧ ∀ x, inner ≤ x → rebuild size inner nodes x = nodes x := by
  have loop : (∀ x, 0 ≤ x → x < inner → rebuild size inner nodes x = childMax size (rebuild size inner nodes) x) ∧
      ∀ x, inner ≤ x → rebuild size inner nodes x = nodes x := by
    unfold rebuild
    refine forDown_invariant (motive := fun done (state : Nat → κ) =>
      (∀ x, done ≤ x → x < inner → state x = childMax size state x) ∧ ∀ x, inner ≤ x → state x = nodes x)
      (Nat.zero_le inner) ⟨fun x low high => absurd high (not_lt.mpr low), fun _ _ => rfl⟩ ?_
    intro i state _ inside ⟨done, leaves⟩
    rw [Nat.add_sub_cancel]
    constructor
    · intro x low high
      rw [childMax_update (by omega) (by omega)]
      by_cases here : x = i
      · rw [here, update_self]
      · rw [update_of_ne here]
        exact done x (by omega) high
    · intro x high
      rw [update_of_ne (by omega)]
      exact leaves x high
  exact ⟨fun x low => loop.1 x (Nat.zero_le x) low, loop.2⟩

/-- From a changed node upwards, until a node need not be changed. -/
def bubble (size : Nat) : Nat → Nat → (Nat → κ) → Nat → κ
  | 0, _, nodes => nodes
  | fuel + 1, x, nodes =>
    let parent := (x - 1) / 2
    if nodes parent = childMax size nodes parent then nodes
    else
      let nodes := update nodes parent (childMax size nodes parent)
      if 0 < parent then bubble size fuel parent nodes else nodes

theorem ConsistentBut.fill (but : ConsistentBut hole size inner nodes) :
    ConsistentBut ((hole - 1) / 2) size inner (update nodes hole (childMax size nodes hole)) ∨ hole = 0 := by
  by_cases root : hole = 0
  · exact Or.inr root
  · left
    intro x inside other
    rw [childMax_update (by omega) (by omega)]
    by_cases here : x = hole
    · rw [here, update_self]
    · rw [update_of_ne here]
      exact but x inside here

theorem ConsistentBut.consistent (but : ConsistentBut hole size inner nodes)
    (holds : nodes hole = childMax size nodes hole) : Consistent size inner nodes := by
  intro x inside
  by_cases here : x = hole
  · rw [here, holds]
  · exact but x inside here

theorem bubble_spec (but : ConsistentBut ((x - 1) / 2) size inner nodes) (below : 0 < x) (inside : (x - 1) / 2 < inner)
    (enough : x ≤ fuel) :
    Consistent size inner (bubble size fuel x nodes) ∧ ∀ y, inner ≤ y → bubble size fuel x nodes y = nodes y := by
  induction fuel generalizing x nodes with
  | zero => omega
  | succ fuel ih =>
    rw [bubble]
    by_cases holds : nodes ((x - 1) / 2) = childMax size nodes ((x - 1) / 2)
    · simp only [if_pos holds]
      exact ⟨but.consistent holds, fun _ _ => trivial⟩
    · simp only [if_neg holds]
      by_cases root : 0 < (x - 1) / 2
      · rw [if_pos root]
        obtain ⟨consistent, leaves⟩ := ih (but.fill.resolve_right (by omega)) root (by omega) (by omega)
        refine ⟨consistent, fun y high => ?_⟩
        rw [leaves y high, update_of_ne (by omega)]
      · rw [if_neg root]
        constructor
        · intro y high
          rw [childMax_update (by omega) (by omega)]
          by_cases here : y = (x - 1) / 2
          · rw [here, update_self]
          · rw [update_of_ne here]
            exact but y high here
        · intro y high
          rw [update_of_ne (by omega)]

end BlockchainPG.Lib.MaxTree
