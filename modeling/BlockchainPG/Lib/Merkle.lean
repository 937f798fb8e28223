import Mathlib.Data.List.Basic

/-! Hash trees of uniform height over a hash of fixed width. -/

namespace BlockchainPG.Lib

open List

/-- A tree of height zero is a list of data, a higher one a list of trees. -/
def Merkle (δ : Type u) : Nat → Type u
  | 0 => List δ
  | k + 1 => List (Merkle δ k)

namespace Merkle

/-- The trees below the root. -/
def kids (tree : Merkle δ (k + 1)) : List (Merkle δ k) := tree

/-- The data of a tree of height zero. -/
def own (tree : Merkle δ 0) : List δ := tree

/-- The number of data or of trees below the root. -/
def arity : {k : Nat} → Merkle δ k → Nat
  | 0, tree => tree.own.length
  | _ + 1, tree => tree.kids.length

variable {α : Type u} (hash : List α → List α)

def digest : (k : Nat) → Merkle (List α) k → List α
  | 0, own => hash (flatMap hash own)
  | k + 1, kids => hash (flatMap (digest k) kids)

/-- Everything that is hashed on the way to the digest. -/
def messages : (k : Nat) → Merkle (List α) k → List (List α)
  | 0, own => flatMap hash own :: own
  | k + 1, kids => flatMap (digest hash k) kids :: flatMap (messages k) kids

/-- Two different messages with the same hash. -/
def Collision (first second : List (List α)) : Prop := ∃ a ∈ first, ∃ b ∈ second, a ≠ b ∧ hash a = hash b

variable {hash} {n : Nat}

theorem Collision.mono {first second first' second' : List (List α)} (collision : Collision hash first second)
    (left : ∀ a ∈ first, a ∈ first') (right : ∀ b ∈ second, b ∈ second') : Collision hash first' second' := by
  obtain ⟨a, inFirst, b, inSecond, ne, same⟩ := collision
  exact ⟨a, left a inFirst, b, right b inSecond, ne, same⟩

theorem digest_length (width : ∀ message, (hash message).length = n) (k : Nat) (tree : Merkle (List α) k) :
    (digest hash k tree).length = n := by
  cases k <;> exact width _

/-- Blocks of one width can be told apart in their concatenation. -/
theorem flatMap_width_inj {β : Type v} {γ : Type w} {f : β → List α} {g : γ → List α} (pos : 0 < n)
    (left : ∀ x, (f x).length = n) (right : ∀ x, (g x).length = n) {xs : List β} {ys : List γ}
    (same : xs.flatMap f = ys.flatMap g) : xs.map f = ys.map g := by
  induction xs generalizing ys with
  | nil =>
    cases ys with
    | nil => rfl
    | cons y ys =>
      have size := congrArg List.length same
      simp [right] at size
      omega
  | cons x xs ih =>
    cases ys with
    | nil =>
      have size := congrArg List.length same
      simp [left] at size
      omega
    | cons y ys =>
      rw [flatMap_cons, flatMap_cons] at same
      obtain ⟨head, tail⟩ := append_inj same ((left x).trans (right y).symm)
      rw [map_cons, map_cons, head, ih tail]

/-- Lists with equal images are equal if their members are told apart by their images. -/
theorem eq_or_of_map_eq {β : Type v} {f : β → List α} {escape : Prop} {xs ys : List β}
    (apart : ∀ x ∈ xs, ∀ y ∈ ys, f x = f y → escape ∨ x = y) (same : xs.map f = ys.map f) : escape ∨ xs = ys := by
  induction xs generalizing ys with
  | nil => exact Or.inr (map_eq_nil_iff.mp same.symm).symm
  | cons x xs ih =>
    cases ys with
    | nil => simp at same
    | cons y ys =>
      rw [map_cons, map_cons, List.cons.injEq] at same
      rcases apart x (by simp) y (by simp) same.1 with out | rfl
      · exact Or.inl out
      · rcases ih (fun a inFirst b inSecond => apart a (by simp [inFirst]) b (by simp [inSecond])) same.2 with out | rfl
        · exact Or.inl out
        · exact Or.inr rfl

/-- Equal digests of trees of one height mean equal trees, or a collision. -/
theorem digest_binding (pos : 0 < n) (width : ∀ message, (hash message).length = n) (k : Nat)
    (first second : Merkle (List α) k) (same : digest hash k first = digest hash k second) :
    Collision hash (messages hash k first) (messages hash k second) ∨ first = second := by
  induction k with
  | zero =>
    by_cases rows : flatMap hash first = flatMap hash second
    · refine eq_or_of_map_eq (fun x inFirst y inSecond images => ?_) (flatMap_width_inj pos width width rows)
      by_cases equal : x = y
      · exact Or.inr equal
      · exact Or.inl ⟨x, mem_cons_of_mem _ inFirst, y, mem_cons_of_mem _ inSecond, equal, images⟩
    · exact Or.inl ⟨_, mem_cons_self, _, mem_cons_self, rows, same⟩
  | succ k ih =>
    by_cases rows : flatMap (digest hash k) first = flatMap (digest hash k) second
    · have blocks := digest_length width k
      refine eq_or_of_map_eq (fun x inFirst y inSecond images => ?_) (flatMap_width_inj pos blocks blocks rows)
      rcases ih x y images with collision | equal
      · exact Or.inl (collision.mono
          (fun a own => mem_cons_of_mem _ (mem_flatMap.mpr ⟨x, inFirst, own⟩))
          fun b own => mem_cons_of_mem _ (mem_flatMap.mpr ⟨y, inSecond, own⟩))
      · exact Or.inr equal
    · exact Or.inl ⟨_, mem_cons_self, _, mem_cons_self, rows, same⟩

end Merkle

end BlockchainPG.Lib
