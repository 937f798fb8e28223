import Mathlib

/-! Memory as a function of the position: copies into it and moves inside of it. -/

namespace BlockchainPG.Lib

variable {α : Type u}

/-- Move `length` elements; source and destination may overlap. -/
def memmove (memory : Nat → α) (destination source length : Nat) : Nat → α :=
  fun p => if destination ≤ p ∧ p < destination + length then memory (source + (p - destination)) else memory p

/-- Copy a list into memory. -/
def memcpy (memory : Nat → α) (destination : Nat) (list : List α) : Nat → α :=
  fun p => if inside : destination ≤ p ∧ p - destination < list.length then list[p - destination] else memory p

/-- What an extent of the memory holds. -/
def contents (memory : Nat → α) (start length : Nat) : List α :=
  (List.range length).map fun i => memory (start + i)

theorem contents_zero (memory : Nat → α) (start : Nat) : contents memory start 0 = [] := rfl

theorem contents_congr (same : ∀ i < length, memory' (start' + i) = memory (start + i)) :
    contents memory' start' length = contents memory start length :=
  List.map_congr_left fun i inside => same i (List.mem_range.mp inside)

theorem contents_le (same : contents memory' start' more = contents memory start more) (less : length ≤ more) :
    contents memory' start' length = contents memory start length := by
  refine contents_congr fun i inside => ?_
  have pointwise := List.map_inj_left.mp same i (List.mem_range.mpr (by omega))
  exact pointwise

theorem memmove_inside (memory : Nat → α) (source : Nat) (inside : i < length) :
    memmove memory destination source length (destination + i) = memory (source + i) := by
  rw [memmove, if_pos ⟨Nat.le_add_right .., by omega⟩, Nat.add_sub_cancel_left]

theorem memmove_outside (memory : Nat → α) (source : Nat) (outside : p < destination ∨ destination + length ≤ p) :
    memmove memory destination source length p = memory p :=
  if_neg (by omega)

theorem memcpy_outside (memory : Nat → α) (outside : p < destination ∨ destination + list.length ≤ p) :
    memcpy memory destination list p = memory p :=
  dif_neg (by omega)

theorem contents_memcpy (memory : Nat → α) (destination : Nat) (list : List α) :
    contents (memcpy memory destination list) destination list.length = list := by
  refine List.ext_getElem (by simp [contents]) fun i left right => ?_
  simp [contents, memcpy, right]

/-- What one extent that is moved before another one must leave alone. -/
def Precedes (first second : Nat × Nat) : Prop := first.2 = 0 ∨ second.1 + second.2 ≤ first.1

/-- Extents, given by start and length, from the upper end of the memory downwards. -/
structure Descending (upper : Nat) (extents : List (Nat × Nat)) : Prop where
  below : ∀ extent ∈ extents, extent.1 + extent.2 ≤ upper
  order : extents.Pairwise Precedes

theorem Descending.tail (descending : Descending upper (extent :: rest)) : Descending (upper - extent.2) rest := by
  obtain ⟨first, order⟩ := List.pairwise_cons.mp descending.order
  have own := descending.below extent List.mem_cons_self
  refine ⟨fun other mem => ?_, order⟩
  have under := descending.below other (List.mem_cons_of_mem _ mem)
  rcases first other mem with empty | before <;> omega

theorem Descending.sum_le (descending : Descending upper extents) (low_le : low ≤ upper)
    (above : ∀ extent ∈ extents, low ≤ extent.1) : (extents.map Prod.snd).sum ≤ upper - low := by
  induction extents generalizing upper with
  | nil => exact Nat.zero_le _
  | cons extent rest ih =>
    have own := descending.below extent List.mem_cons_self
    have start := above extent List.mem_cons_self
    have others := ih descending.tail (by omega) fun other mem => above other (List.mem_cons_of_mem _ mem)
    rw [List.map_cons, List.sum_cons]
    omega

end BlockchainPG.Lib
