import BlockchainPG.Mbt.Tree
import Mathlib.Algebra.Order.Ring.Int

/-! What `key_binary_search` returns on the increasing keys of a node. -/

namespace BlockchainPG.Mbt

open Lib List

variable {keys : List Int}

/-- The place of a key in an increasing list: smaller keys before it, no smaller one behind. -/
structure PlaceOf (keys : List Int) (target : Int) (p : Nat) : Prop where
  inside : p ≤ keys.length
  below : ∀ key ∈ keys.take p, key < target
  above : ∀ key ∈ keys.drop p, target ≤ key

theorem PlaceOf.mem_iff (place : PlaceOf keys target p) (sorted : keys.Pairwise (· < ·)) :
    target ∈ keys ↔ keys[p]? = some target := by
  constructor
  · intro mem
    rw [← take_append_drop p keys, mem_append] at mem
    rcases mem with mem | mem
    · exact absurd (place.below target mem) (lt_irrefl target)
    · have first : keys[p]? = (keys.drop p)[0]? := by simp
      have drops := sorted.sublist (drop_sublist p keys)
      cases rest : keys.drop p with
      | nil => simp [rest] at mem
      | cons head tail =>
        rw [rest] at mem drops
        rcases mem_cons.mp mem with same | later
        · rw [first, rest, same]
          rfl
        · have less := (pairwise_cons.mp drops).1 target later
          have least := place.above head (by simp [rest])
          omega
  · exact fun found => mem_of_getElem? found

theorem PlaceOf.le (first : PlaceOf keys target p) (second : PlaceOf keys target q) : p ≤ q := by
  by_contra more
  have inside := first.inside
  have less : q < keys.length := by omega
  have front : keys[q] ∈ keys.take p := mem_take_iff_getElem.mpr ⟨q, by omega, rfl⟩
  have back : keys[q] ∈ keys.drop q := by
    rw [drop_eq_getElem_cons less]
    exact mem_cons_self ..
  exact absurd (first.below _ front) (not_lt.mpr (second.above _ back))

theorem PlaceOf.unique (first : PlaceOf keys target p) (second : PlaceOf keys target q) : p = q :=
  le_antisymm (first.le second) (second.le first)

theorem PlaceOf.eq_length (place : PlaceOf (lower ++ upper) target p)
    (below : ∀ key ∈ lower, key < target) (above : ∀ key ∈ upper, target < key) : p = lower.length :=
  place.unique ⟨by simp, by simpa using below, by simpa using fun key mem => (above key mem).le⟩

theorem PlaceOf.countP_eq (place : PlaceOf keys target p) : keys.countP (· < target) = p := by
  have low : (keys.take p).countP (· < target) = (keys.take p).length :=
    countP_eq_length.mpr fun key mem => decide_eq_true (place.below key mem)
  have high : (keys.drop p).countP (· < target) = 0 :=
    countP_eq_zero.mpr fun key mem less => absurd (of_decide_eq_true less) (not_lt.mpr (place.above key mem))
  grind [take_append_drop, inside]

theorem PlaceOf.above_lt (place : PlaceOf keys target p) (absent : target ∉ keys) :
    ∀ key ∈ keys.drop p, target < key := by
  intro key mem
  refine lt_of_le_of_ne (place.above key mem) ?_
  rintro rfl
  exact absent (mem_of_mem_drop mem)

theorem PlaceOf.insert_sorted (place : PlaceOf keys target p) (sorted : keys.Pairwise (· < ·))
    (absent : target ∉ keys) : (keys.take p ++ target :: keys.drop p).Pairwise (· < ·) := by
  rw [← take_append_drop p keys, pairwise_append] at sorted
  obtain ⟨front, back, across⟩ := sorted
  refine pairwise_append.mpr ⟨front, pairwise_cons.mpr ⟨place.above_lt absent, back⟩, ?_⟩
  intro key mem other present
  rcases mem_cons.mp present with rfl | present
  · exact place.below key mem
  · exact across key mem other present

theorem PlaceOf.exists (sorted : keys.Pairwise (· < ·)) (target : Int) : ∃ p, PlaceOf keys target p := by
  induction keys with
  | nil => exact ⟨0, le_rfl, by simp, by simp⟩
  | cons head tail ih =>
    obtain ⟨first, rest⟩ := pairwise_cons.mp sorted
    by_cases less : head < target
    · obtain ⟨p, place⟩ := ih rest
      exact ⟨p + 1, Nat.succ_le_succ place.inside, by simpa using ⟨less, place.below⟩, by simpa using place.above⟩
    · have least := not_lt.mp less
      exact ⟨0, Nat.zero_le _, by simp, by simpa using ⟨least, fun key mem => least.trans (first key mem).le⟩⟩

/-- The loop narrows down to the place: smaller keys are at or below `low`, the others at or above `high`. -/
theorem keyBinarySearchLoop_eq {arr : Nat → Int} {p n : Nat} (target : Int) (fuel : Nat) (low high : Int)
    (bottom : -1 ≤ low)
    (apart : low < p) (within : p ≤ high) (top : high ≤ n) (enough : high ≤ low + 1 + fuel)
    (below : ∀ j < p, arr j < target) (above : ∀ j, p ≤ j → j < n → target ≤ arr j) :
    keyBinarySearchLoop arr target fuel low high = p := by
  induction fuel generalizing low high with
  | zero =>
    rw [keyBinarySearchLoop]
    omega
  | succ fuel ih =>
    rw [keyBinarySearchLoop]
    by_cases wide : low + 1 < high
    · rw [if_pos wide]
      have between : low < low + (high - low) / 2 ∧ low + (high - low) / 2 < high := by omega
      have half : low + (high - low) / 2 ≤ low + 1 + fuel ∧ high ≤ low + (high - low) / 2 + 1 + fuel := by omega
      generalize low + (high - low) / 2 = mid at between half
      by_cases less : target > arr mid.toNat
      · simp only [less, ↓reduceIte]
        refine ih mid high (by omega) ?_ within top half.2
        by_contra before
        exact absurd (above mid.toNat (by omega) (by omega)) (not_le.mpr less)
      · simp only [less, ↓reduceIte]
        refine ih low mid bottom apart ?_ (by omega) half.1
        by_contra behind
        exact less (below mid.toNat (by omega))
    · rw [if_neg wide]
      omega

theorem PlaceOf.keyBinarySearch_eq {arr : Nat → Int} (place : PlaceOf (slots arr n) target p) :
    keyBinarySearch arr n target = if p < n ∧ arr p = target then (p : Int) else -p - 1 := by
  have inside : p ≤ n := by simpa using place.inside
  have below : ∀ j < p, arr j < target := fun j less =>
    place.below _ (mem_take_iff_getElem.mpr ⟨j, by simp; omega, by simp⟩)
  have above : ∀ j, p ≤ j → j < n → target ≤ arr j := fun j more less =>
    place.above _ (mem_drop_iff_getElem.mpr ⟨j - p, by simp; omega, by simp; congr; omega⟩)
  have result := keyBinarySearchLoop_eq target n (-1) n le_rfl (by omega) (by omega) le_rfl (by omega) below above
  simp only [keyBinarySearch, Int.toNat_natCast, result]
  by_cases found : p < n ∧ arr p = target
  · rw [if_pos found, if_neg]
    simp only [not_or, not_not]
    exact ⟨by omega, found.2⟩
  · rw [if_neg found, if_pos]
    by_contra other
    simp only [not_or, not_not] at other
    exact found ⟨by omega, other.2⟩

theorem keyBinarySearch_spec {arr : Nat → Int} (sorted : (slots arr n).Pairwise (· < ·)) (target : Int) :
    ∃ p, PlaceOf (slots arr n) target p ∧
      keyBinarySearch arr n target = if target ∈ slots arr n then (p : Int) else -p - 1 := by
  obtain ⟨p, place⟩ := PlaceOf.exists sorted target
  refine ⟨p, place, ?_⟩
  have found : target ∈ slots arr n ↔ p < n ∧ arr p = target := by
    rw [place.mem_iff sorted, slots_getElem?]
    by_cases less : p < n <;> simp [less]
  simp only [place.keyBinarySearch_eq, found]

theorem keyBinarySearch_longer (sorted : (slots arr m).Pairwise (· < ·)) (longer : m ≤ n)
    (larger : ∀ j, m ≤ j → j < n → target < arr j) : keyBinarySearch arr n target = keyBinarySearch arr m target := by
  obtain ⟨p, place⟩ := PlaceOf.exists sorted target
  have inside : p ≤ m := by simpa using place.inside
  have whole : PlaceOf (slots arr n) target p := by
    refine ⟨by simp; omega, fun key mem => ?_, fun key mem => ?_⟩
    · obtain ⟨j, less, rfl⟩ := mem_take_iff_getElem.mp mem
      refine place.below _ (mem_take_iff_getElem.mpr ⟨j, ?_, by simp⟩)
      simp at less ⊢
      omega
    · obtain ⟨j, less, rfl⟩ := mem_drop_iff_getElem.mp mem
      rw [slots_getElem]
      by_cases live : p + j < m
      · exact place.above _ (mem_drop_iff_getElem.mpr ⟨j, by simpa [Nat.add_comm] using live, by simp⟩)
      · exact (larger (p + j) (by omega) (by simpa [Nat.add_comm] using less)).le
  rw [place.keyBinarySearch_eq, whole.keyBinarySearch_eq]
  congr 1
  refine propext ⟨?_, ?_⟩
  · rintro ⟨less, same⟩
    refine ⟨?_, same⟩
    by_contra outside
    exact absurd same (larger p (by omega) less).ne'
  · rintro ⟨less, same⟩
    exact ⟨by omega, same⟩

/-- An access to the array; `none` outside of it. -/
def readKey (keys : List Int) (i : Int) : Option Int := if i < 0 then none else keys[i.toNat]?

/-- The loop of `key_binary_search` with checked accesses; `none` also for a loop that goes on after `fuel` rounds. -/
def checkedSearchLoop (keys : List Int) (target : Int) : Nat → Int → Int → Option Int
  | 0, low, high => if low + 1 < high then none else some high
  | fuel + 1, low, high =>
    if low + 1 < high then
      let mid := low + (high - low) / 2
      (readKey keys mid).bind fun key =>
        if target > key then checkedSearchLoop keys target fuel mid high else checkedSearchLoop keys target fuel low mid
    else some high

/-- `key_binary_search` on the whole array. -/
def checkedSearch (keys : List Int) (target : Int) : Option Int :=
  (checkedSearchLoop keys target keys.length (-1) keys.length).bind fun high =>
    if high ≥ keys.length then some (-high - 1)
    else (readKey keys high).map fun key => if key ≠ target then -high - 1 else high

theorem readKey_inside {keys : List Int} {i : Int} (low : 0 ≤ i) (high : i < keys.length) :
    readKey keys i = some (keys.getD i.toNat 0) := by
  have inside : i.toNat < keys.length := by omega
  simp [readKey, low, inside]

theorem checkedSearchLoop_eq {low high : Int} (keys : List Int) (target : Int) (bottom : -1 ≤ low) (apart : low < high)
    (top : high ≤ keys.length) (enough : high ≤ low + 1 + (fuel : Nat)) :
    checkedSearchLoop keys target fuel low high = some (keyBinarySearchLoop (keys.getD · 0) target fuel low high) ∧
      low < keyBinarySearchLoop (keys.getD · 0) target fuel low high := by
  induction fuel generalizing low high with
  | zero =>
    rw [checkedSearchLoop, keyBinarySearchLoop, if_neg (by omega)]
    exact ⟨rfl, apart⟩
  | succ fuel ih =>
    rw [checkedSearchLoop, keyBinarySearchLoop]
    by_cases wide : low + 1 < high
    · have between : low < low + (high - low) / 2 ∧ low + (high - low) / 2 < high := by omega
      have half : low + (high - low) / 2 ≤ low + 1 + fuel ∧ high ≤ low + (high - low) / 2 + 1 + fuel := by omega
      rw [if_pos wide, if_pos wide]
      generalize low + (high - low) / 2 = mid at between half
      simp only [readKey_inside (show 0 ≤ mid by omega) (show mid < keys.length by omega), Option.bind_some]
      split
      · obtain ⟨same, above⟩ := ih (by omega) between.2 top half.2
        exact ⟨same, between.1.trans above⟩
      · exact ih bottom between.1 (by omega) half.1
    · rw [if_neg wide, if_neg wide]
      exact ⟨rfl, apart⟩

/-- The search of an increasing array ends, stays inside of it and finds the target or the place it would have. -/
theorem keyBinarySearch_exact {keys : List Int} (sorted : keys.Pairwise (· < ·)) (target : Int) :
    checkedSearch keys target = some (if target ∈ keys then (keys.countP (· < target) : Int)
        else -keys.countP (· < target) - 1) ∧
      (target ∈ keys → keys[keys.countP (· < target)]? = some target) := by
  have array : slots (keys.getD · 0) keys.length = keys := by
    refine ext_getElem (slots_length ..) fun i _ inside => ?_
    simp [inside]
  obtain ⟨q, place, result⟩ := keyBinarySearch_spec (array.symm ▸ sorted) target
  rw [array] at place result
  rw [place.countP_eq]
  refine ⟨?_, (place.mem_iff sorted).mp⟩
  obtain ⟨loop, above⟩ := checkedSearchLoop_eq keys target le_rfl (by omega) le_rfl
    (show (keys.length : Int) ≤ -1 + 1 + (keys.length : Nat) by omega)
  rw [checkedSearch, loop, Option.bind_some, ← result, keyBinarySearch, Int.toNat_natCast]
  generalize keyBinarySearchLoop (keys.getD · 0) target keys.length (-1) keys.length = high at above
  by_cases behind : high ≥ keys.length
  · simp only [behind, ↓reduceIte, true_or]
  · rw [if_neg behind, readKey_inside (by omega) (by omega)]
    simp only [behind, false_or, Option.map_some]

theorem keyBinarySearch_exact_three : checkedSearch [2, 5, 7] 5 = some 1 ∧ checkedSearch [2, 5, 7] 6 = some (-3) :=
  ⟨(keyBinarySearch_exact (by decide) 5).1, (keyBinarySearch_exact (by decide) 6).1⟩

end BlockchainPG.Mbt
