import Mathlib.Data.List.Basic
import Mathlib.Order.WithBot

/-! Separators cut an interval of keys into consecutive gaps. -/

namespace BlockchainPG.Lib

open List

section Gaps

variable {κ : Type u}

/-- The intervals between two bounds that a list of separators cuts out. -/
def gaps : WithBot κ → List κ → WithTop κ → List (WithBot κ × WithTop κ)
  | lo, [], hi => [(lo, hi)]
  | lo, key :: keys, hi => (lo, (key : WithTop κ)) :: gaps (key : WithBot κ) keys hi

/-- The intervals that end at one of the separators. -/
def lowerGaps : WithBot κ → List κ → List (WithBot κ × WithTop κ)
  | _, [] => []
  | lo, key :: keys => (lo, (key : WithTop κ)) :: lowerGaps (key : WithBot κ) keys

def lastBound : WithBot κ → List κ → WithBot κ
  | lo, [] => lo
  | _, key :: keys => lastBound (key : WithBot κ) keys

def firstBound : List κ → WithTop κ → WithTop κ
  | [], hi => hi
  | key :: _, _ => (key : WithTop κ)

/-- The intervals that start at one of the separators. -/
def upperGaps : List κ → WithTop κ → List (WithBot κ × WithTop κ)
  | [], _ => []
  | key :: keys, hi => ((key : WithBot κ), firstBound keys hi) :: upperGaps keys hi

@[simp] theorem gaps_length (lo : WithBot κ) (keys : List κ) (hi : WithTop κ) :
    (gaps lo keys hi).length = keys.length + 1 := by
  induction keys generalizing lo with
  | nil => rfl
  | cons key keys ih => simp [gaps, ih]

@[simp] theorem lowerGaps_length (lo : WithBot κ) (keys : List κ) : (lowerGaps lo keys).length = keys.length := by
  induction keys generalizing lo with
  | nil => rfl
  | cons key keys ih => simp [lowerGaps, ih]

@[simp] theorem upperGaps_length (keys : List κ) (hi : WithTop κ) : (upperGaps keys hi).length = keys.length := by
  induction keys with
  | nil => rfl
  | cons key keys ih => simp [upperGaps, ih]

theorem gaps_eq_upper (lo : WithBot κ) (keys : List κ) (hi : WithTop κ) :
    gaps lo keys hi = (lo, firstBound keys hi) :: upperGaps keys hi := by
  induction keys generalizing lo with
  | nil => rfl
  | cons key keys ih => simp [gaps, upperGaps, firstBound, ih]

theorem gaps_append (lo : WithBot κ) (front keys : List κ) (hi : WithTop κ) :
    gaps lo (front ++ keys) hi = lowerGaps lo front ++ gaps (lastBound lo front) keys hi := by
  induction front generalizing lo with
  | nil => rfl
  | cons key front ih => simp [gaps, lowerGaps, lastBound, ih]

theorem gaps_append_cons (lo : WithBot κ) (front : List κ) (cut : κ) (back : List κ) (hi : WithTop κ) :
    gaps lo (front ++ cut :: back) hi = gaps lo front cut ++ gaps cut back hi := by
  induction front generalizing lo with
  | nil => rfl
  | cons key front ih => simp [gaps, ih]

theorem gaps_window (lo : WithBot κ) (front keys back : List κ) (hi : WithTop κ) :
    gaps lo (front ++ keys ++ back) hi =
      lowerGaps lo front ++ gaps (lastBound lo front) keys (firstBound back hi) ++ upperGaps back hi := by
  rw [append_assoc, gaps_append]
  cases back with
  | nil => simp [upperGaps, firstBound]
  | cons key back =>
    rw [gaps_append_cons, gaps_eq_upper (key : WithBot κ)]
    simp [upperGaps, firstBound]

theorem lastBound_mem_or (lo : WithBot κ) (keys : List κ) :
    (keys = [] ∧ lastBound lo keys = lo) ∨ ∃ key ∈ keys, lastBound lo keys = (key : WithBot κ) := by
  induction keys generalizing lo with
  | nil => simp [lastBound]
  | cons key keys ih =>
    right
    rcases ih (key : WithBot κ) with ⟨rfl, same⟩ | ⟨last, mem, same⟩
    · exact ⟨key, by simp, by simp [lastBound]⟩
    · grind [lastBound]

theorem firstBound_mem_or (keys : List κ) (hi : WithTop κ) :
    (keys = [] ∧ firstBound keys hi = hi) ∨ ∃ key ∈ keys, firstBound keys hi = (key : WithTop κ) := by
  cases keys with
  | nil => simp [firstBound]
  | cons key keys => exact Or.inr ⟨key, by simp, rfl⟩

variable [LinearOrder κ]
variable {lo : WithBot κ} {hi : WithTop κ} {front back : List κ}

/-- Strictly increasing keys strictly between two bounds. -/
def Within (lo : WithBot κ) (keys : List κ) (hi : WithTop κ) : Prop :=
  keys.Pairwise (· < ·) ∧ ∀ key ∈ keys, lo < (key : WithBot κ) ∧ (key : WithTop κ) < hi

/-- Strictly increasing keys at or above one bound and below another. -/
def WithinLeaf (lo : WithBot κ) (keys : List κ) (hi : WithTop κ) : Prop :=
  keys.Pairwise (· < ·) ∧ ∀ key ∈ keys, lo ≤ (key : WithBot κ) ∧ (key : WithTop κ) < hi

theorem Within.nil (lo : WithBot κ) (hi : WithTop κ) : Within lo [] hi := by
  simp [Within]

theorem le_lastBound {keys : List κ} (sorted : keys.Pairwise (· < ·)) :
    ∀ key ∈ keys, (key : WithBot κ) ≤ lastBound lo keys := by
  induction keys generalizing lo with
  | nil => simp
  | cons key keys ih =>
    intro other mem
    rcases mem_cons.mp mem with rfl | mem
    · rcases lastBound_mem_or (other : WithBot κ) keys with ⟨-, same⟩ | ⟨last, inside, same⟩
      · simp [lastBound, same]
      · have below := (pairwise_cons.mp sorted).1 last inside
        simpa [lastBound, same] using below.le
    · exact ih (pairwise_cons.mp sorted).2 other mem

theorem firstBound_le {keys : List κ} (sorted : keys.Pairwise (· < ·)) :
    ∀ key ∈ keys, firstBound keys hi ≤ (key : WithTop κ) := by
  intro other mem
  cases keys with
  | nil => simp at mem
  | cons key keys =>
    rcases mem_cons.mp mem with rfl | mem
    · exact le_refl _
    · simpa [firstBound] using ((pairwise_cons.mp sorted).1 other mem).le

theorem Within.window {front keys other back : List κ} (within : Within lo (front ++ keys ++ back) hi)
    (inside : Within (lastBound lo front) other (firstBound back hi)) : Within lo (front ++ other ++ back) hi := by
  obtain ⟨sorted, bounds⟩ := within
  obtain ⟨otherSorted, otherBounds⟩ := inside
  simp only [pairwise_append, mem_append] at sorted bounds
  obtain ⟨⟨frontSorted, -, -⟩, backSorted, across⟩ := sorted
  have fromFront : ∀ key ∈ front, ∀ next ∈ other, key < next := by
    intro key mem next present
    have near : (key : WithBot κ) ≤ lastBound lo front := le_lastBound frontSorted key mem
    exact WithBot.coe_lt_coe.mp (near.trans_lt (otherBounds next present).1)
  have toBack : ∀ key ∈ other, ∀ next ∈ back, key < next := by
    intro key mem next present
    have near : firstBound back hi ≤ (next : WithTop κ) := firstBound_le backSorted next present
    exact WithTop.coe_lt_coe.mp ((otherBounds key mem).2.trans_le near)
  constructor
  · grind
  · grind [lastBound_mem_or, firstBound_mem_or]

theorem within_cons_iff : Within lo (front ++ cut :: back) hi ↔
      Within lo front cut ∧ (lo < (cut : WithBot κ) ∧ (cut : WithTop κ) < hi) ∧ Within cut back hi := by
  grind [Within, pairwise_cons, WithBot.coe_lt_coe, WithTop.coe_lt_coe]

theorem Within.middle {cut : κ} (within : Within lo (front ++ [cut] ++ back) hi) :
    lastBound lo front < (cut : WithBot κ) ∧ (cut : WithTop κ) < firstBound back hi := by
  rw [append_assoc, singleton_append, within_cons_iff] at within
  obtain ⟨left, inside, right⟩ := within
  constructor
  · rcases lastBound_mem_or lo front with ⟨-, same⟩ | ⟨last, present, same⟩
    · rw [same]
      exact inside.1
    · rw [same]
      exact WithBot.coe_lt_coe.mpr (WithTop.coe_lt_coe.mp (left.2 last present).2)
  · rcases firstBound_mem_or back hi with ⟨-, same⟩ | ⟨first, present, same⟩
    · rw [same]
      exact inside.2
    · rw [same]
      exact WithTop.coe_lt_coe.mpr (WithBot.coe_lt_coe.mp (right.2 first present).1)

theorem WithinLeaf.cut {cut : κ} (within : WithinLeaf lo (front ++ back) hi) (below : ∀ key ∈ front, key < cut)
    (above : ∀ key ∈ back, cut ≤ key) : WithinLeaf lo front cut ∧ WithinLeaf cut back hi := by
  obtain ⟨sorted, bounds⟩ := within
  obtain ⟨frontSorted, backSorted, -⟩ := pairwise_append.mp sorted
  exact ⟨⟨frontSorted, fun key mem => ⟨(bounds key (by simp [mem])).1,
      WithTop.coe_lt_coe.mpr (below key mem)⟩⟩,
    backSorted, fun key mem => ⟨WithBot.coe_le_coe.mpr (above key mem), (bounds key (by simp [mem])).2⟩⟩

theorem WithinLeaf.join {cut : κ} (left : WithinLeaf lo front cut) (right : WithinLeaf cut back hi)
    (inside : lo < (cut : WithBot κ) ∧ (cut : WithTop κ) < hi) : WithinLeaf lo (front ++ back) hi := by
  refine ⟨pairwise_append.mpr ⟨left.1, right.1, ?_⟩, ?_⟩
  · intro key mem next present
    exact (WithTop.coe_lt_coe.mp (left.2 key mem).2).trans_le
      (WithBot.coe_le_coe.mp (right.2 next present).1)
  · intro key mem
    rcases mem_append.mp mem with mem | mem
    · exact ⟨(left.2 key mem).1, (left.2 key mem).2.trans inside.2⟩
    · exact ⟨inside.1.le.trans (right.2 key mem).1, (right.2 key mem).2⟩

end Gaps

end BlockchainPG.Lib
