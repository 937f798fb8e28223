import Mathlib.Data.Nat.Bitwise
import Mathlib.Tactic.Ring

/-! Linear hashing. -/

namespace BlockchainPG.Lib.LinearHash

def bucketOf (maxBucket highMask lowMask key : Nat) : Nat :=
  let bucket := key &&& highMask
  if bucket > maxBucket then bucket &&& lowMask else bucket

/-- The masks when there is one more bucket. -/
def growHigh (maxBucket highMask : Nat) : Nat :=
  if maxBucket + 1 > highMask then (maxBucket + 1) ||| highMask else highMask

def growLow (maxBucket highMask lowMask : Nat) : Nat := if maxBucket + 1 > highMask then highMask else lowMask

/-- The masks cover a power of two of buckets each, and the greater one all that are in use. -/
structure Masks (maxBucket highMask lowMask log : Nat) : Prop where
  low : lowMask = 2 ^ log - 1
  high : highMask = 2 ^ (log + 1) - 1
  most : 2 ^ log ≤ maxBucket + 1
  least : maxBucket + 1 ≤ 2 ^ (log + 1)

variable {maxBucket highMask lowMask log : Nat}

section

variable (masks : Masks maxBucket highMask lowMask log)
include masks

theorem Masks.bucket (key : Nat) : bucketOf maxBucket highMask lowMask key =
      if key % 2 ^ (log + 1) > maxBucket then key % 2 ^ log else key % 2 ^ (log + 1) := by
  unfold bucketOf
  rw [masks.low, masks.high, Nat.and_two_pow_sub_one_eq_mod]
  simp only [Nat.and_two_pow_sub_one_eq_mod]
  rw [Nat.mod_mod_of_dvd key (Nat.pow_dvd_pow 2 (Nat.le_succ log))]

theorem Masks.bucket_le (key : Nat) : bucketOf maxBucket highMask lowMask key ≤ maxBucket := by
  have most := masks.most
  have small : key % 2 ^ log < 2 ^ log := Nat.mod_lt _ (Nat.two_pow_pos log)
  rw [masks.bucket]
  split <;> omega

theorem Masks.old : (maxBucket + 1) &&& lowMask = (maxBucket + 1) % 2 ^ log := by
  rw [masks.low, Nat.and_two_pow_sub_one_eq_mod]

theorem Masks.old_le : (maxBucket + 1) &&& lowMask ≤ maxBucket := by
  have most := masks.most
  have small : (maxBucket + 1) % 2 ^ log < 2 ^ log := Nat.mod_lt _ (Nat.two_pow_pos log)
  rw [masks.old]
  omega

theorem Masks.grow_masks :
    ∃ log', Masks (maxBucket + 1) (growHigh maxBucket highMask) (growLow maxBucket highMask lowMask) log' ∧
      ((maxBucket + 1 = 2 ^ (log + 1) ∧ log' = log + 1) ∨ (maxBucket + 1 < 2 ^ (log + 1) ∧ log' = log)) := by
  have most := masks.most
  have least := masks.least
  have pos := Nat.two_pow_pos log
  rw [growHigh, growLow]
  by_cases full : maxBucket + 1 > highMask
  · have limit : maxBucket + 1 = 2 ^ (log + 1) := by
      rw [masks.high] at full
      omega
    have high : (maxBucket + 1) ||| highMask = 2 ^ (log + 1 + 1) - 1 := by
      have joined := Nat.two_pow_add_eq_or_of_lt (show 2 ^ (log + 1) - 1 < 2 ^ (log + 1) by omega) 1
      rw [Nat.mul_one] at joined
      rw [limit, masks.high, ← joined]
      omega
    rw [if_pos full, if_pos full]
    exact ⟨log + 1, ⟨masks.high, high, by omega, by omega⟩, Or.inl ⟨limit, rfl⟩⟩
  · rw [if_neg full, if_neg full]
    rw [masks.high] at full
    exact ⟨log, ⟨masks.low, masks.high, by omega, by omega⟩, Or.inr ⟨by omega, rfl⟩⟩

theorem Masks.grow (key : Nat) :
    let grown := bucketOf (maxBucket + 1) (growHigh maxBucket highMask) (growLow maxBucket highMask lowMask) key
    (grown = maxBucket + 1 ∧ bucketOf maxBucket highMask lowMask key = (maxBucket + 1) &&& lowMask) ∨
      grown = bucketOf maxBucket highMask lowMask key := by
  have most := masks.most
  have pos := Nat.two_pow_pos log
  have double : 2 ^ (log + 1) = 2 * 2 ^ log := by ring
  intro grown
  obtain ⟨log', masks', cases⟩ := masks.grow_masks
  have bucket : grown = _ := masks'.bucket key
  rw [bucket, masks.bucket, masks.old]
  rcases cases with ⟨limit, rfl⟩ | ⟨below, rfl⟩
  · have small : key % 2 ^ (log + 1) < 2 ^ (log + 1) := Nat.mod_lt _ (by omega)
    have nested := Nat.mod_mod_of_dvd key (Nat.pow_dvd_pow 2 (Nat.le_succ (log + 1)))
    rw [if_neg (show ¬ key % 2 ^ (log + 1) > maxBucket by omega)]
    rcases Nat.lt_trichotomy (key % 2 ^ (log + 1 + 1)) (maxBucket + 1) with less | same | greater
    · right
      rw [if_neg (by omega)]
      exact (Nat.mod_eq_of_lt (limit ▸ less)).symm.trans nested
    · left
      rw [if_neg (by omega), ← nested, same, limit, Nat.mod_self]
      exact ⟨rfl, (Nat.mod_eq_zero_of_dvd (Nat.pow_dvd_pow 2 (Nat.le_succ log))).symm⟩
    · right
      rw [if_pos greater]
  · have nested := Nat.mod_mod_of_dvd key (Nat.pow_dvd_pow 2 (Nat.le_succ log'))
    rcases Nat.lt_trichotomy (key % 2 ^ (log' + 1)) (maxBucket + 1) with less | same | greater
    · right
      rw [if_neg (by omega), if_neg (by omega)]
    · left
      rw [if_neg (by omega), if_pos (by omega)]
      exact ⟨same, by rw [← nested, same]⟩
    · right
      rw [if_pos greater, if_pos (by omega)]

end

end BlockchainPG.Lib.LinearHash
