import Mathlib

/-! Numbers in a fixed count of bytes, and numbers that wrap around. -/

namespace BlockchainPG.Lib

/-- The number that some bytes stand for. -/
def wordOf (code : β → Nat) : List β → Nat
  | [] => 0
  | byte :: rest => code byte + 256 * wordOf code rest

/-- The bytes of a number, cut to a width. -/
def storeWord (byte : Nat → β) : Nat → Nat → List β
  | 0, _ => []
  | width + 1, value => byte (value % 256) :: storeWord byte width (value / 256)

@[simp]
theorem storeWord_length (byte : Nat → β) (width value : Nat) : (storeWord byte width value).length = width := by
  induction width generalizing value with
  | zero => rfl
  | succ width ih => rw [storeWord, List.length_cons, ih]

theorem wordOf_storeWord {byte : Nat → β} (inverse : ∀ n < 256, code (byte n) = n) (small : value < 256 ^ width) :
    wordOf code (storeWord byte width value) = value := by
  induction width generalizing value with
  | zero => grind [storeWord, wordOf]
  | succ width ih => grind [storeWord, wordOf]

/-- The next multiple. -/
def alignUp (size position : Nat) : Nat := (position + (size - 1)) / size * size

theorem le_alignUp (pos : 0 < size) (position : Nat) : position ≤ alignUp size position := by
  have parts := Nat.div_add_mod (position + (size - 1)) size
  have small := Nat.mod_lt (position + (size - 1)) pos
  rw [alignUp, Nat.mul_comm]
  omega

theorem alignUp_mul (pos : 0 < size) (count : Nat) : alignUp size (count * size) = count * size := by
  have small : (size - 1) / size = 0 := Nat.div_eq_of_lt (by omega)
  rw [alignUp, Nat.mul_comm count, Nat.mul_add_div pos, small, Nat.add_zero, Nat.mul_comm]

theorem alignUp_add (pos : 0 < size) (divides : size ∣ base) (position : Nat) :
    alignUp size (base + position) = base + alignUp size position := by
  obtain ⟨count, rfl⟩ := divides
  rw [alignUp, Nat.add_assoc, Nat.mul_add_div pos, alignUp, Nat.add_mul, Nat.mul_comm count]

variable {w : Nat}

/-- The difference is negative as a signed number. -/
def circularLt (a b : BitVec w) : Bool := decide ((a - b).toInt < 0)

/-- How far a number is ahead of a base. -/
def offset (base a : BitVec w) : Nat := (a - base).toNat

/-- A number in the half circle ahead of a base. -/
def Near (base a : BitVec w) : Prop := 2 * offset base a < 2 ^ w

instance (base a : BitVec w) : Decidable (Near base a) := inferInstanceAs (Decidable (_ < _))

theorem offset_inj {base a b : BitVec w} (same : offset base a = offset base b) : a = b := by
  have sub : a - base = b - base := BitVec.eq_of_toNat_eq same
  have added := congrArg (· + base) sub
  simpa [BitVec.sub_add_cancel] using added

theorem circularLt_iff {base a b : BitVec w} (nearA : Near base a) (nearB : Near base b) :
    circularLt a b = true ↔ offset base a < offset base b := by
  have difference : (a - b).toNat = (2 ^ w - offset base b + offset base a) % 2 ^ w := by
    rw [← sub_sub_sub_cancel_right a b base, BitVec.toNat_sub]
    rfl
  unfold Near at nearA nearB
  rw [circularLt, decide_eq_true_iff, BitVec.toInt_neg_iff, difference]
  by_cases less : offset base a < offset base b
  · have small : 2 ^ w - offset base b + offset base a < 2 ^ w := by omega
    rw [Nat.mod_eq_of_lt small]
    omega
  · have wrapped : 2 ^ w - offset base b + offset base a = 2 ^ w + (offset base a - offset base b) := by omega
    rw [wrapped, Nat.add_mod_left, Nat.mod_eq_of_lt (by omega)]
    omega

end BlockchainPG.Lib
