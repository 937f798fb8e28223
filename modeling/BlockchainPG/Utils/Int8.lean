import Mathlib.Tactic.Linarith

/-! Arithmetic of `int8.c`, which looks for an overflow afterwards. -/

namespace BlockchainPG.Utils.Int8

/-- What a function ends in when it returns no value. -/
inductive Failure where
  | outOfRange
  | divisionByZero
  /-- The machine division of the smallest integer by -1. -/
  | divisionTrap
deriving DecidableEq

abbrev Result := Except Failure (BitVec 64)

def sameSign (a : BitVec v) (b : BitVec w) : Bool := a.slt 0 == b.slt 0

/-- `(int64) arg` -/
def widen (arg : BitVec w) : BitVec 64 := arg.signExtend 64

/-- `arg == (int64) ((int32) arg)` -/
def inInt32 (arg : BitVec 64) : Bool := arg == widen (arg.truncate 32)

def machineDivision (quotient : BitVec 64 → BitVec 64 → BitVec 64) (a b : BitVec 64) : Result :=
  if a = BitVec.intMin 64 ∧ b = -1 then .error .divisionTrap else .ok (quotient a b)

/-- `int8pl` on operands of any width -/
def pl (arg1 : BitVec v) (arg2 : BitVec w) : Result :=
  let result := widen arg1 + widen arg2
  if sameSign arg1 arg2 && !sameSign result arg1 then .error .outOfRange else .ok result

/-- `int8mi` on operands of any width -/
def mi (arg1 : BitVec v) (arg2 : BitVec w) : Result :=
  let result := widen arg1 - widen arg2
  if !sameSign arg1 arg2 && !sameSign result arg1 then .error .outOfRange else .ok result

def int8mul (arg1 arg2 : BitVec 64) : Result := do
  let result := arg1 * arg2
  if !inInt32 arg1 || !inInt32 arg2 then
    if arg2 ≠ 0 then
      let quotient ← machineDivision .sdiv result arg2
      if quotient ≠ arg1 ∨ (arg2 = -1 ∧ arg1.slt 0 ∧ result.slt 0) then throw .outOfRange
  return result

def mulNarrow (wide : BitVec 64) (narrow : BitVec w) : Result := do
  let result := wide * widen narrow
  if !inInt32 wide then
    let quotient ← machineDivision .sdiv result wide
    if quotient ≠ widen narrow then throw .outOfRange
  return result

/-- `int8div` with a divisor of any width -/
def div (arg1 : BitVec 64) (arg2 : BitVec w) : Result := do
  if arg2 = 0 then throw .divisionByZero
  let result ← machineDivision .sdiv arg1 (widen arg2)
  if arg2 = -1 ∧ arg1.slt 0 ∧ result.sle 0 then throw .outOfRange
  return result

def divNarrow (arg1 : BitVec w) (arg2 : BitVec 64) : Result := do
  if arg2 = 0 then throw .divisionByZero
  machineDivision .sdiv (widen arg1) arg2

def int8mod (arg1 arg2 : BitVec 64) : Result := do
  if arg2 = 0 then throw .divisionByZero
  machineDivision .srem arg1 arg2

def int8pl (arg1 arg2 : BitVec 64) : Result := pl arg1 arg2
def int8mi (arg1 arg2 : BitVec 64) : Result := mi arg1 arg2
def int8div (arg1 arg2 : BitVec 64) : Result := div arg1 arg2
def int84pl (arg1 : BitVec 64) (arg2 : BitVec 32) : Result := pl arg1 arg2
def int84mi (arg1 : BitVec 64) (arg2 : BitVec 32) : Result := mi arg1 arg2
def int84mul (arg1 : BitVec 64) (arg2 : BitVec 32) : Result := mulNarrow arg1 arg2
def int84div (arg1 : BitVec 64) (arg2 : BitVec 32) : Result := div arg1 arg2
def int48pl (arg1 : BitVec 32) (arg2 : BitVec 64) : Result := pl arg1 arg2
def int48mi (arg1 : BitVec 32) (arg2 : BitVec 64) : Result := mi arg1 arg2
def int48mul (arg1 : BitVec 32) (arg2 : BitVec 64) : Result := mulNarrow arg2 arg1
def int48div (arg1 : BitVec 32) (arg2 : BitVec 64) : Result := divNarrow arg1 arg2
def int82pl (arg1 : BitVec 64) (arg2 : BitVec 16) : Result := pl arg1 arg2
def int82mi (arg1 : BitVec 64) (arg2 : BitVec 16) : Result := mi arg1 arg2
def int82mul (arg1 : BitVec 64) (arg2 : BitVec 16) : Result := mulNarrow arg1 arg2
def int82div (arg1 : BitVec 64) (arg2 : BitVec 16) : Result := div arg1 arg2
def int28pl (arg1 : BitVec 16) (arg2 : BitVec 64) : Result := pl arg1 arg2
def int28mi (arg1 : BitVec 16) (arg2 : BitVec 64) : Result := mi arg1 arg2
def int28mul (arg1 : BitVec 16) (arg2 : BitVec 64) : Result := mulNarrow arg2 arg1
def int28div (arg1 : BitVec 16) (arg2 : BitVec 64) : Result := divNarrow arg1 arg2

/-- The exact result, if it is a 64-bit integer. -/
def checked (exact : Int) : Result :=
  if -2 ^ 63 ≤ exact ∧ exact < 2 ^ 63 then .ok (BitVec.ofInt 64 exact) else .error .outOfRange

def checkedDivision (exact : Int) (divisor : Int) : Result :=
  if divisor = 0 then .error .divisionByZero else checked exact

theorem toInt_widen (arg : BitVec w) (narrow : w ≤ 64) : (widen arg).toInt = arg.toInt :=
  BitVec.toInt_signExtend_of_le narrow

theorem toInt_range (arg : BitVec 64) : -2 ^ 63 ≤ arg.toInt ∧ arg.toInt < 2 ^ 63 :=
  ⟨BitVec.le_toInt arg, BitVec.toInt_lt⟩

theorem toInt_range_of_le (arg : BitVec w) (narrow : w ≤ 64) : -2 ^ 63 ≤ arg.toInt ∧ arg.toInt < 2 ^ 63 := by
  rw [← toInt_widen arg narrow]
  exact toInt_range _

theorem slt_zero_iff (arg : BitVec w) : arg.slt 0 = decide (arg.toInt < 0) := by
  simp [BitVec.slt]

theorem sameSign_eq (a : BitVec v) (b : BitVec w) :
    sameSign a b = (decide (a.toInt < 0) == decide (b.toInt < 0)) := by
  rw [sameSign, slt_zero_iff, slt_zero_iff]

theorem ok_eq_checked (wrapped : value.toInt = exact) : (.ok value : Result) = checked exact := by
  grind [checked]

theorem bmod_of_fits (fits : -2 ^ 63 ≤ exact ∧ exact < 2 ^ 63) : Int.bmod exact (2 ^ 64) = exact := by
  apply Int.bmod_eq_of_le <;> omega

theorem checked_of_wrapped (wrapped : value.toInt = exact.bmod (2 ^ 64))
    (overflow : failed = true ↔ exact.bmod (2 ^ 64) ≠ exact) :
    (if failed = true then .error .outOfRange else .ok value : Result) = checked exact := by
  grind [checked]

theorem tdiv_wrapped_iff (x y : Int) (range : -2 ^ 63 ≤ y ∧ y < 2 ^ 63) (nonzero : y ≠ 0) :
    ((x * y).bmod (2 ^ 64)).tdiv y = x ↔ (x * y).bmod (2 ^ 64) = x * y := by
  constructor
  · intro quotient
    have split := Int.mul_tdiv_add_tmod ((x * y).bmod (2 ^ 64)) y
    rw [quotient, Int.mul_comm] at split
    have congruent : (2 ^ 64 : Int) ∣ ((x * y).bmod (2 ^ 64)).tmod y := by
      grind
    have small : (((x * y).bmod (2 ^ 64)).tmod y).natAbs < (2 ^ 64 : Int).natAbs := by
      rw [Int.natAbs_tmod]
      exact (Nat.mod_lt _ (Int.natAbs_pos.mpr nonzero)).trans_le (by omega)
    omega
  · intro same
    rw [same, Int.mul_tdiv_cancel _ nonzero]

section Functions

variable {v w : Nat}

theorem pl_eq (arg1 : BitVec v) (arg2 : BitVec w) (narrow1 : v ≤ 64) (narrow2 : w ≤ 64) :
    pl arg1 arg2 = checked (arg1.toInt + arg2.toInt) := by
  have range1 := toInt_range_of_le arg1 narrow1
  have range2 := toInt_range_of_le arg2 narrow2
  have sum : (widen arg1 + widen arg2).toInt = (arg1.toInt + arg2.toInt).bmod (2 ^ 64) := by
    grind [toInt_widen]
  refine checked_of_wrapped sum ?_
  simp only [sameSign_eq, sum, Int.bmod]
  grind

theorem mi_eq (arg1 : BitVec v) (arg2 : BitVec w) (narrow1 : v ≤ 64) (narrow2 : w ≤ 64) :
    mi arg1 arg2 = checked (arg1.toInt - arg2.toInt) := by
  have range1 := toInt_range_of_le arg1 narrow1
  have range2 := toInt_range_of_le arg2 narrow2
  have difference : (widen arg1 - widen arg2).toInt = (arg1.toInt - arg2.toInt).bmod (2 ^ 64) := by
    grind [toInt_widen]
  refine checked_of_wrapped difference ?_
  simp only [sameSign_eq, difference, Int.bmod]
  grind

theorem inInt32_iff (arg : BitVec 64) : inInt32 arg = true ↔ -2 ^ 31 ≤ arg.toInt ∧ arg.toInt < 2 ^ 31 := by
  grind [inInt32, BitVec.toInt_inj, toInt_widen]

theorem trap_iff (a b : BitVec 64) : a = BitVec.intMin 64 ∧ b = -1 ↔ a.toInt = -2 ^ 63 ∧ b.toInt = -1 := by
  rw [← BitVec.toInt_inj, ← BitVec.toInt_inj (y := -1)]
  exact Iff.rfl

theorem machineDivision_ok (safe : ¬(a.toInt = -2 ^ 63 ∧ b.toInt = -1)) :
    machineDivision quotient a b = .ok (quotient a b) := if_neg (mt (trap_iff a b).mp safe)

theorem machineDivision_trap (least : a.toInt = -2 ^ 63)
    (minus : b.toInt = -1) : machineDivision quotient a b = .error .divisionTrap :=
  if_pos ((trap_iff a b).mpr ⟨least, minus⟩)

theorem toInt_sdiv_of_safe (a b : BitVec 64) (safe : ¬(a.toInt = -2 ^ 63 ∧ b.toInt = -1)) :
    (a.sdiv b).toInt = a.toInt.tdiv b.toInt := by
  grind [BitVec.toInt_sdiv_of_ne_or_ne]

theorem product_checked (wide other : BitVec 64) (nonzero : wide.toInt ≠ 0)
    (safe : ¬((wide * other).toInt = -2 ^ 63 ∧ wide.toInt = -1)) :
    (if (wide * other).sdiv wide ≠ other then .error .outOfRange else .ok (wide * other) : Result) =
      checked (wide.toInt * other.toInt) := by
  have product : (wide * other).toInt = (wide.toInt * other.toInt).bmod (2 ^ 64) := BitVec.toInt_mul ..
  have back := tdiv_wrapped_iff other.toInt wide.toInt (toInt_range wide) nonzero
  have overflow : decide ((wide * other).sdiv wide ≠ other) = true ↔
      (wide.toInt * other.toInt).bmod (2 ^ 64) ≠ wide.toInt * other.toInt := by
    grind [BitVec.toInt_inj, toInt_sdiv_of_safe, Int.mul_comm]
  simpa only [decide_eq_true_eq] using checked_of_wrapped product overflow

theorem product_small (small1 : -2 ^ 31 ≤ x ∧ x < 2 ^ 31) (small2 : -2 ^ 31 ≤ y ∧ y < 2 ^ 31) :
    (x * y).bmod (2 ^ 64) = x * y := by
  apply bmod_of_fits
  constructor <;> nlinarith

theorem int8mul_eq (arg1 arg2 : BitVec 64) (safe : ¬(arg1.toInt = -2 ^ 63 ∧ arg2.toInt = -1)) :
    int8mul arg1 arg2 = checked (arg1.toInt * arg2.toInt) := by
  have product : (arg1 * arg2).toInt = (arg1.toInt * arg2.toInt).bmod (2 ^ 64) := BitVec.toInt_mul ..
  have range := toInt_range arg1
  unfold int8mul
  by_cases narrow : inInt32 arg1 = true ∧ inInt32 arg2 = true
  · simp only [narrow.1, narrow.2]
    exact ok_eq_checked (product.trans (product_small ((inInt32_iff _).mp narrow.1) ((inInt32_iff _).mp narrow.2)))
  · have divided : (!inInt32 arg1 || !inInt32 arg2) = true := by grind
    rw [if_pos divided]
    by_cases zero : arg2 = 0
    · subst zero
      exact ok_eq_checked (by simp)
    · have nonzero : arg2.toInt ≠ 0 := fun none => zero (BitVec.eq_of_toInt_eq (none.trans BitVec.toInt_zero.symm))
      have noTrap : ¬((arg1 * arg2).toInt = -2 ^ 63 ∧ arg2.toInt = -1) := by
        grind
      -- for -1 the division has found the overflow already
      have sign : arg2 = -1 → arg1.slt 0 = true → (arg1 * arg2).slt 0 = true → False := by
        grind [slt_zero_iff]
      have checks := product_checked arg2 arg1 nonzero (by rwa [BitVec.mul_comm])
      rw [BitVec.mul_comm, Int.mul_comm] at checks
      rw [if_pos zero, machineDivision_ok noTrap, ← checks]
      exact if_congr (or_iff_left fun ⟨minus, negative, again⟩ => sign minus negative again) rfl rfl

theorem int8mul_trap (arg1 arg2 : BitVec 64) (least : arg1.toInt = -2 ^ 63) (minus : arg2.toInt = -1) :
    int8mul arg1 arg2 = .error .divisionTrap := by
  obtain ⟨rfl, rfl⟩ := (trap_iff arg1 arg2).mpr ⟨least, minus⟩
  decide +kernel

theorem mulNarrow_eq (wide : BitVec 64) (narrow : BitVec w) (size : w ≤ 32) :
    mulNarrow wide narrow = checked (wide.toInt * narrow.toInt) := by
  have widened := toInt_widen narrow (size.trans (by decide))
  unfold mulNarrow
  by_cases small : inInt32 wide = true
  · have product : (wide * widen narrow).toInt = wide.toInt * narrow.toInt := by
      have low : -2 ^ 31 ≤ narrow.toInt := by
        have := BitVec.le_toInt (narrow.signExtend 32)
        rwa [BitVec.toInt_signExtend_of_le size] at this
      have high : narrow.toInt < 2 ^ 31 := by
        have := BitVec.toInt_lt (x := narrow.signExtend 32)
        rwa [BitVec.toInt_signExtend_of_le size] at this
      grind [BitVec.toInt_mul, product_small, inInt32_iff]
    simp only [small]
    exact ok_eq_checked product
  · have wideRange := mt (inInt32_iff wide).mpr small
    have noTrap : ¬((wide * widen narrow).toInt = -2 ^ 63 ∧ wide.toInt = -1) := by omega
    rw [if_pos (by simpa using small), machineDivision_ok noTrap, ← widened]
    exact product_checked wide (widen narrow) (by omega) noTrap

theorem toInt_eq_zero_iff (arg : BitVec w) : arg.toInt = 0 ↔ arg = 0 := by
  rw [← BitVec.toInt_inj]
  simp

theorem toInt_minus_one (wide : 0 < w) : (-1 : BitVec w).toInt = -1 := by
  grind [BitVec.neg_one_eq_allOnes]

theorem div_eq (arg1 : BitVec 64) (arg2 : BitVec w) (size : w ≤ 64) (wide : 0 < w)
    (safe : ¬(arg1.toInt = -2 ^ 63 ∧ arg2.toInt = -1)) :
    div arg1 arg2 = checkedDivision (arg1.toInt.tdiv arg2.toInt) arg2.toInt := by
  have widened := toInt_widen arg2 size
  unfold div checkedDivision
  by_cases zero : arg2 = 0
  · rw [if_pos zero, if_pos ((toInt_eq_zero_iff arg2).mpr zero)]
    rfl
  · have noTrap : ¬(arg1.toInt = -2 ^ 63 ∧ (widen arg2).toInt = -1) := by rwa [widened]
    have quotient := toInt_sdiv_of_safe arg1 (widen arg2) noTrap
    rw [widened] at quotient
    have sign : ¬(arg2 = -1 ∧ arg1.slt 0 ∧ (arg1.sdiv (widen arg2)).sle 0) := by
      rintro ⟨rfl, negative, nonpositive⟩
      rw [BitVec.sle, decide_eq_true_eq, quotient] at nonpositive
      rw [slt_zero_iff, decide_eq_true_eq] at negative
      rw [toInt_minus_one wide] at nonpositive
      simp at nonpositive
      omega
    rw [if_neg zero, if_neg (mt (toInt_eq_zero_iff arg2).mp zero), machineDivision_ok noTrap,
      ← ok_eq_checked quotient]
    exact if_neg sign

theorem div_trap (arg1 : BitVec 64) (arg2 : BitVec w) (size : w ≤ 64) (least : arg1.toInt = -2 ^ 63)
    (minus : arg2.toInt = -1) : div arg1 arg2 = .error .divisionTrap := by
  have nonzero : arg2 ≠ 0 := fun zero => by simp [zero] at minus
  have widened := (toInt_widen arg2 size).trans minus
  rw [div, if_neg nonzero, machineDivision_trap least widened]
  rfl

theorem divNarrow_eq (arg1 : BitVec w) (arg2 : BitVec 64) (size : w < 64) :
    divNarrow arg1 arg2 = checkedDivision (arg1.toInt.tdiv arg2.toInt) arg2.toInt := by
  have widened := toInt_widen arg1 size.le
  unfold divNarrow checkedDivision
  by_cases zero : arg2 = 0
  · rw [if_pos zero, if_pos ((toInt_eq_zero_iff arg2).mpr zero)]
    rfl
  · have inside : -2 ^ 63 < arg1.toInt := by
      have low := BitVec.le_toInt arg1
      have power : (2 : Int) ^ (w - 1) ≤ 2 ^ 62 := pow_le_pow_right₀ (by decide) (by omega)
      omega
    grind [toInt_eq_zero_iff, toInt_sdiv_of_safe, machineDivision_ok, ok_eq_checked]

theorem int8mod_eq (arg1 arg2 : BitVec 64) (safe : ¬(arg1.toInt = -2 ^ 63 ∧ arg2.toInt = -1)) :
    int8mod arg1 arg2 = checkedDivision (arg1.toInt.tmod arg2.toInt) arg2.toInt := by
  unfold int8mod checkedDivision
  by_cases zero : arg2 = 0
  · rw [if_pos zero, if_pos ((toInt_eq_zero_iff arg2).mpr zero)]
    rfl
  · grind [toInt_eq_zero_iff, machineDivision_ok, ok_eq_checked, BitVec.toInt_srem]

theorem int8mod_trap (arg1 arg2 : BitVec 64) (least : arg1.toInt = -2 ^ 63) (minus : arg2.toInt = -1) :
    int8mod arg1 arg2 = .error .divisionTrap := by
  obtain ⟨rfl, rfl⟩ := (trap_iff arg1 arg2).mpr ⟨least, minus⟩
  decide +kernel

end Functions

/-- The functions. -/
inductive Operator where
  | int8pl | int8mi | int8mul | int8div | int8mod
  | int84pl | int84mi | int84mul | int84div
  | int48pl | int48mi | int48mul | int48div
  | int82pl | int82mi | int82mul | int82div
  | int28pl | int28mi | int28mul | int28div
deriving DecidableEq

namespace Operator

/-- The width of the first operand. -/
def left : Operator → Nat
  | int48pl | int48mi | int48mul | int48div => 32
  | int28pl | int28mi | int28mul | int28div => 16
  | _ => 64

/-- The width of the second operand. -/
def right : Operator → Nat
  | int84pl | int84mi | int84mul | int84div => 32
  | int82pl | int82mi | int82mul | int82div => 16
  | _ => 64

def call : (operator : Operator) → BitVec operator.left → BitVec operator.right → Result
  | int8pl => Int8.int8pl
  | int8mi => Int8.int8mi
  | int8mul => Int8.int8mul
  | int8div => Int8.int8div
  | int8mod => Int8.int8mod
  | int84pl => Int8.int84pl
  | int84mi => Int8.int84mi
  | int84mul => Int8.int84mul
  | int84div => Int8.int84div
  | int48pl => Int8.int48pl
  | int48mi => Int8.int48mi
  | int48mul => Int8.int48mul
  | int48div => Int8.int48div
  | int82pl => Int8.int82pl
  | int82mi => Int8.int82mi
  | int82mul => Int8.int82mul
  | int82div => Int8.int82div
  | int28pl => Int8.int28pl
  | int28mi => Int8.int28mi
  | int28mul => Int8.int28mul
  | int28div => Int8.int28div

/-- The exact result if it fits, and the error that is to be reported otherwise. -/
def expected (x y : Int) : Operator → Result
  | int8pl | int84pl | int48pl | int82pl | int28pl => checked (x + y)
  | int8mi | int84mi | int48mi | int82mi | int28mi => checked (x - y)
  | int8mul | int84mul | int48mul | int82mul | int28mul => checked (x * y)
  | int8div | int84div | int48div | int82div | int28div => checkedDivision (x.tdiv y) y
  | int8mod => checkedDivision (x.tmod y) y

/-- The functions that divide a 64-bit integer by any integer, -1 among them. -/
def dividesByAny : Operator → Bool
  | int8mul | int8div | int8mod | int84div | int82div => true
  | _ => false

theorem expected_ne_trap (operator : Operator) (x y : Int) : operator.expected x y ≠ .error .divisionTrap := by
  cases operator <;> simp only [expected, checkedDivision, checked] <;> grind

theorem call_trap (operator : Operator) (arg1 : BitVec operator.left) (arg2 : BitVec operator.right)
    (divides : operator.dividesByAny = true) (least : arg1.toInt = -2 ^ 63) (minus : arg2.toInt = -1) :
    operator.call arg1 arg2 = .error .divisionTrap := by
  cases operator with
  | int8mul => exact int8mul_trap arg1 arg2 least minus
  | int8div => exact div_trap (w := 64) arg1 arg2 (by decide) least minus
  | int8mod => exact int8mod_trap arg1 arg2 least minus
  | int84div => exact div_trap (w := 32) arg1 arg2 (by decide) least minus
  | int82div => exact div_trap (w := 16) arg1 arg2 (by decide) least minus
  | _ => exact nomatch divides

theorem call_exact (operator : Operator) (arg1 : BitVec operator.left) (arg2 : BitVec operator.right)
    (safe : ¬(operator.dividesByAny = true ∧ arg1.toInt = -2 ^ 63 ∧ arg2.toInt = -1)) :
    operator.call arg1 arg2 = operator.expected arg1.toInt arg2.toInt := by
  cases operator with
  | int8pl | int84pl | int48pl | int82pl | int28pl => exact pl_eq arg1 arg2 (by decide) (by decide)
  | int8mi | int84mi | int48mi | int82mi | int28mi => exact mi_eq arg1 arg2 (by decide) (by decide)
  | int8mul => exact int8mul_eq arg1 arg2 fun trap => safe ⟨rfl, trap⟩
  | int84mul | int82mul => exact mulNarrow_eq arg1 arg2 (by decide)
  | int48mul | int28mul => exact (mulNarrow_eq arg2 arg1 (by decide)).trans (congrArg checked (Int.mul_comm ..))
  | int8div | int84div | int82div => exact div_eq arg1 arg2 (by decide) (by decide) fun trap => safe ⟨rfl, trap⟩
  | int48div | int28div => exact divNarrow_eq arg1 arg2 (by decide)
  | int8mod => exact int8mod_eq arg1 arg2 fun trap => safe ⟨rfl, trap⟩

end Operator

/-- Every function returns the exact result or reports the error that is due, except that the smallest integer
is divided by -1 where nothing keeps the operands from being these. -/
theorem int8_arithmetic_iff (operator : Operator) (arg1 : BitVec operator.left) (arg2 : BitVec operator.right) :
    operator.call arg1 arg2 = operator.expected arg1.toInt arg2.toInt ↔
      ¬(operator.dividesByAny = true ∧ arg1.toInt = -2 ^ 63 ∧ arg2.toInt = -1) := by
  grind [Operator.call_trap, Operator.expected_ne_trap, Operator.call_exact]

/-- The remainder of the smallest integer by -1 is zero, and the machine does not get to it. -/
theorem int8mod_least : int8mod (BitVec.intMin 64) (-1) = .error .divisionTrap ∧
    Operator.expected (-2 ^ 63) (-1) .int8mod = .ok 0 := by
  decide +kernel

end BlockchainPG.Utils.Int8
