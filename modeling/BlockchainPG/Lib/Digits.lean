import Mathlib.Algebra.Order.Field.Power
import Mathlib.Tactic.Linarith
import Mathlib.Tactic.LinearCombination
import Mathlib.Tactic.Positivity
import Mathlib.Tactic.Ring

/-! Numbers written with digits of a base, the most significant one first. -/

namespace BlockchainPG.Lib

open List

variable {base : Int}

/-- The integer with the given digits. -/
def horner (base : Int) (digits : List Int) : Int := digits.foldl (fun number digit => number * base + digit) 0

def columnSum (base : Int) : List Int → Int
  | [] => 0
  | column :: rest => column + base * columnSum base rest

/-- Digits in range. -/
def InBase (base : Int) (digits : List Int) : Prop := ∀ digit ∈ digits, 0 ≤ digit ∧ digit < base

def carryLoop (normal : Int → Int × Int) : List Int → Int → List Int × Int
  | [], carry => ([], carry)
  | column :: rest, carry =>
    let (digit, carry) := normal (carry + column)
    let (digits, carry) := carryLoop normal rest carry
    (digits ++ [digit], carry)

@[simp]
theorem horner_nil (base : Int) : horner base [] = 0 := rfl

@[simp]
theorem horner_concat (base : Int) (digits : List Int) (digit : Int) :
    horner base (digits ++ [digit]) = horner base digits * base + digit := by
  simp [horner]

theorem horner_append (base : Int) (first second : List Int) :
    horner base (first ++ second) = horner base first * base ^ second.length + horner base second := by
  induction second using reverseRecOn with
  | nil => simp
  | append_singleton second digit ih =>
    rw [← append_assoc, horner_concat, horner_concat, ih, length_append, length_singleton]
    ring

theorem horner_cons (base digit : Int) (digits : List Int) :
    horner base (digit :: digits) = digit * base ^ digits.length + horner base digits := by
  have split := horner_append base [digit] digits
  simpa [horner] using split

theorem horner_range (inBase : InBase base digits) (pos : 0 < base) :
    0 ≤ horner base digits ∧ horner base digits < base ^ digits.length := by
  induction digits using reverseRecOn with
  | nil => simp
  | append_singleton digits digit ih =>
    have ⟨low, high⟩ := ih fun other mem => inBase other (mem_append_left _ mem)
    have ⟨least, most⟩ := inBase digit (by simp)
    rw [horner_concat, length_append, length_singleton, pow_succ]
    constructor <;> nlinarith

/-- The digits and the carry of a loop that loses nothing. -/
theorem carryLoop_sum (exact : ∀ total, (normal total).1 + base * (normal total).2 = total)
    (columns : List Int) (carry : Int) :
    horner base (carryLoop normal columns carry).1 + (carryLoop normal columns carry).2 * base ^ columns.length =
        columnSum base columns + carry ∧ (carryLoop normal columns carry).1.length = columns.length := by
  induction columns generalizing carry with
  | nil => simp [carryLoop, columnSum]
  | cons column rest ih =>
    grind [carryLoop, columnSum, horner_concat]

theorem carryLoop_inBase (carries columnsOk : Int → Prop)
    (step : ∀ carry column, carries carry → columnsOk column →
      (0 ≤ (normal (carry + column)).1 ∧ (normal (carry + column)).1 < base) ∧ carries (normal (carry + column)).2)
    (each : ∀ column ∈ columns, columnsOk column) (start : carries carry) :
    InBase base (carryLoop normal columns carry).1 ∧ carries (carryLoop normal columns carry).2 := by
  induction columns generalizing carry with
  | nil => exact ⟨by simp [InBase, carryLoop], start⟩
  | cons column rest ih =>
    obtain ⟨own, others⟩ := forall_mem_cons.mp each
    obtain ⟨digit, next⟩ := step carry column start own
    obtain ⟨digits, last⟩ := ih others next
    refine ⟨fun other mem => ?_, last⟩
    rcases mem_append.mp mem with mem | mem
    · exact digits other mem
    · rw [mem_singleton.mp mem]
      exact digit

theorem columnSum_add (base : Int) (count : Nat) (first second : Nat → Int) :
    columnSum base ((range count).map fun k => first k + second k) =
      columnSum base ((range count).map first) + columnSum base ((range count).map second) := by
  induction count generalizing first second with
  | zero => rfl
  | succ count ih =>
    grind [range_succ_eq_map, columnSum]

theorem columnSum_neg (base : Int) (count : Nat) (first : Nat → Int) :
    columnSum base ((range count).map fun k => -first k) = -columnSum base ((range count).map first) := by
  induction count generalizing first with
  | zero => rfl
  | succ count ih =>
    grind [range_succ_eq_map, columnSum]

theorem emod_mul_eq (pos : 0 < base) (more : 0 < other) (number : Int) :
    number % (base * other) = number % base + base * (number / base % other) := by
  have outer := Int.mul_ediv_add_emod number base
  have inner := Int.mul_ediv_add_emod (number / base) other
  have least := Int.emod_nonneg number pos.ne'
  have most := Int.emod_lt_of_pos number pos
  have least' := Int.emod_nonneg (number / base) more.ne'
  have most' := Int.emod_lt_of_pos (number / base) more
  have whole : number = number % base + base * (number / base % other) + base * other * (number / base / other) := by
    linear_combination -outer - base * inner
  have small : number % base + base * (number / base % other) < base * other := by nlinarith
  have reduced := Int.add_mul_emod_self_left (number % base + base * (number / base % other)) (base * other)
    (number / base / other)
  rw [← whole] at reduced
  exact reduced.trans (Int.emod_eq_of_lt (by positivity) small)

theorem columnSum_digits (pos : 0 < base) (number : Int) (count : Nat) :
    columnSum base ((range count).map fun k => number / base ^ k % base) = number % base ^ count := by
  induction count generalizing number with
  | zero => simp [columnSum]
  | succ count ih =>
    have rest := ih (number / base)
    have shift : ∀ k : Nat, number / base ^ (k + 1) = number / base / base ^ k := fun k => by
      rw [pow_succ', Int.ediv_ediv_of_nonneg pos.le]
    simp only [range_succ_eq_map, map_cons, map_map, columnSum, Function.comp_def, Nat.succ_eq_add_one,
      pow_zero, Int.ediv_one, shift]
    rw [rest, pow_succ', emod_mul_eq pos (pow_pos pos count)]

def digitAt (digits : List Int) (index : Int) : Int :=
  if 0 ≤ index ∧ index < digits.length then digits.getD index.toNat 0 else 0

theorem digitAt_of_le (outside : (digits.length : Int) ≤ index) : digitAt digits index = 0 := if_neg (by omega)

theorem digitAt_concat (digits : List Int) (digit index : Int) :
    digitAt (digits ++ [digit]) index = if index = digits.length then digit else digitAt digits index := by
  unfold digitAt
  grind

theorem digitAt_horner (pos : 0 < base) (inBase : InBase base digits) (k : Nat) :
    digitAt digits (digits.length - 1 - k) = horner base digits / base ^ k % base := by
  induction digits using reverseRecOn generalizing k with
  | nil => simp [digitAt]
  | append_singleton digits digit ih =>
    have ⟨least, most⟩ := inBase digit (by simp)
    rw [digitAt_concat, horner_concat]
    cases k with
    | zero =>
      rw [if_pos (by simp), pow_zero, Int.ediv_one, Int.add_comm, Int.add_mul_emod_self_right,
        Int.emod_eq_of_lt least most]
    | succ k =>
      have place : ((digits ++ [digit]).length : Int) - 1 - (k + 1 : Nat) = digits.length - 1 - k := by
        rw [length_append, length_singleton]
        omega
      rw [place, if_neg (by omega), ih fun other mem => inBase other (mem_append_left _ mem), pow_succ',
        ← Int.ediv_ediv_of_nonneg pos.le, Int.add_comm, Int.add_mul_ediv_right _ _ pos.ne',
        Int.ediv_eq_zero_of_lt least most, Int.zero_add]

/-- The digit of a number that stands a number of places from the right, with zeros behind it. -/
theorem digitAt_shifted (pos : 0 < base) (inBase : InBase base digits) (zeros k : Nat) :
    digitAt digits (digits.length + zeros - 1 - k) = horner base digits * base ^ zeros / base ^ k % base := by
  induction zeros generalizing k with
  | zero => simpa using digitAt_horner pos inBase k
  | succ zeros ih =>
    cases k with
    | zero =>
      rw [digitAt_of_le (by omega), pow_zero, Int.ediv_one, pow_succ, ← mul_assoc, Int.mul_emod_left]
    | succ k =>
      have place : (digits.length : Int) + (zeros + 1 : Nat) - 1 - (k + 1 : Nat) = digits.length + zeros - 1 - k := by
        omega
      rw [place, ih, pow_succ, pow_succ, ← mul_assoc, Int.mul_ediv_mul_of_pos_left _ _ pos]

/-- The columns in which a number stands add up to it, as far as they go. -/
theorem columnSum_shifted (pos : 0 < base) (inBase : InBase base digits) (zeros count : Nat) :
    columnSum base ((range count).map fun k : Nat => digitAt digits (digits.length + zeros - 1 - k)) =
      horner base digits * base ^ zeros % base ^ count := by
  rw [← columnSum_digits pos]
  simp only [digitAt_shifted pos inBase]

section Magnitudes

variable (base)

/-- The number whose digits begin with the given weight. -/
def magnitude (digits : List Int) (weight : Int) : Rat :=
  horner base digits * (base : Rat) ^ (weight + 1 - digits.length)

variable {base}

@[simp]
theorem magnitude_nil (weight : Int) : magnitude base [] weight = 0 := by simp [magnitude]

theorem magnitude_cons (pos : 0 < base) (digit : Int) (digits : List Int) (weight : Int) :
    magnitude base (digit :: digits) weight = digit * (base : Rat) ^ weight + magnitude base digits (weight - 1) := by
  have nonzero : (base : Rat) ≠ 0 := by exact_mod_cast pos.ne'
  have power : (base : Rat) ^ weight = base ^ digits.length * base ^ (weight + 1 - (digits.length + 1 : Nat)) := by
    rw [← zpow_natCast, ← zpow_add₀ nonzero]
    congr 1
    omega
  have place : weight - 1 + 1 - (digits.length : Int) = weight + 1 - (digits.length + 1 : Nat) := by omega
  rw [magnitude, magnitude, horner_cons, length_cons, place, power]
  push_cast
  ring

theorem magnitude_concat_zero (pos : 0 < base) (digits : List Int) (weight : Int) :
    magnitude base (digits ++ [0]) weight = magnitude base digits weight := by
  have nonzero : (base : Rat) ≠ 0 := by exact_mod_cast pos.ne'
  have place : weight + 1 - (digits.length : Int) = 1 + (weight + 1 - (digits.length + 1 : Nat)) := by omega
  rw [magnitude, magnitude, horner_concat, length_append, length_singleton, place, zpow_add₀ nonzero, zpow_one]
  push_cast
  ring

theorem magnitude_range (pos : 0 < base) (inBase : InBase base digits) (weight : Int) :
    0 ≤ magnitude base digits weight ∧ magnitude base digits weight < (base : Rat) ^ (weight + 1) := by
  have real : (0 : Rat) < base := by exact_mod_cast pos
  obtain ⟨low, high⟩ := horner_range inBase pos
  have power : (base : Rat) ^ (weight + 1) = base ^ digits.length * base ^ (weight + 1 - digits.length) := by
    rw [← zpow_natCast, ← zpow_add₀ real.ne']
    congr 1
    omega
  constructor
  · exact mul_nonneg (by exact_mod_cast low) (zpow_pos real _).le
  · rw [power]
    exact mul_lt_mul_of_pos_right (by exact_mod_cast high) (zpow_pos real _)

end Magnitudes

end BlockchainPG.Lib
