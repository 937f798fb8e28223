import BlockchainPG.Lib.Digits

/-! Variables of `numeric.c` and their comparison, sum and difference. -/

namespace BlockchainPG.Utils.Numeric

open Lib Function

def nbase : Int := 10000

/-- `NUMERIC_POS` and `NUMERIC_NEG` -/
inductive Sign where
  | pos
  | neg
deriving DecidableEq

structure NumericVar where
  digits : List Int
  weight : Int
  sign : Sign
  dscale : Int
  inBase : InBase nbase digits

theorem nbase_pos : 0 < nbase := by decide

theorem inBase_nil : InBase nbase [] := by simp [InBase]

theorem inBase_zero : InBase nbase [0] := by simp [InBase, nbase]

theorem inBase_three : InBase nbase [3] := by simp [InBase, nbase]

/-- The number that a variable stands for. -/
def NumericVar.value (var : NumericVar) : Rat :=
  match var.sign with
  | .pos => magnitude nbase var.digits var.weight
  | .neg => -magnitude nbase var.digits var.weight

/-- The loop over digits before the first common digit: `none` if one of them is not zero. -/
def skipBefore : List Int → (weight otherWeight : Int) → Option (List Int × Int)
  | [], weight, _ => some ([], weight)
  | digit :: rest, weight, otherWeight =>
    if weight > otherWeight then if digit ≠ 0 then none else skipBefore rest (weight - 1) otherWeight
    else some (digit :: rest, weight)

/-- The loops over the digits that only one side has. -/
def cmpLeft (digits1 digits2 : List Int) : Int :=
  if digits1.any (· ≠ 0) then 1 else if digits2.any (· ≠ 0) then -1 else 0

def cmpCommon : List Int → List Int → Int
  | digit1 :: rest1, digit2 :: rest2 =>
    let stat := digit1 - digit2
    if stat ≠ 0 then if stat > 0 then 1 else -1 else cmpCommon rest1 rest2
  | digits1, digits2 => cmpLeft digits1 digits2

def cmpAbsCommon (digits1 : List Int) (weight1 : Int) (digits2 : List Int) (weight2 : Int) : Int :=
  match skipBefore digits1 weight1 weight2 with
  | none => 1
  | some (digits1, weight1) =>
    match skipBefore digits2 weight2 weight1 with
    | none => -1
    | some (digits2, weight2) => if weight1 = weight2 then cmpCommon digits1 digits2 else cmpLeft digits1 digits2

def cmpAbs (var1 var2 : NumericVar) : Int := cmpAbsCommon var1.digits var1.weight var2.digits var2.weight

def cmpVar (var1 var2 : NumericVar) : Int :=
  if var1.digits = [] then
    if var2.digits = [] then 0 else if var2.sign = .neg then 1 else -1
  else if var2.digits = [] then if var1.sign = .pos then 1 else -1
  else
    match var1.sign, var2.sign with
    | .pos, .neg => 1
    | .pos, .pos => cmpAbs var1 var2
    | .neg, .pos => -1
    | .neg, .neg => cmpAbs var2 var1

/-- The sign of the difference. -/
def order (first second : Rat) : Int := if first < second then -1 else if second < first then 1 else 0

theorem order_of_lt (less : first < second) : order first second = -1 := if_pos less

theorem order_of_gt (greater : second < first) : order first second = 1 := by
  rw [order, if_neg greater.le.not_gt, if_pos greater]

theorem order_self (number : Rat) : order number number = 0 := by simp [order]

theorem order_neg (first second : Rat) : order (-first) (-second) = order second first := by
  simp only [order, neg_lt_neg_iff]

theorem inBase_cons (inBase : InBase nbase (digit :: rest)) :
    (0 ≤ digit ∧ digit < nbase) ∧ InBase nbase rest := List.forall_mem_cons.mp inBase

theorem power_pos (weight : Int) : (0 : Rat) < (nbase : Rat) ^ weight := zpow_pos (by norm_num [nbase]) weight

theorem magnitude_zero_or_pos (inBase : InBase nbase digits) (weight : Int) :
    (digits.any (· ≠ 0) = true ∧ 0 < magnitude nbase digits weight) ∨
      (digits.any (· ≠ 0) = false ∧ magnitude nbase digits weight = 0) := by
  induction digits generalizing weight with
  | nil => simp
  | cons digit rest ih =>
    obtain ⟨⟨least, -⟩, others⟩ := inBase_cons inBase
    have tail := magnitude_range nbase_pos others (weight - 1)
    rw [magnitude_cons nbase_pos, List.any_cons]
    by_cases zero : digit = 0
    · simpa [zero] using ih others (weight - 1)
    · have pos : (0 : Rat) < digit := by exact_mod_cast lt_of_le_of_ne least (Ne.symm zero)
      have := mul_pos pos (power_pos weight)
      exact Or.inl ⟨by simp [zero], by linarith⟩

theorem skipBefore_none (inBase : InBase nbase digits) (found : skipBefore digits weight otherWeight = none) :
    (nbase : Rat) ^ (otherWeight + 1) ≤ magnitude nbase digits weight := by
  induction digits generalizing weight with
  | nil => cases found
  | cons digit rest ih =>
    obtain ⟨⟨least, -⟩, others⟩ := inBase_cons inBase
    have tail := magnitude_range nbase_pos others (weight - 1)
    rw [magnitude_cons nbase_pos]
    rw [skipBefore] at found
    split at found
    · split at found
      · next above nonzero =>
        have one : (1 : Rat) ≤ digit := by exact_mod_cast lt_of_le_of_ne least nonzero.symm
        have power : (nbase : Rat) ^ (otherWeight + 1) ≤ (nbase : Rat) ^ weight :=
          zpow_le_zpow_right₀ (by norm_num [nbase]) (by omega)
        nlinarith [power_pos weight]
      · next above zero =>
        rw [not_not.mp zero]
        simpa using ih others found
    · cases found

theorem skipBefore_some (inBase : InBase nbase digits)
    (found : skipBefore digits weight otherWeight = some (left, weight')) :
    magnitude nbase digits weight = magnitude nbase left weight' ∧ InBase nbase left ∧
      (weight' ≤ otherWeight ∨ left = []) := by
  induction digits generalizing weight with
  | nil =>
    cases found
    exact ⟨rfl, inBase, Or.inr rfl⟩
  | cons digit rest ih =>
    rw [skipBefore] at found
    split at found
    · split at found
      · cases found
      · next above zero =>
        obtain ⟨same, range, low⟩ := ih (inBase_cons inBase).2 found
        refine ⟨?_, range, low⟩
        rw [magnitude_cons nbase_pos, not_not.mp zero, ← same]
        simp
    · grind

theorem skipBefore_stops (found : skipBefore digits weight otherWeight = some (left, weight')) :
    otherWeight ≤ weight' ∨ weight' = weight := by
  induction digits generalizing weight with
  | nil =>
    cases found
    exact Or.inr rfl
  | cons digit rest ih =>
    grind [skipBefore]

theorem cmpLeft_nil_right (inBase : InBase nbase digits) (weight : Int) :
    cmpLeft digits [] = order (magnitude nbase digits weight) 0 := by
  grind [magnitude_zero_or_pos, order_of_gt, cmpLeft, order_self]

theorem cmpLeft_nil_left (inBase : InBase nbase digits) (weight : Int) :
    cmpLeft [] digits = order 0 (magnitude nbase digits weight) := by
  grind [magnitude_zero_or_pos, order_of_lt, cmpLeft, order_self]

theorem cmpCommon_eq (inBase1 : InBase nbase digits1) (inBase2 : InBase nbase digits2) (weight : Int) :
    cmpCommon digits1 digits2 = order (magnitude nbase digits1 weight) (magnitude nbase digits2 weight) := by
  induction digits1 generalizing digits2 weight with
  | nil =>
    rw [magnitude_nil]
    cases digits2 <;> exact cmpLeft_nil_left inBase2 weight
  | cons digit1 rest1 ih =>
    cases digits2 with
    | nil =>
      rw [magnitude_nil]
      exact cmpLeft_nil_right inBase1 weight
    | cons digit2 rest2 =>
      obtain ⟨-, others1⟩ := inBase_cons inBase1
      obtain ⟨-, others2⟩ := inBase_cons inBase2
      have tail1 := magnitude_range nbase_pos others1 (weight - 1)
      have tail2 := magnitude_range nbase_pos others2 (weight - 1)
      rw [sub_add_cancel] at tail1 tail2
      rw [magnitude_cons nbase_pos, magnitude_cons nbase_pos]
      rcases lt_trichotomy digit1 digit2 with less | rfl | greater
      · have step : (digit1 : Rat) + 1 ≤ digit2 := by exact_mod_cast less
        rw [cmpCommon, if_pos (by omega), if_neg (by omega), order_of_lt (by nlinarith)]
      · grind [cmpCommon, order]
      · have step : (digit2 : Rat) + 1 ≤ digit1 := by exact_mod_cast greater
        rw [cmpCommon, if_pos (by omega), if_pos (by omega), order_of_gt (by nlinarith)]

theorem cmpAbs_eq (var1 var2 : NumericVar) :
    cmpAbs var1 var2 = order (magnitude nbase var1.digits var1.weight) (magnitude nbase var2.digits var2.weight) := by
  rw [cmpAbs, cmpAbsCommon]
  split
  · next found =>
    have small := (magnitude_range nbase_pos var2.inBase var2.weight).2
    rw [order_of_gt (small.trans_le (skipBefore_none var1.inBase found))]
  · next digits1 weight1 found1 =>
    obtain ⟨same1, inBase1, low1⟩ := skipBefore_some var1.inBase found1
    rw [same1]
    split
    · next found2 =>
      have small := (magnitude_range nbase_pos inBase1 weight1).2
      rw [order_of_lt (small.trans_le (skipBefore_none var2.inBase found2))]
    · next digits2 weight2 found2 =>
      obtain ⟨same2, inBase2, low2⟩ := skipBefore_some var2.inBase found2
      rw [same2]
      split
      · grind [cmpCommon_eq]
      · next ne =>
        -- one side ended before the other began
        have stops := skipBefore_stops found2
        grind [magnitude_nil, cmpLeft_nil_right, cmpLeft_nil_left]

theorem cmpVar_eq (var1 var2 : NumericVar) (zero1 : var1.value = 0 → var1.digits = [])
    (zero2 : var2.value = 0 → var2.digits = []) : cmpVar var1 var2 = order var1.value var2.value := by
  have range1 := magnitude_range nbase_pos var1.inBase var1.weight
  have range2 := magnitude_range nbase_pos var2.inBase var2.weight
  have signs : ∀ var : NumericVar, var.digits = [] → var.value = 0 := by
    intro var none
    cases sign : var.sign <;> simp [NumericVar.value, sign, none]
  unfold cmpVar
  by_cases none1 : var1.digits = []
  · grind [order_self, NumericVar.value, order_of_lt, order_of_gt]
  · rw [if_neg none1]
    by_cases none2 : var2.digits = []
    · grind [NumericVar.value, order_of_gt, order_of_lt]
    · grind [NumericVar.value, cmpAbs_eq, order_of_gt, order_of_lt, order_neg]

section Arithmetic

/-- `strip_var`: zeros in front. -/
def stripLeading : List Int → Int → List Int × Int
  | [], weight => ([], weight)
  | digit :: rest, weight => if digit = 0 then stripLeading rest (weight - 1) else (digit :: rest, weight)

/-- `strip_var`: zeros at the end. -/
def stripTrailing (digits : List Int) : List Int := (digits.reverse.dropWhile (· = 0)).reverse

theorem stripLeading_spec (inBase : InBase nbase digits) (weight : Int) :
    InBase nbase (stripLeading digits weight).1 ∧
      magnitude nbase (stripLeading digits weight).1 (stripLeading digits weight).2 =
      magnitude nbase digits weight := by
  induction digits generalizing weight with
  | nil => exact ⟨inBase, rfl⟩
  | cons digit rest ih =>
    rw [stripLeading]
    split
    · next zero =>
      obtain ⟨range, same⟩ := ih (inBase_cons inBase).2 (weight - 1)
      refine ⟨range, ?_⟩
      rw [same, magnitude_cons nbase_pos, zero]
      simp
    · exact ⟨inBase, rfl⟩

theorem stripTrailing_spec (inBase : InBase nbase digits) (weight : Int) : InBase nbase (stripTrailing digits) ∧
      magnitude nbase (stripTrailing digits) weight = magnitude nbase digits weight := by
  induction digits using List.reverseRecOn with
  | nil => exact ⟨inBase, rfl⟩
  | append_singleton digits digit ih =>
    by_cases zero : digit = 0
    · have shorter : stripTrailing (digits ++ [digit]) = stripTrailing digits := by simp [stripTrailing, zero]
      obtain ⟨range, same⟩ := ih fun other mem => inBase other (List.mem_append_left _ mem)
      rw [shorter, zero, magnitude_concat_zero nbase_pos]
      exact ⟨range, same⟩
    · have kept : stripTrailing (digits ++ [digit]) = digits ++ [digit] := by simp [stripTrailing, zero]
      rw [kept]
      exact ⟨inBase, rfl⟩

def stripVar (var : NumericVar) : NumericVar :=
  let leading := stripLeading var.digits var.weight
  have inBase := (stripTrailing_spec (stripLeading_spec var.inBase var.weight).1 leading.2).1
  if stripTrailing leading.1 = [] then { var with digits := stripTrailing leading.1, weight := 0, sign := .pos, inBase }
  else { var with digits := stripTrailing leading.1, weight := leading.2, inBase }

theorem stripVar_magnitude (var : NumericVar) :
    magnitude nbase (stripVar var).digits (stripVar var).weight = magnitude nbase var.digits var.weight := by
  have leading := (stripLeading_spec var.inBase var.weight)
  have trailing := (stripTrailing_spec leading.1 (stripLeading var.digits var.weight).2).2
  grind [stripVar, magnitude_nil]

/-- `ndigits - weight - 1`, in digits of the base -/
def NumericVar.rscale (var : NumericVar) : Int := var.digits.length - var.weight - 1

/-- The digits of both variables that stand in each of the columns of the result, from the right. -/
def columns (combine : Int → Int → Int) (var1 var2 : NumericVar) (resRscale : Int) (resNdigits : Nat) : List Int :=
  (List.range resNdigits).map fun k : Nat =>
    combine (digitAt var1.digits (resRscale + var1.weight + 1 - 1 - k))
      (digitAt var2.digits (resRscale + var2.weight + 1 - 1 - k))

/-- `res_ndigits` -/
def resultLength (resRscale resWeight : Int) : Nat :=
  if resRscale + resWeight + 1 ≤ 0 then 1 else (resRscale + resWeight + 1).toNat

/-- The carry of `add_abs` -/
def carryOf (total : Int) : Int × Int := if total ≥ nbase then (total - nbase, 1) else (total, 0)

/-- The borrow of `sub_abs` -/
def borrowOf (total : Int) : Int × Int := if total < 0 then (total + nbase, -1) else (total, 0)

theorem digitAt_range (inBase : InBase nbase digits) (index : Int) :
    0 ≤ digitAt digits index ∧ digitAt digits index < nbase := by
  unfold digitAt
  split
  · next inside =>
    have below : index.toNat < digits.length := by omega
    rw [List.getD_eq_getElem?_getD, List.getElem?_eq_getElem below]
    exact inBase _ (List.getElem_mem below)
  · decide

theorem carryOf_exact (total : Int) : (carryOf total).1 + nbase * (carryOf total).2 = total := by
  unfold carryOf
  split <;> simp

theorem borrowOf_exact (total : Int) : (borrowOf total).1 + nbase * (borrowOf total).2 = total := by
  unfold borrowOf
  split <;> simp

theorem carryOf_step (carry column : Int) (small : carry = 0 ∨ carry = 1)
    (range : 0 ≤ column ∧ column ≤ 2 * (nbase - 1)) :
    (0 ≤ (carryOf (carry + column)).1 ∧ (carryOf (carry + column)).1 < nbase) ∧
      ((carryOf (carry + column)).2 = 0 ∨ (carryOf (carry + column)).2 = 1) := by
  unfold carryOf nbase at *
  grind

theorem borrowOf_step (borrow column : Int) (small : borrow = 0 ∨ borrow = -1)
    (range : -(nbase - 1) ≤ column ∧ column ≤ nbase - 1) :
    (0 ≤ (borrowOf (borrow + column)).1 ∧ (borrowOf (borrow + column)).1 < nbase) ∧
      ((borrowOf (borrow + column)).2 = 0 ∨ (borrowOf (borrow + column)).2 = -1) := by
  unfold borrowOf nbase at *
  grind

theorem carryLoop_carryOf (var1 var2 : NumericVar) (resRscale : Int) (resNdigits : Nat) :
    InBase nbase (carryLoop carryOf (columns (· + ·) var1 var2 resRscale resNdigits) 0).1 ∧
      0 ≤ (carryLoop carryOf (columns (· + ·) var1 var2 resRscale resNdigits) 0).2 := by
  have each : ∀ column ∈ columns (· + ·) var1 var2 resRscale resNdigits, 0 ≤ column ∧ column ≤ 2 * (nbase - 1) := by
    intro column mem
    obtain ⟨k, -, rfl⟩ := List.mem_map.mp mem
    have first := digitAt_range var1.inBase (resRscale + var1.weight + 1 - 1 - k)
    have second := digitAt_range var2.inBase (resRscale + var2.weight + 1 - 1 - k)
    dsimp only
    omega
  have loop := carryLoop_inBase _ _ carryOf_step each (Or.inl rfl)
  exact ⟨loop.1, by omega⟩

theorem carryLoop_borrowOf (var1 var2 : NumericVar) (resRscale : Int) (resNdigits : Nat) :
    InBase nbase (carryLoop borrowOf (columns (· - ·) var1 var2 resRscale resNdigits) 0).1 ∧
      ((carryLoop borrowOf (columns (· - ·) var1 var2 resRscale resNdigits) 0).2 = 0 ∨
        (carryLoop borrowOf (columns (· - ·) var1 var2 resRscale resNdigits) 0).2 = -1) := by
  have each : ∀ column ∈ columns (· - ·) var1 var2 resRscale resNdigits,
      -(nbase - 1) ≤ column ∧ column ≤ nbase - 1 := by
    intro column mem
    obtain ⟨k, -, rfl⟩ := List.mem_map.mp mem
    have first := digitAt_range var1.inBase (resRscale + var1.weight + 1 - 1 - k)
    have second := digitAt_range var2.inBase (resRscale + var2.weight + 1 - 1 - k)
    dsimp only
    omega
  exact carryLoop_inBase _ _ borrowOf_step each (Or.inl rfl)

section

variable (var : NumericVar) (enough : var.rscale ≤ resRscale)
include var enough

theorem magnitude_aligned : magnitude nbase var.digits var.weight =
      (horner nbase var.digits * nbase ^ (resRscale - var.rscale).toNat : Int) * (nbase : Rat) ^ (-resRscale) := by
  have nonzero : (nbase : Rat) ≠ 0 := by norm_num [nbase]
  have power : (nbase : Rat) ^ (var.weight + 1 - var.digits.length) =
      (nbase : Rat) ^ (resRscale - var.rscale).toNat * (nbase : Rat) ^ (-resRscale) := by
    rw [← zpow_natCast, ← zpow_add₀ nonzero]
    congr 1
    simp only [NumericVar.rscale] at *
    omega
  rw [magnitude, power]
  push_cast
  ring

theorem columnSum_var (count : Nat) :
    columnSum nbase ((List.range count).map fun k : Nat => digitAt var.digits (resRscale + var.weight + 1 - 1 - k)) =
      horner nbase var.digits * nbase ^ (resRscale - var.rscale).toNat % nbase ^ count := by
  grind [NumericVar.rscale, columnSum_shifted, nbase_pos, NumericVar.inBase]

theorem horner_lt (wide : resRscale + var.weight + 1 ≤ count) :
    0 ≤ horner nbase var.digits * nbase ^ (resRscale - var.rscale).toNat ∧
      horner nbase var.digits * nbase ^ (resRscale - var.rscale).toNat < nbase ^ count.toNat := by
  obtain ⟨low, high⟩ := horner_range var.inBase nbase_pos
  have power : (0 : Int) < nbase ^ (resRscale - var.rscale).toNat := pow_pos nbase_pos _
  refine ⟨by positivity, ?_⟩
  calc horner nbase var.digits * nbase ^ (resRscale - var.rscale).toNat
      < nbase ^ var.digits.length * nbase ^ (resRscale - var.rscale).toNat := Int.mul_lt_mul_of_pos_right high power
    _ = nbase ^ (var.digits.length + (resRscale - var.rscale).toNat) := (pow_add ..).symm
    _ ≤ nbase ^ count.toNat := by
      refine pow_le_pow_right₀ (by decide) ?_
      simp only [NumericVar.rscale] at *
      omega

end

theorem magnitude_of_horner {digits : List Int} (resRscale : Int)
    (length : (digits.length : Int) = resRscale + weight + 1) :
    magnitude nbase digits weight = (horner nbase digits : Rat) * (nbase : Rat) ^ (-resRscale) := by
  rw [magnitude]
  congr 2
  omega

def addDigits (var1 var2 : NumericVar) : List Int :=
  let resRscale := max var1.rscale var2.rscale
  let resWeight := max var1.weight var2.weight + 1
  (carryLoop carryOf (columns (· + ·) var1 var2 resRscale (resultLength resRscale resWeight)) 0).1

def subDigits (var1 var2 : NumericVar) : List Int :=
  let resRscale := max var1.rscale var2.rscale
  (carryLoop borrowOf (columns (· - ·) var1 var2 resRscale (resultLength resRscale var1.weight)) 0).1

theorem addDigits_magnitude (var1 var2 : NumericVar) :
    magnitude nbase (addDigits var1 var2) (max var1.weight var2.weight + 1) =
      magnitude nbase var1.digits var1.weight + magnitude nbase var2.digits var2.weight := by
  have enough1 := le_max_left var1.rscale var2.rscale
  have enough2 := le_max_right var1.rscale var2.rscale
  unfold addDigits
  dsimp only
  have wide : 0 ≤ max var1.rscale var2.rscale + max var1.weight var2.weight + 1 := by
    simp only [NumericVar.rscale] at *
    omega
  rw [magnitude_aligned var1 enough1, magnitude_aligned var2 enough2]
  generalize max var1.rscale var2.rscale = resRscale at *
  obtain ⟨count, length⟩ := Int.eq_ofNat_of_zero_le wide
  have size : resultLength resRscale (max var1.weight var2.weight + 1) = count + 1 := by
    rw [resultLength, if_neg (by omega)]
    omega
  have small1 := horner_lt var1 enough1 (show _ ≤ (count : Int) by omega)
  have small2 := horner_lt var2 enough2 (show _ ≤ (count : Int) by omega)
  rw [Int.toNat_natCast] at small1 small2
  have power : (nbase : Int) ^ (count + 1) = nbase ^ count * 10000 := pow_succ ..
  have total : columnSum nbase (columns (· + ·) var1 var2 resRscale (count + 1)) = _ :=
    (columnSum_add ..).trans (congrArg₂ (· + ·) (columnSum_var var1 enough1 _) (columnSum_var var2 enough2 _))
  rw [Int.emod_eq_of_lt small1.1 (by omega), Int.emod_eq_of_lt small2.1 (by omega)] at total
  obtain ⟨sum, loopLength⟩ := carryLoop_sum carryOf_exact (columns (· + ·) var1 var2 resRscale (count + 1)) 0
  obtain ⟨range, carries⟩ := carryLoop_carryOf var1 var2 resRscale (count + 1)
  have digits := horner_range range nbase_pos
  have columnsLength : (columns (· + ·) var1 var2 resRscale (count + 1)).length = count + 1 := by simp [columns]
  rw [total, columnsLength] at sum
  have noCarry : (carryLoop carryOf (columns (· + ·) var1 var2 resRscale (count + 1)) 0).2 = 0 := by
    generalize (carryLoop carryOf (columns (· + ·) var1 var2 resRscale (count + 1)) 0).2 = carry at *
    by_contra out
    have := Int.mul_le_mul_of_nonneg_right (show 1 ≤ carry by omega) (show (0 : Int) ≤ nbase ^ (count + 1) by omega)
    omega
  rw [noCarry, Int.zero_mul, Int.add_zero, Int.add_zero] at sum
  rw [size, magnitude_of_horner resRscale (by omega), sum]
  push_cast
  ring

theorem subDigits_magnitude (var1 var2 : NumericVar) (some : var1.digits ≠ [])
    (larger : magnitude nbase var2.digits var2.weight ≤ magnitude nbase var1.digits var1.weight) :
    magnitude nbase (subDigits var1 var2) var1.weight =
      magnitude nbase var1.digits var1.weight - magnitude nbase var2.digits var2.weight := by
  have enough1 := le_max_left var1.rscale var2.rscale
  have enough2 := le_max_right var1.rscale var2.rscale
  unfold subDigits
  dsimp only
  have pos := List.length_pos_iff.mpr some
  have wide : 0 ≤ max var1.rscale var2.rscale + var1.weight + 1 := by
    simp only [NumericVar.rscale] at *
    omega
  have nonempty : 0 < max var1.rscale var2.rscale + var1.weight + 1 := by
    simp only [NumericVar.rscale] at *
    omega
  rw [magnitude_aligned var1 enough1, magnitude_aligned var2 enough2] at larger ⊢
  generalize max var1.rscale var2.rscale = resRscale at *
  obtain ⟨count, length⟩ := Int.eq_ofNat_of_zero_le wide
  have size : resultLength resRscale var1.weight = count := by
    rw [resultLength, if_neg (by omega)]
    omega
  have small1 := horner_lt var1 enough1 (show _ ≤ (count : Int) by omega)
  rw [Int.toNat_natCast] at small1
  have less : horner nbase var2.digits * nbase ^ (resRscale - var2.rscale).toNat ≤
      horner nbase var1.digits * nbase ^ (resRscale - var1.rscale).toNat := by
    exact_mod_cast le_of_mul_le_mul_right larger (power_pos (-resRscale))
  have small2 : 0 ≤ horner nbase var2.digits * nbase ^ (resRscale - var2.rscale).toNat :=
    (horner_lt var2 enough2 le_rfl).1
  have total : columnSum nbase (columns (· - ·) var1 var2 resRscale count) = _ :=
    (columnSum_add nbase count _ _).trans (congrArg₂ (· + ·) (columnSum_var var1 enough1 _)
      ((columnSum_neg ..).trans (congrArg Neg.neg (columnSum_var var2 enough2 _))))
  rw [Int.emod_eq_of_lt small1.1 (by omega), Int.emod_eq_of_lt small2 (by omega)] at total
  obtain ⟨sum, loopLength⟩ := carryLoop_sum borrowOf_exact (columns (· - ·) var1 var2 resRscale count) 0
  obtain ⟨range, borrows⟩ := carryLoop_borrowOf var1 var2 resRscale count
  have digits := horner_range range nbase_pos
  have columnsLength : (columns (· - ·) var1 var2 resRscale count).length = count := by simp [columns]
  rw [loopLength, columnsLength] at digits
  rw [total, columnsLength] at sum
  have noBorrow : (carryLoop borrowOf (columns (· - ·) var1 var2 resRscale count) 0).2 = 0 := by
    grind
  rw [noBorrow, Int.zero_mul, Int.add_zero, Int.add_zero] at sum
  rw [size, magnitude_of_horner resRscale (by omega), sum]
  push_cast
  ring

variable {α : Type} [DecidableEq α]

/-- Variables in memory; the result of an operation can be one of its operands. -/
abbrev Memory (α : Type) := α → NumericVar

def addAbs (memory : Memory α) (var1 var2 result : α) : Memory α :=
  update memory result (stripVar
    { digits := addDigits (memory var1) (memory var2)
      weight := max (memory var1).weight (memory var2).weight + 1
      sign := (memory result).sign
      dscale := max (memory var1).dscale (memory var2).dscale
      inBase := (carryLoop_carryOf ..).1 })

def subAbs (memory : Memory α) (var1 var2 result : α) : Memory α :=
  update memory result (stripVar
    { digits := subDigits (memory var1) (memory var2)
      weight := (memory var1).weight
      sign := (memory result).sign
      dscale := max (memory var1).dscale (memory var2).dscale
      inBase := (carryLoop_borrowOf ..).1 })

/-- `result->sign = sign` -/
def setSign (memory : Memory α) (result : α) (sign : Sign) : Memory α :=
  update memory result { memory result with sign }

def zeroVar (memory : Memory α) (result : α) : Memory α :=
  update memory result { memory result with digits := [], weight := 0, sign := .pos, inBase := inBase_nil }

/-- The `switch` over the comparison of the absolute values, with the sign of the result in its two cases. -/
def subtractSmaller (memory : Memory α) (var1 var2 result : α) (larger smaller : Sign) : Memory α :=
  if cmpAbs (memory var1) (memory var2) = 0 then
    let memory := zeroVar memory result
    update memory result { memory result with dscale := max (memory var1).dscale (memory var2).dscale }
  else if cmpAbs (memory var1) (memory var2) = 1 then setSign (subAbs memory var1 var2 result) result larger
  else setSign (subAbs memory var2 var1 result) result smaller

def addVar (memory : Memory α) (var1 var2 result : α) : Memory α :=
  match (memory var1).sign, (memory var2).sign with
  | .pos, .pos => setSign (addAbs memory var1 var2 result) result .pos
  | .pos, .neg => subtractSmaller memory var1 var2 result .pos .neg
  | .neg, .pos => subtractSmaller memory var1 var2 result .neg .pos
  | .neg, .neg => setSign (addAbs memory var1 var2 result) result .neg

def subVar (memory : Memory α) (var1 var2 result : α) : Memory α :=
  match (memory var1).sign, (memory var2).sign with
  | .pos, .neg => setSign (addAbs memory var1 var2 result) result .pos
  | .pos, .pos => subtractSmaller memory var1 var2 result .pos .neg
  | .neg, .neg => subtractSmaller memory var1 var2 result .neg .pos
  | .neg, .pos => setSign (addAbs memory var1 var2 result) result .neg

def signed (sign : Sign) (number : Rat) : Rat :=
  match sign with
  | .pos => number
  | .neg => -number

theorem value_eq (var : NumericVar) : var.value = signed var.sign (magnitude nbase var.digits var.weight) := rfl

theorem setSign_value (memory : Memory α) (result : α) (sign : Sign) : (setSign memory result sign result).value =
      signed sign (magnitude nbase (memory result).digits (memory result).weight) := by
  simp [setSign, value_eq]

theorem addAbs_magnitude (memory : Memory α) (var1 var2 result : α) :
    magnitude nbase (addAbs memory var1 var2 result result).digits (addAbs memory var1 var2 result result).weight =
      magnitude nbase (memory var1).digits (memory var1).weight + magnitude nbase (memory var2).digits
      (memory var2).weight := by
  rw [addAbs, update_self, stripVar_magnitude]
  exact addDigits_magnitude ..

theorem subAbs_magnitude (memory : Memory α) (var1 var2 result : α)
    (larger : magnitude nbase (memory var2).digits (memory var2).weight <
      magnitude nbase (memory var1).digits (memory var1).weight) :
    magnitude nbase (subAbs memory var1 var2 result result).digits (subAbs memory var1 var2 result result).weight =
      magnitude nbase (memory var1).digits (memory var1).weight - magnitude nbase (memory var2).digits
      (memory var2).weight := by
  have some : (memory var1).digits ≠ [] := by
    intro none
    have low := (magnitude_range nbase_pos (memory var2).inBase (memory var2).weight).1
    rw [none, magnitude_nil] at larger
    exact larger.not_ge low
  rw [subAbs, update_self, stripVar_magnitude]
  exact subDigits_magnitude _ _ some larger.le

theorem subtractSmaller_value (memory : Memory α) (var1 var2 result : α) {larger smaller : Sign}
    (opposite : ∀ number, signed smaller number = -signed larger number) :
    (subtractSmaller memory var1 var2 result larger smaller result).value =
      signed larger (magnitude nbase (memory var1).digits (memory var1).weight -
        magnitude nbase (memory var2).digits (memory var2).weight) := by
  unfold subtractSmaller
  rw [cmpAbs_eq]
  rcases lt_trichotomy (magnitude nbase (memory var1).digits (memory var1).weight)
    (magnitude nbase (memory var2).digits (memory var2).weight) with less | same | greater
  · rw [order_of_lt less, if_neg (by decide), if_neg (by decide), setSign_value, subAbs_magnitude _ _ _ _ less,
      opposite]
    cases larger <;> simp [signed]
  · rw [same, order_self, if_pos rfl]
    cases larger <;> simp [value_eq, zeroVar, signed]
  · grind [order_of_gt, setSign_value, subAbs_magnitude]

theorem subtractSmaller_else (memory : Memory α) (var1 var2 result : α) (larger smaller : Sign) (other : α)
    (ne : other ≠ result) : subtractSmaller memory var1 var2 result larger smaller other = memory other := by
  unfold subtractSmaller
  split
  · simp [zeroVar, ne]
  · split <;> simp [setSign, subAbs, ne]

/-- `add_var` and `sub_var` leave the exact sum and difference in the result, whichever variable that is, and
change no other variable; `cmp_var` gives the sign of the difference of numbers that have no digits if they
are zero. -/
theorem numeric_exact (memory : Memory α) (var1 var2 result : α) :
    (addVar memory var1 var2 result result).value = (memory var1).value + (memory var2).value ∧
    (subVar memory var1 var2 result result).value = (memory var1).value - (memory var2).value ∧
    (∀ other ≠ result, addVar memory var1 var2 result other = memory other ∧
      subVar memory var1 var2 result other = memory other) ∧
    (((memory var1).value = 0 → (memory var1).digits = []) → ((memory var2).value = 0 → (memory var2).digits = []) →
      cmpVar (memory var1) (memory var2) = order (memory var1).value (memory var2).value) := by
  refine ⟨?_, ?_, fun other ne => ?_, cmpVar_eq _ _⟩
  · rw [value_eq (memory var1), value_eq (memory var2)]
    unfold addVar
    cases (memory var1).sign <;> cases (memory var2).sign <;> dsimp only
    · rw [setSign_value, addAbs_magnitude]
      rfl
    · grind [subtractSmaller_value, signed]
    · grind [subtractSmaller_value, signed]
    · rw [setSign_value, addAbs_magnitude]
      simp only [signed]
      ring
  · rw [value_eq (memory var1), value_eq (memory var2)]
    unfold subVar
    cases (memory var1).sign <;> cases (memory var2).sign <;> dsimp only
    · rw [subtractSmaller_value _ _ _ _ fun number => rfl]
      simp only [signed]
    · rw [setSign_value, addAbs_magnitude]
      simp only [signed]
      ring
    · rw [setSign_value, addAbs_magnitude]
      simp only [signed]
      ring
    · grind [subtractSmaller_value, signed]
  · unfold addVar subVar
    cases (memory var1).sign <;> cases (memory var2).sign <;>
      simp [setSign, addAbs, ne, subtractSmaller_else]

/-- `-3` doubled in place, beside a zero without digits. -/
theorem numeric_exact_aliased : let three : NumericVar := ⟨[3], 0, .neg, 0, inBase_three⟩
    let zero : NumericVar := ⟨[], 0, .pos, 0, inBase_nil⟩
    let memory : Memory Bool := fun place => cond place three zero
    (addVar memory true true true true).value = -6 ∧ addVar memory true true true false = zero ∧
      cmpVar three zero = order three.value zero.value := by
  intro three zero memory
  have value : three.value = -3 := by simp [three, NumericVar.value, magnitude, horner]
  obtain ⟨sum, -, others, -⟩ := numeric_exact memory true true true
  obtain ⟨-, -, -, compared⟩ := numeric_exact memory true false false
  grind

/-- A zero that still has a digit is taken for more than a zero without digits. -/
theorem cmpVar_zeros : let zero : NumericVar := ⟨[], 0, .pos, 0, inBase_nil⟩
    let digit : NumericVar := ⟨[0], 0, .pos, 0, inBase_zero⟩
    digit.value = zero.value ∧ cmpVar zero digit = -1 := by
  refine ⟨?_, rfl⟩
  simp [NumericVar.value, magnitude, horner]

end Arithmetic

end BlockchainPG.Utils.Numeric
