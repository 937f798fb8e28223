import Mathlib

/-! Julian days and calendar dates, the conversions of `datetime.c` in 32-bit arithmetic. -/

namespace BlockchainPG.Utils.DateTime

/-- A result of type `int`; `none` is an overflow. -/
def int (value : Int) : Option Int := if -2 ^ 31 ≤ value ∧ value < 2 ^ 31 then some value else none

/-- A result of type `unsigned int` that has not wrapped around. -/
def unsigned (value : Int) : Option Int := if 0 ≤ value ∧ value < 2 ^ 32 then some value else none

def date2j (y m d : Int) : Option Int := do
  let y ← int (if m > 2 then y + 4800 else y + 4799)
  let m ← int (if m > 2 then m + 1 else m + 13)
  let century := y.tdiv 100
  let julian ← int ((← int (y * 365)) - 32167)
  let julian ← int (julian + (← int ((← int (y.tdiv 4 - century)) + century.tdiv 4)))
  int (julian + (← int ((← int (7834 * m)).tdiv 256 + d)))

/-- The expression of `j2date` that moves the beginning of the year to March 1. -/
def marchDay (y julian : Int) : Option Int :=
  if y ≠ 0 then (· % 365) <$> unsigned (julian + 305) else (· % 366) <$> unsigned (julian + 306)

/-- `j2date`: year, month and day. -/
def j2date (jd : Int) : Option (Int × Int × Int) := do
  let julian ← unsigned ((← unsigned jd) + 32044)
  let quad := julian / 146097
  let extra ← unsigned ((← unsigned ((← unsigned (julian - (← unsigned (quad * 146097)))) * 4)) + 3)
  let julian ← unsigned (julian + (← unsigned ((← unsigned (60 + (← unsigned (quad * 3)))) + extra / 146097)))
  let quad := julian / 1461
  let julian ← unsigned (julian - (← unsigned (quad * 1461)))
  let y ← int ((← unsigned (julian * 4)) / 1461)
  let julian ← unsigned ((← marchDay y julian) + 123)
  let y ← int (← unsigned (y + (← unsigned (quad * 4))))
  let quad := (← unsigned (julian * 2141)) / 65536
  return (← int (y - 4800), ← int (← unsigned ((quad + 10) % 12 + 1)),
    ← int (← unsigned (julian - (← unsigned (7834 * quad)) / 256)))

def j2day (date : Int) : Option Int := do int ((← unsigned ((← unsigned date) + 1)) % 7)

def IsLeap (y : Int) : Prop := y % 4 = 0 ∧ (y % 100 ≠ 0 ∨ y % 400 = 0)

instance : DecidablePred IsLeap := fun _ => inferInstanceAs (Decidable (_ ∧ _))

def daysInMonth (y m : Int) : Int :=
  if m = 2 then (if IsLeap y then 29 else 28) else if m = 4 ∨ m = 6 ∨ m = 9 ∨ m = 11 then 30 else 31

def ValidDate (y m d : Int) : Prop := 1 ≤ m ∧ m ≤ 12 ∧ 1 ≤ d ∧ d ≤ daysInMonth y m

/-- Dates in their order. -/
def rank (y m d : Int) : Int := (y * 12 + m) * 32 + d

/-- From November 24, 4714 BC, to June 3, 5874898. -/
def Covered (y m d : Int) : Prop := rank (-4713) 11 24 ≤ rank y m d ∧ rank y m d ≤ rank 5874898 6 3

def nextDay (y m d : Int) : Int × Int × Int :=
  if d < daysInMonth y m then (y, m, d + 1) else if m < 12 then (y, m + 1, 1) else (y + 1, 1, 1)

/-- The days from March 1 of the year -4800 to the one that many years later. -/
def yearStart (years : Int) : Int := years * 365 + years / 4 - years / 100 + years / 400

/-- A date by the years that begin in March and its day in them, as `j2date` finds it. -/
def fromMarch (years day : Int) : Int × Int × Int :=
  let months := (day + 123) * 2141 / 65536
  (if months ≤ 13 then years - 4800 else years - 4799, (months + 10) % 12 + 1, day + 123 - 7834 * months / 256)

def InYear (years day : Int) : Prop := 0 ≤ day ∧ (day ≤ 364 ∨ day = 365 ∧ IsLeap (years + 1))

theorem int_bind (fits : -2 ^ 31 ≤ value ∧ value < 2 ^ 31) (f : Int → Option α) : (int value >>= f) = f value := by
  rw [int, if_pos fits, Option.bind_eq_bind, Option.bind_some]

theorem unsigned_bind (fits : 0 ≤ value ∧ value < 2 ^ 32) (f : Int → Option α) : (unsigned value >>= f) = f value := by
  rw [unsigned, if_pos fits, Option.bind_eq_bind, Option.bind_some]

theorem marchDay_eq (low : 0 ≤ julian) (high : julian < 2 ^ 31) :
    marchDay y julian = some (if y ≠ 0 then (julian + 305) % 365 else (julian + 306) % 366) := by
  unfold marchDay unsigned
  split_ifs <;> first | rfl | omega

theorem yearStart_succ (years : Int) :
    yearStart (years + 1) = yearStart years + 365 + if IsLeap (years + 1) then 1 else 0 := by
  unfold yearStart IsLeap
  split_ifs <;> omega

theorem yearStart_mono : Monotone yearStart := monotone_int_of_le_succ fun years => by
  rw [yearStart_succ]
  split_ifs <;> omega

theorem InYear.before (inYear : InYear years day) (later : years < years') :
    yearStart years + day < yearStart years' := by
  have next := yearStart_succ years
  have least := yearStart_mono (Int.add_one_le_of_lt later)
  rcases inYear.2 with short | ⟨last, leap⟩
  · split_ifs at next <;> omega
  · rw [if_pos leap] at next
    omega

theorem yearStart_unique (first : InYear years day) (second : InYear years' day')
    (same : yearStart years + day = yearStart years' + day') : years = years' ∧ day = day' := by
  rcases lt_trichotomy years years' with before | rfl | after
  · have := first.before before
    have := second.1
    omega
  · exact ⟨rfl, by omega⟩
  · have := second.before after
    have := first.1
    omega

theorem j2date_eq (low : 0 ≤ jd) (high : jd < 2 ^ 31) : ∃ years day, InYear years day ∧
    yearStart years + day = jd + 32044 ∧ j2date jd = some (fromMarch years day) := by
  generalize quad : (jd + 32044) / 146097 = q
  generalize rest : jd + 32044 - q * 146097 = r
  generalize century : (r * 4 + 3) / 146097 = c
  generalize julian : jd + 32044 + (60 + q * 3 + c) = n
  generalize quad' : n / 1461 = q'
  generalize rest' : n - q' * 1461 = j
  generalize year : j * 4 / 1461 = y
  generalize place : (if y ≠ 0 then (j + 305) % 365 else (j + 306) % 366) = e
  have bounds : 0 ≤ q ∧ q < 2 ^ 16 ∧ 0 ≤ r ∧ r < 146097 ∧ 0 ≤ c ∧ c ≤ 3 := by omega
  have bounds' : 0 ≤ q' ∧ q' < 2 ^ 22 ∧ 0 ≤ j ∧ j < 1461 ∧ 0 ≤ y ∧ y ≤ 3 := by omega
  have inside : 0 ≤ e ∧ e ≤ 365 := by split_ifs at place <;> omega
  generalize months : (e + 123) * 2141 / 65536 = m
  generalize begun : (if m ≤ 13 then y + q' * 4 else y + q' * 4 - 1) = years
  -- the days since March 1 of the year -4800 if every fourth year were a leap year
  have split : 365 * years + years / 4 + e = n - 60 ∧ (e = 365 → (years + 1) % 4 = 0) := by
    have march : m ≤ 13 ↔ e ≤ 305 := by omega
    simp only [march] at begun
    obtain rfl | rfl | rfl | rfl : y = 0 ∨ y = 1 ∨ y = 2 ∨ y = 3 := by omega
    · rw [if_neg (by simp)] at place
      split_ifs at begun <;> omega
    all_goals
      rw [if_pos (by simp)] at place
      split_ifs at begun <;> omega
  have hundreds : years / 100 = 4 * q + c := by
    clear begun place year months quad' rest' bounds'
    omega
  have skipped : years / 400 = q := by omega
  refine ⟨years, e, ⟨inside.1, ?_⟩, by unfold yearStart; omega, ?_⟩
  · rcases Int.lt_or_eq_of_le inside.2 with short | last
    · exact Or.inl (by omega)
    · refine Or.inr ⟨last, split.2 last, ?_⟩
      omega
  · have day : 4 ≤ m ∧ m ≤ 15 ∧ 7834 * m / 256 ≤ e + 123 := by omega
    rw [fromMarch, months, ← begun, j2date]
    rw [unsigned_bind (by omega), unsigned_bind (by omega)]
    dsimp only
    rw [quad, unsigned_bind (by omega), rest, unsigned_bind (by omega),
      unsigned_bind (by omega), unsigned_bind (by omega), century,
      unsigned_bind (by omega), unsigned_bind (by omega), unsigned_bind (by omega),
      julian, unsigned_bind (by omega), quad', unsigned_bind (by omega), rest',
      unsigned_bind (by omega), unsigned_bind (by omega), year, int_bind (by omega),
      marchDay_eq (by omega) (by omega), place, Option.bind_eq_bind, Option.bind_some,
      ← Option.bind_eq_bind, unsigned_bind (by omega), unsigned_bind (by omega),
      unsigned_bind (by omega), int_bind (by omega), unsigned_bind (by omega), months,
      int_bind (by omega), unsigned_bind (by omega), int_bind (by omega),
      unsigned_bind (by omega), unsigned_bind (by omega), int_bind (by omega)]
    have same : (if m ≤ 13 then (if m ≤ 13 then y + q' * 4 else y + q' * 4 - 1) - 4800
        else (if m ≤ 13 then y + q' * 4 else y + q' * 4 - 1) - 4799) = y + q' * 4 - 4800 := by split_ifs <;> omega
    rw [same]
    rfl

/-- The number that `date2j` computes. -/
def dayNumber (years months d : Int) : Int := yearStart years + (7834 * months / 256 + d - 123) - 32044

/-- The month counted from March on, as `date2j` uses it, and the years with it. -/
structure Shifted (y m years months : Int) : Prop where
  range : 4 ≤ months ∧ months ≤ 15
  month : m = if months ≤ 13 then months - 1 else months - 13
  year : y = if months ≤ 13 then years - 4800 else years - 4799

theorem ValidDate.shifted (valid : ValidDate y m d) : ∃ years months, Shifted y m years months := by
  obtain ⟨first, last, -⟩ := valid
  by_cases early : m ≤ 2
  · exact ⟨y + 4799, m + 13, by omega, by split_ifs <;> omega, by split_ifs <;> omega⟩
  · exact ⟨y + 4800, m + 1, by omega, by split_ifs <;> omega, by split_ifs <;> omega⟩

section

variable (shifted : Shifted y m years months)
include shifted

theorem date2j_eq (day : 1 ≤ d ∧ d ≤ 31) (low : 0 ≤ dayNumber years months d)
    (high : dayNumber years months d < 2 ^ 31) : date2j y m d = some (dayNumber years months d) := by
  obtain ⟨range, month, year⟩ := shifted
  have moved : (if m > 2 then m + 1 else m + 13) = months := by split_ifs at month ⊢ <;> omega
  have movedYear : (if m > 2 then y + 4800 else y + 4799) = years := by split_ifs at month year ⊢ <;> omega
  have pos : 0 ≤ years := by
    unfold dayNumber yearStart at low
    omega
  have hundreds : (years / 100).tdiv 4 = years / 400 := by
    rw [Int.tdiv_eq_ediv_of_nonneg (by omega)]
    omega
  unfold dayNumber yearStart at low high ⊢
  rw [date2j, moved, movedYear, int_bind (by omega), int_bind (by omega)]
  dsimp only
  rw [Int.tdiv_eq_ediv_of_nonneg pos, Int.tdiv_eq_ediv_of_nonneg pos, hundreds, int_bind (by omega),
    int_bind (by omega), int_bind (by omega), int_bind (by omega),
    int_bind (by omega), int_bind (by omega), Int.tdiv_eq_ediv_of_nonneg (by omega),
    int_bind (by omega), int, if_pos (by omega)]
  congr 1
  omega

theorem Shifted.length : months ≤ 14 ∧ daysInMonth y m = 7834 * (months + 1) / 256 - 7834 * months / 256 ∨
      months = 15 ∧ daysInMonth y m = 28 + if IsLeap (years + 1) then 1 else 0 := by
  obtain ⟨⟨low, high⟩, rfl, rfl⟩ := shifted
  have leap : IsLeap (years - 4799) ↔ IsLeap (years + 1) := by
    unfold IsLeap
    omega
  unfold daysInMonth
  interval_cases months <;> simp [leap]
  split_ifs <;> rfl

theorem Shifted.day (first : 1 ≤ d) (last : d ≤ daysInMonth y m) :
    d ≤ 31 ∧ InYear years (7834 * months / 256 + d - 123) ∧
      fromMarch years (7834 * months / 256 + d - 123) = (y, m, d) := by
  have length := shifted.length
  obtain ⟨⟨low, high⟩, rfl, rfl⟩ := shifted
  generalize daysInMonth _ _ = n at length last
  have found : (7834 * months / 256 + d - 123 + 123) * 2141 / 65536 = months ∧ d ≤ 31 := by
    split_ifs at length <;> interval_cases months <;> omega
  refine ⟨found.2, ⟨by omega, ?_⟩, ?_⟩
  · by_cases leap : IsLeap (years + 1)
    · simp only [leap, if_true, and_true] at length ⊢
      interval_cases months <;> omega
    · simp only [leap, if_false, and_false, or_false] at length ⊢
      interval_cases months <;> omega
  · rw [fromMarch, found.1]
    refine Prod.ext rfl (Prod.ext ?_ ?_)
    · dsimp only
      split_ifs <;> omega
    · dsimp only
      omega

theorem Shifted.covered_iff (day : 1 ≤ d ∧ d ≤ 31) :
    Covered y m d ↔ 0 ≤ dayNumber years months d ∧ dayNumber years months d < 2 ^ 31 := by
  have starts : yearStart 86 = 31411 ∧ yearStart 87 = 31776 ∧ yearStart 88 = 32142 ∧
      yearStart 5879697 = 2147515232 ∧ yearStart 5879698 = 2147515597 ∧ yearStart 5879699 = 2147515962 := by decide
  obtain ⟨⟨least, most⟩, rfl, rfl⟩ := shifted
  unfold Covered rank dayNumber
  rcases lt_trichotomy years 87 with early | rfl | inside
  · have before : yearStart years ≤ yearStart 86 := yearStart_mono (by omega)
    interval_cases months <;> simp only [Int.reduceLE, if_true, if_false] <;> omega
  · interval_cases months <;> simp only [Int.reduceLE, if_true, if_false] <;> omega
  · have after : yearStart 88 ≤ yearStart years := yearStart_mono (by omega)
    rcases lt_trichotomy years 5879698 with inside | rfl | late
    · have before : yearStart years ≤ yearStart 5879697 := yearStart_mono (by omega)
      interval_cases months <;> simp only [Int.reduceLE, if_true, if_false] <;> omega
    · interval_cases months <;> simp only [Int.reduceLE, if_true, if_false] <;> omega
    · have after : yearStart 5879699 ≤ yearStart years := yearStart_mono (by omega)
      interval_cases months <;> simp only [Int.reduceLE, if_true, if_false] <;> omega

end

theorem ValidDate.date2j (valid : ValidDate y m d) (covered : Covered y m d) : ∃ years months,
    Shifted y m years months ∧ 0 ≤ dayNumber years months d ∧ dayNumber years months d < 2 ^ 31 ∧
      date2j y m d = some (dayNumber years months d) := by
  obtain ⟨years, months, shifted⟩ := valid.shifted
  have day := And.intro valid.2.2.1 (shifted.day valid.2.2.1 valid.2.2.2).1
  obtain ⟨low, high⟩ := (shifted.covered_iff day).mp covered
  exact ⟨years, months, shifted, low, high, date2j_eq shifted day low high⟩

theorem InYear.shifted (inYear : InYear years day) : ∃ y m d months, fromMarch years day = (y, m, d) ∧
    Shifted y m years months ∧ 1 ≤ d ∧ d ≤ daysInMonth y m ∧ 7834 * months / 256 + d - 123 = day := by
  generalize found : (day + 123) * 2141 / 65536 = months
  obtain ⟨low, ends⟩ := inYear
  have short : day ≤ 365 := by omega
  have range : 4 ≤ months ∧ months ≤ 15 := by omega
  have shifted : Shifted (if months ≤ 13 then years - 4800 else years - 4799) ((months + 10) % 12 + 1) years months :=
    ⟨range, by split_ifs <;> omega, rfl⟩
  refine ⟨_, _, day + 123 - 7834 * months / 256, months, by rw [fromMarch, found], shifted, ?_, ?_, by omega⟩
  · obtain ⟨least, most⟩ := range
    interval_cases months <;> omega
  · have length := shifted.length
    generalize daysInMonth _ _ = n at length ⊢
    obtain ⟨least, most⟩ := range
    by_cases leap : IsLeap (years + 1)
    · simp only [leap, if_true] at length
      interval_cases months <;> omega
    · simp only [leap, if_false, and_false, or_false] at length ends
      interval_cases months <;> omega

theorem Shifted.unique (first : Shifted y m years months) (second : Shifted y m years' months') :
    years' = years ∧ months' = months := by
  obtain ⟨range, rfl, rfl⟩ := first
  obtain ⟨range', month, year⟩ := second
  split_ifs at month year <;> omega

theorem Shifted.next (shifted : Shifted y m years months)
    (more : (if m < 12 then (y, m + 1) else (y + 1, 1)) = (y', m')) :
    Shifted y' m' (if months ≤ 14 then years else years + 1) (if months ≤ 14 then months + 1 else 4) := by
  obtain ⟨⟨low, high⟩, rfl, rfl⟩ := shifted
  interval_cases months <;>
    simp only [Int.reduceLE, Int.reduceLT, Int.reduceSub, if_true, if_false, Prod.mk.injEq] at more ⊢ <;>
    exact ⟨by decide, by simp; omega, by simp; omega⟩

theorem ValidDate.nextDay (valid : ValidDate y m d) (next : nextDay y m d = (y', m', d')) : ValidDate y' m' d' ∧
    ((y' = y ∧ m' = m ∧ d' = d + 1) ∨
      d = daysInMonth y m ∧ d' = 1 ∧ (if m < 12 then (y, m + 1) else (y + 1, 1)) = (y', m')) := by
  obtain ⟨january, december, first, last⟩ := valid
  have pos (y m : Int) : 1 ≤ daysInMonth y m := by
    unfold daysInMonth
    split_ifs <;> decide
  unfold DateTime.nextDay at next
  split_ifs at next with inside month <;> obtain ⟨rfl, rfl, rfl⟩ := next
  · exact ⟨⟨january, december, by omega, by omega⟩, Or.inl ⟨rfl, rfl, rfl⟩⟩
  · exact ⟨⟨by omega, by omega, le_rfl, pos ..⟩, Or.inr ⟨by omega, rfl, if_pos month⟩⟩
  · exact ⟨⟨le_rfl, by decide, le_rfl, pos ..⟩, Or.inr ⟨by omega, rfl, if_neg month⟩⟩

/-- `date2j` and `j2date` are inverse to each other, without overflow; `date2j` counts the days and `j2day`
the days of the week. -/
theorem julian_days :
    (∀ jd, 0 ≤ jd → jd ≤ 2147483647 → ∃ y m d, j2date jd = some (y, m, d) ∧ ValidDate y m d ∧ Covered y m d ∧
      date2j y m d = some jd) ∧
    (∀ y m d, ValidDate y m d → Covered y m d → ∃ jd, 0 ≤ jd ∧ jd ≤ 2147483647 ∧ date2j y m d = some jd ∧
      j2date jd = some (y, m, d)) ∧
    (∀ y m d y' m' d', ValidDate y m d → Covered y m d → nextDay y m d = (y', m', d') → Covered y' m' d' →
      ∃ jd, date2j y m d = some jd ∧ date2j y' m' d' = some (jd + 1)) ∧
    (∀ jd, 0 ≤ jd → jd ≤ 2147483647 → ∃ day, j2day jd = some day ∧ 0 ≤ day ∧ day < 7 ∧
      (jd < 2147483647 → j2day (jd + 1) = some ((day + 1) % 7))) := by
  refine ⟨fun jd low high => ?_, fun y m d valid covered => ?_, fun y m d y' m' d' valid covered next covered' => ?_,
    fun jd low high => ?_⟩
  · obtain ⟨years, day, inYear, start, found⟩ := j2date_eq low (by omega)
    obtain ⟨y, m, d, months, same, shifted, first, last, place⟩ := inYear.shifted
    have day := And.intro first (shifted.day first last).1
    have total : dayNumber years months d = jd := by
      unfold dayNumber
      omega
    have month : 1 ≤ m ∧ m ≤ 12 := by
      obtain ⟨range, rfl, -⟩ := shifted
      split_ifs <;> omega
    refine ⟨y, m, d, by rw [found, same], ⟨month.1, month.2, first, last⟩,
      (shifted.covered_iff day).mpr (by omega), ?_⟩
    rw [date2j_eq shifted day (by omega) (by omega), total]
  · obtain ⟨years, months, shifted, low, high, counted⟩ := valid.date2j covered
    obtain ⟨-, inYear, same⟩ := shifted.day valid.2.2.1 valid.2.2.2
    obtain ⟨years', day', inYear', start, found⟩ := j2date_eq low high
    obtain ⟨rfl, rfl⟩ := yearStart_unique inYear inYear' (by unfold dayNumber at start; omega)
    exact ⟨_, low, by omega, counted, by rw [found, same]⟩
  · obtain ⟨valid', cases⟩ := valid.nextDay next
    obtain ⟨years, months, shifted, -, -, counted⟩ := valid.date2j covered
    obtain ⟨years', months', shifted', -, -, counted'⟩ := valid'.date2j covered'
    refine ⟨_, counted, counted'.trans ?_⟩
    congr 1
    unfold dayNumber
    rcases cases with ⟨rfl, rfl, rfl⟩ | ⟨ends, rfl, more⟩
    · obtain ⟨rfl, rfl⟩ := shifted.unique shifted'
      omega
    · obtain ⟨rfl, rfl⟩ := (shifted.next more).unique shifted'
      have start := yearStart_succ years
      rcases shifted.length with ⟨inside, length⟩ | ⟨rfl, length⟩
      · rw [if_pos inside, if_pos inside]
        omega
      · rw [if_neg (by decide), if_neg (by decide)]
        omega
  · have today : j2day jd = some ((jd + 1) % 7) := by
      rw [j2day, unsigned_bind (by omega), unsigned_bind (by omega), int, if_pos (by omega)]
    refine ⟨(jd + 1) % 7, today, by omega, by omega, fun more => ?_⟩
    rw [j2day, unsigned_bind (by omega), unsigned_bind (by omega), int, if_pos (by omega)]
    congr 1
    omega

end BlockchainPG.Utils.DateTime
