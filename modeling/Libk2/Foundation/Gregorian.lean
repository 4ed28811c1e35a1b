import Libk2.Foundation.Blocks

/-!
# The Gregorian calendar since 1970

Days are numbered from the first of January 1970. Its years are consecutive blocks of days, and the
months of a year are blocks of that year; month and day count from zero. A `Date` is a day of a
month of a year, and has a number (`dayNumber`); every number is that of one date (`ofDayNumber`,
`dayNumber_injective`), and the numbers are in the order of the dates, the year first
(`dayNumber_lt_iff`).
-/

namespace Gregorian

open Blocks

/-- The year that the days are counted from. -/
def epoch : ℕ := 1970

/-- A leap year. -/
def IsLeap (y : ℕ) : Prop := y % 4 = 0 ∧ (y % 100 ≠ 0 ∨ y % 400 = 0)

instance (y : ℕ) : Decidable (IsLeap y) := inferInstanceAs (Decidable (_ ∧ _))

/-- The length of month `m`, counted from zero. -/
def daysInMonth (y m : ℕ) : ℕ :=
  if m = 1 then if IsLeap y then 29 else 28
  else if m = 3 ∨ m = 5 ∨ m = 8 ∨ m = 10 then 30
  else 31

/-- The length of a year. -/
def daysInYear (y : ℕ) : ℕ := if IsLeap y then 366 else 365

/-- The lengths of the years from the epoch on. -/
def yearLength (k : ℕ) : ℕ := daysInYear (epoch + k)

theorem daysInMonth_pos (y m : ℕ) : 0 < daysInMonth y m := by
  unfold daysInMonth
  split_ifs <;> omega

theorem daysInMonth_le (y m : ℕ) : daysInMonth y m ≤ 31 := by
  unfold daysInMonth
  split_ifs <;> omega

theorem daysInYear_le (y : ℕ) : daysInYear y ≤ 366 := by
  unfold daysInYear
  split_ifs <;> omega

theorem yearLength_pos (k : ℕ) : 0 < yearLength k := by
  unfold yearLength daysInYear
  split_ifs <;> omega

/-- The months make up the year. -/
theorem start_twelve (y : ℕ) : start (daysInMonth y) 12 = daysInYear y := by
  by_cases h : IsLeap y <;> simp [start, daysInMonth, daysInYear, h]

/-! ### Dates -/

/-- A date. -/
@[ext]
structure Date where
  year : ℕ
  month : ℕ
  day : ℕ
  epoch_le : epoch ≤ year
  month_lt : month < 12
  day_lt : day < daysInMonth year month

namespace Date

variable (d : Date)

/-- The day in its year. -/
def monthPlace : Place (daysInMonth d.year) := ⟨d.month, d.day, d.day_lt⟩

/-- The day of the year, counted from zero. -/
def dayOfYear : ℕ := d.monthPlace.index

theorem dayOfYear_lt : d.dayOfYear < daysInYear d.year := by
  rw [← start_twelve]
  exact d.monthPlace.index_lt_start d.month_lt

/-- The year of the day. -/
def yearPlace : Place yearLength where
  block := d.year - epoch
  offset := d.dayOfYear
  offset_lt := by
    rw [yearLength, Nat.add_sub_of_le d.epoch_le]
    exact d.dayOfYear_lt

/-- The number of days since the epoch. -/
def dayNumber : ℕ := d.yearPlace.index

/-- The day of the week, where Sunday is zero. The epoch was a Thursday. -/
def dayOfWeek : ℕ := (d.dayNumber + 4) % 7

theorem dayNumber_eq : d.dayNumber = start yearLength (d.year - epoch) + d.dayOfYear := rfl

end Date

/-! ### Order -/

theorem dayOfYear_lt_iff {d d' : Date} (h : d.year = d'.year) :
    d.dayOfYear < d'.dayOfYear ↔ d.month < d'.month ∨ (d.month = d'.month ∧ d.day < d'.day) := by
  obtain ⟨y, m, k, hy, hm, hk⟩ := d
  obtain ⟨y', m', k', hy', hm', hk'⟩ := d'
  obtain rfl : y = y' := h
  exact Place.index_lt_iff

/-- **Dates are numbered in order.** -/
theorem dayNumber_lt_iff {d d' : Date} : d.dayNumber < d'.dayNumber ↔
    d.year < d'.year ∨
      (d.year = d'.year ∧ (d.month < d'.month ∨ (d.month = d'.month ∧ d.day < d'.day))) := by
  have hepoch := d.epoch_le
  have hepoch' := d'.epoch_le
  have hplace : d.dayNumber < d'.dayNumber ↔ d.year - epoch < d'.year - epoch ∨
      (d.year - epoch = d'.year - epoch ∧ d.dayOfYear < d'.dayOfYear) := Place.index_lt_iff
  rw [hplace]
  -- within one year the places are compared by their months
  rcases Nat.lt_trichotomy d.year d'.year with hlt | heq | hgt
  · exact iff_of_true (.inl (by omega)) (.inl hlt)
  · rw [← dayOfYear_lt_iff heq, heq]
    omega
  · exact iff_of_false (by omega) (by omega)

theorem dayNumber_injective {d d' : Date} (h : d.dayNumber = d'.dayNumber) : d = d' := by
  have hlt : ¬ d.dayNumber < d'.dayNumber := by omega
  have hgt : ¬ d'.dayNumber < d.dayNumber := by omega
  rw [dayNumber_lt_iff] at hlt hgt
  exact Date.ext (by omega) (by omega) (by omega)

/-! ### The date of a day -/

/-- The year of the day with number `n`. -/
def yearOf (n : ℕ) : Place yearLength := locate yearLength_pos n

/-- The month of that day. -/
def monthOf (n : ℕ) : Place (daysInMonth (epoch + (yearOf n).block)) :=
  locate (daysInMonth_pos _) (yearOf n).offset

theorem monthOf_lt (n : ℕ) : (monthOf n).block < 12 := by
  have hindex : (monthOf n).index = (yearOf n).offset := index_locate _ _
  have hoffset : (yearOf n).offset < start (daysInMonth (epoch + (yearOf n).block)) 12 := by
    rw [start_twelve]
    exact (yearOf n).offset_lt
  by_contra hge
  have hstart : start (daysInMonth (epoch + (yearOf n).block)) 12 ≤
      start (daysInMonth (epoch + (yearOf n).block)) (monthOf n).block :=
    start_le_start (Nat.le_of_not_lt hge)
  rw [Place.index] at hindex
  omega

/-- The date of the day with number `n`. -/
def ofDayNumber (n : ℕ) : Date where
  year := epoch + (yearOf n).block
  month := (monthOf n).block
  day := (monthOf n).offset
  epoch_le := Nat.le_add_right _ _
  month_lt := monthOf_lt n
  day_lt := (monthOf n).offset_lt

theorem dayOfYear_ofDayNumber (n : ℕ) : (ofDayNumber n).dayOfYear = (yearOf n).offset :=
  index_locate (daysInMonth_pos _) _

/-- **Every day has its date.** -/
@[simp] theorem dayNumber_ofDayNumber (n : ℕ) : (ofDayNumber n).dayNumber = n := by
  have hblock : (ofDayNumber n).year - epoch = (yearOf n).block := Nat.add_sub_cancel_left _ _
  rw [Date.dayNumber_eq, hblock, dayOfYear_ofDayNumber]
  exact index_locate yearLength_pos n

/-! ### The number of leap days -/

/-- The days before a year, by the number of leap years: every fourth, but not every hundredth, but
every four-hundredth. -/
theorem start_yearLength (k : ℕ) :
    start yearLength k + (k + 69) / 100 = 365 * k + (k + 1) / 4 + (k + 369) / 400 := by
  induction k with
  | zero => rfl
  | succ k ih =>
    -- the quotients move in the years that the rule looks at
    have hfourth : (k + 2) / 4 = (k + 1) / 4 + if (1970 + k) % 4 = 0 then 1 else 0 := by
      split <;> omega
    have hhundredth : (k + 70) / 100 = (k + 69) / 100 + if (1970 + k) % 100 = 0 then 1 else 0 := by
      split <;> omega
    have hfourHundredth : (k + 370) / 400 =
        (k + 369) / 400 + if (1970 + k) % 400 = 0 then 1 else 0 := by
      split <;> omega
    show start yearLength k + daysInYear (1970 + k) + (k + 70) / 100 =
      365 * (k + 1) + (k + 2) / 4 + (k + 370) / 400
    rw [daysInYear, hfourth, hhundredth, hfourHundredth]
    clear hfourth hhundredth hfourHundredth
    by_cases hleap : IsLeap (1970 + k)
    · rw [if_pos hleap]
      unfold IsLeap at hleap
      split_ifs <;> omega
    · rw [if_neg hleap]
      unfold IsLeap at hleap
      split_ifs <;> omega

theorem year_le_of_dayNumber (d : Date) : 365 * (d.year - epoch) ≤ d.dayNumber := by
  have hstart := start_yearLength (d.year - epoch)
  rw [Date.dayNumber_eq]
  omega

end Gregorian
