import Libk2.Foundation.Gregorian
import Libk2.Timing.WaitTimes

/-!
# The UTC calendar

`calendar<utc>` keeps its timestamp, and breaks it down when it is first asked for a part. `gmtime`
does the work, and `validate` copies what it gives into fields with a base of their own: days of the
month count from zero, and 1970 is added to the years. But `tm_year` counts from 1900, so the years
are 70 too many (`not_faithful`). The rest is right (`BreaksDown.faithful`), and so is the order
(`BreaksDown.parts_lt`).

`gmtime` is given by the Gregorian calendar, and agrees with the formula that POSIX defines the
seconds since the epoch by (`posixSeconds_gmtime`).
-/

namespace Libk2

namespace UtcCalendar

open Gregorian

/-! ### `gmtime` -/

/-- `struct tm`. -/
structure Tm where
  sec : ℕ
  min : ℕ
  hour : ℕ
  mday : ℕ
  mon : ℕ
  year : ℕ
  wday : ℕ
  yday : ℕ
deriving DecidableEq

/-- `gmtime`. Days of the month count from one, and years from 1900. -/
def gmtime (t : ℕ) : Tm :=
  let date := ofDayNumber (t / 86400)
  { sec := t % 60
    min := t % 3600 / 60
    hour := t % 86400 / 3600
    mday := date.day + 1
    mon := date.month
    year := date.year - 1900
    wday := date.dayOfWeek
    yday := date.dayOfYear }

/-- The seconds since the epoch, as POSIX defines them. -/
def posixSeconds (tm : Tm) : ℤ :=
  tm.sec + tm.min * 60 + tm.hour * 3600 + tm.yday * 86400 + (tm.year - 70) * 31536000 +
    ((tm.year - 69) / 4) * 86400 - ((tm.year - 1) / 100) * 86400 + ((tm.year + 299) / 400) * 86400

/-- **`gmtime` follows POSIX.** -/
theorem posixSeconds_gmtime (t : ℕ) : posixSeconds (gmtime t) = t := by
  have hnumber : (ofDayNumber (t / 86400)).dayNumber = t / 86400 := dayNumber_ofDayNumber _
  have hepoch : 1970 ≤ (ofDayNumber (t / 86400)).year := (ofDayNumber (t / 86400)).epoch_le
  have hstart := start_yearLength ((ofDayNumber (t / 86400)).year - epoch)
  rw [Date.dayNumber_eq] at hnumber
  rw [epoch] at hnumber hstart
  simp only [posixSeconds, gmtime]
  omega

/-- A day in the middle of things: the last of February 2000, a Tuesday. -/
example : gmtime 951782400 = ⟨0, 0, 0, 29, 1, 100, 2, 59⟩ := by decide

end UtcCalendar

/-! ### The object -/

/-- `calendar<utc>`. -/
structure UtcCalendar where
  timestamp : Timestamp
  validated : Bool
  year : UInt16
  monthOfYear : UInt16
  dayOfMonth : UInt16
  hourOfDay : UInt16
  minOfHour : UInt16
  secOfMin : UInt16
  msecOfSec : UInt32
  dayOfYear : UInt16
  dayOfWeek : UInt16
deriving DecidableEq

namespace UtcCalendar

open Gregorian

/-- Constructed from a timestamp. The fields hold anything. -/
def Constructed (t : Timestamp) (c : UtcCalendar) : Prop := c.timestamp = t ∧ c.validated = false

/-- `calendar<utc>::validate`. -/
def validate (c : UtcCalendar) : UtcCalendar :=
  if c.validated = false then
    let tm := gmtime c.timestamp.inSec.toNat
    { timestamp := c.timestamp
      validated := true
      year := UInt16.ofNat (tm.year + 1970)
      monthOfYear := UInt16.ofNat tm.mon
      dayOfMonth := UInt16.ofNat (tm.mday - 1)
      hourOfDay := UInt16.ofNat tm.hour
      minOfHour := UInt16.ofNat tm.min
      secOfMin := UInt16.ofNat tm.sec
      msecOfSec := c.timestamp.msecOfSec.toUInt32
      dayOfYear := UInt16.ofNat tm.yday
      dayOfWeek := UInt16.ofNat tm.wday }
  else c

/-- The accessors. -/
inductive Accessor where
  | year
  | monthOfYear
  | dayOfMonth
  | hourOfDay
  | minOfHour
  | secOfMin
  | msecOfSec
  | dayOfYear
  | dayOfWeek
deriving DecidableEq

/-- The field that an accessor returns. -/
def field (c : UtcCalendar) : Accessor → UInt16
  | .year => c.year
  | .monthOfYear => c.monthOfYear
  | .dayOfMonth => c.dayOfMonth
  | .hourOfDay => c.hourOfDay
  | .minOfHour => c.minOfHour
  | .secOfMin => c.secOfMin
  | .msecOfSec => c.msecOfSec.toUInt16
  | .dayOfYear => c.dayOfYear
  | .dayOfWeek => c.dayOfWeek

/-- A call of an accessor: what it returns, and the object afterwards. -/
def access (c : UtcCalendar) (a : Accessor) : UInt16 × UtcCalendar :=
  (c.validate.field a, c.validate)

/-- The object after some calls. -/
def afterAccesses (c : UtcCalendar) (calls : List Accessor) : UtcCalendar :=
  calls.foldl (fun c a ↦ (c.access a).2) c

/-- What the accessors return after some calls. -/
def view (c : UtcCalendar) (calls : List Accessor) (a : Accessor) : ℕ :=
  ((c.afterAccesses calls).access a).1.toNat

/-! ### Validation -/

theorem validate_of_validated {c : UtcCalendar} (h : c.validated = true) : c.validate = c := by
  rw [validate, h, if_neg (by decide)]

theorem validated_validate (c : UtcCalendar) : c.validate.validated = true := by
  rw [validate]
  split
  · rfl
  · next h => exact Bool.eq_true_of_not_eq_false h

/-- It validates once. -/
theorem validate_validate (c : UtcCalendar) : c.validate.validate = c.validate :=
  validate_of_validated c.validated_validate

theorem validate_afterAccesses (c : UtcCalendar) (calls : List Accessor) :
    (c.afterAccesses calls).validate = c.validate := by
  induction calls generalizing c with
  | nil => rfl
  | cons a calls ih =>
    show (c.validate.afterAccesses calls).validate = c.validate
    rw [ih, validate_validate]

/-- **The calls before make no difference.** -/
theorem view_eq (c : UtcCalendar) (calls : List Accessor) (a : Accessor) :
    c.view calls a = (c.validate.field a).toNat := by
  rw [view, access, validate_afterAccesses]

/-! ### The breakdown -/

/-- The date of a timestamp. -/
def dateOf (t : Timestamp) : Date := ofDayNumber (t.inMsec.toNat / 1000 / 86400)

/-- What the accessors return, part by part. -/
structure BreaksDown (t : Timestamp) (v : Accessor → ℕ) : Prop where
  year : v .year = (dateOf t).year + 70
  monthOfYear : v .monthOfYear = (dateOf t).month
  dayOfMonth : v .dayOfMonth = (dateOf t).day
  hourOfDay : v .hourOfDay = t.inMsec.toNat / 1000 % 86400 / 3600
  minOfHour : v .minOfHour = t.inMsec.toNat / 1000 % 3600 / 60
  secOfMin : v .secOfMin = t.inMsec.toNat / 1000 % 60
  msecOfSec : v .msecOfSec = t.inMsec.toNat % 1000
  dayOfYear : v .dayOfYear = (dateOf t).dayOfYear
  dayOfWeek : v .dayOfWeek = (dateOf t).dayOfWeek

/-- A part in its field. -/
theorem toNat_ofNat_eq {n part : ℕ} (h : n = part) (hpart : part < 2 ^ 16) :
    (UInt16.ofNat n).toNat = part := by
  rw [UInt16.toNat_ofNat', h, Nat.mod_eq_of_lt hpart]

theorem year_lt_of_dayNumber {d : Date} (h : d.dayNumber < 2 ^ 16) : d.year < 2160 := by
  have hyear := year_le_of_dayNumber d
  rw [epoch] at hyear
  omega

/-- **What `validate` has computed.** No part is too large for its field. -/
theorem breaksDown {t : Timestamp} {c : UtcCalendar} (hc : Constructed t c)
    (ht : t.inMsec.toNat / 1000 < 2 ^ 32) (calls : List Accessor) :
    BreaksDown t (c.view calls) := by
  obtain ⟨rfl, hvalidated⟩ := hc
  have hsec : c.timestamp.inSec.toNat = c.timestamp.inMsec.toNat / 1000 :=
    (toNat_inSec _).trans (Nat.mod_eq_of_lt ht)
  have hvalidate : c.validate = _ := if_pos hvalidated
  rw [hsec] at hvalidate
  -- the range of each part, so that its field has room for it
  have hnumber : (dateOf c.timestamp).dayNumber = c.timestamp.inMsec.toNat / 1000 / 86400 :=
    dayNumber_ofDayNumber _
  have hyear : (dateOf c.timestamp).year < 2160 := year_lt_of_dayNumber (by omega)
  have hepoch : 1970 ≤ (dateOf c.timestamp).year := (dateOf c.timestamp).epoch_le
  have hmonth := (dateOf c.timestamp).month_lt
  have hday := (dateOf c.timestamp).day_lt.trans_le (daysInMonth_le _ _)
  have hdayOfYear := (dateOf c.timestamp).dayOfYear_lt.trans_le (daysInYear_le _)
  have hdayOfWeek : (dateOf c.timestamp).dayOfWeek < 7 := Nat.mod_lt _ (by decide)
  have hfield := fun a ↦ hvalidate ▸ view_eq c calls a
  have hmsec : c.timestamp.msecOfSec.toUInt32.toUInt16.toNat = c.timestamp.inMsec.toNat % 1000 := by
    rw [UInt16.toUInt16_toUInt32]
    exact toNat_msecOfSec _
  have hbase : (dateOf c.timestamp).year - 1900 + 1970 = (dateOf c.timestamp).year + 70 := by omega
  exact
    { year := (hfield .year).trans (toNat_ofNat_eq hbase (by omega))
      monthOfYear := (hfield .monthOfYear).trans (toNat_ofNat_eq rfl (by omega))
      dayOfMonth := (hfield .dayOfMonth).trans (toNat_ofNat_eq rfl (by omega))
      hourOfDay := (hfield .hourOfDay).trans (toNat_ofNat_eq rfl (by omega))
      minOfHour := (hfield .minOfHour).trans (toNat_ofNat_eq rfl (by omega))
      secOfMin := (hfield .secOfMin).trans (toNat_ofNat_eq rfl (by omega))
      msecOfSec := (hfield .msecOfSec).trans hmsec
      dayOfYear := (hfield .dayOfYear).trans (toNat_ofNat_eq rfl (by omega))
      dayOfWeek := (hfield .dayOfWeek).trans (toNat_ofNat_eq rfl (by omega)) }

/-- The date and time is `t` milliseconds after the epoch, and its parts are in their ranges. -/
structure Faithful (t : Timestamp) (v : Accessor → ℕ) (d : Date) : Prop where
  year : v .year = d.year
  monthOfYear : v .monthOfYear = d.month
  dayOfMonth : v .dayOfMonth = d.day
  hourOfDay : v .hourOfDay < 24
  minOfHour : v .minOfHour < 60
  secOfMin : v .secOfMin < 60
  msecOfSec : v .msecOfSec < 1000
  denotes : (d.dayNumber * 86400 + v .hourOfDay * 3600 + v .minOfHour * 60 + v .secOfMin) * 1000 +
    v .msecOfSec = t.inMsec.toNat
  dayOfYear : v .dayOfYear = d.dayOfYear
  dayOfWeek : v .dayOfWeek = d.dayOfWeek

variable {t t' : Timestamp} {v v' : Accessor → ℕ}

/-- **All but the year** is right. -/
theorem BreaksDown.faithful (h : BreaksDown t v) :
    Faithful t (Function.update v .year (v .year - 70)) (dateOf t) := by
  have hnumber : (dateOf t).dayNumber = t.inMsec.toNat / 1000 / 86400 := dayNumber_ofDayNumber _
  have hyear := h.year
  have hhour := h.hourOfDay
  have hmin := h.minOfHour
  have hsec := h.secOfMin
  have hmsec := h.msecOfSec
  exact
    { year := by
        rw [Function.update_self]
        omega
      monthOfYear := h.monthOfYear
      dayOfMonth := h.dayOfMonth
      hourOfDay := by
        show v .hourOfDay < 24
        omega
      minOfHour := by
        show v .minOfHour < 60
        omega
      secOfMin := by
        show v .secOfMin < 60
        omega
      msecOfSec := by
        show v .msecOfSec < 1000
        omega
      denotes := by
        show ((dateOf t).dayNumber * 86400 + v .hourOfDay * 3600 + v .minOfHour * 60 +
          v .secOfMin) * 1000 + v .msecOfSec = t.inMsec.toNat
        omega
      dayOfYear := h.dayOfYear
      dayOfWeek := h.dayOfWeek }

/-- **The year** is not. -/
theorem BreaksDown.wrong_year (h : BreaksDown t v) (d : Date) : ¬ Faithful t v d := by
  intro hd
  have hdenotes := hd.denotes
  rw [h.hourOfDay, h.minOfHour, h.secOfMin, h.msecOfSec] at hdenotes
  -- the time of day is right, so `d` is the day itself, and has the right year
  have hnumber : d.dayNumber = (dateOf t).dayNumber := by
    rw [dateOf, dayNumber_ofDayNumber]
    omega
  have hyear := hd.year
  rw [h.year, dayNumber_injective hnumber] at hyear
  omega

/-- The parts, the largest first. -/
def parts (v : Accessor → ℕ) : List ℕ :=
  [v .year, v .monthOfYear, v .dayOfMonth, v .hourOfDay, v .minOfHour, v .secOfMin, v .msecOfSec]

/-- **Later timestamps have later parts**, in lexicographic order. -/
theorem BreaksDown.parts_lt (h : BreaksDown t v) (h' : BreaksDown t' v')
    (hlt : t.inMsec < t'.inMsec) : parts v < parts v' := by
  have hmsec : t.inMsec.toNat < t'.inMsec.toNat := UInt64.lt_iff_toNat_lt.1 hlt
  have hnumber : (dateOf t).dayNumber = t.inMsec.toNat / 1000 / 86400 := dayNumber_ofDayNumber _
  have hnumber' : (dateOf t').dayNumber = t'.inMsec.toNat / 1000 / 86400 := dayNumber_ofDayNumber _
  simp only [parts, List.cons_lt_cons_iff, List.not_lt_nil, and_false, or_false]
  rw [h.year, h.monthOfYear, h.dayOfMonth, h.hourOfDay, h.minOfHour, h.secOfMin, h.msecOfSec,
    h'.year, h'.monthOfYear, h'.dayOfMonth, h'.hourOfDay, h'.minOfHour, h'.secOfMin, h'.msecOfSec]
  -- another day decides by its date, the same day by the time
  rcases Nat.lt_or_ge (dateOf t).dayNumber (dateOf t').dayNumber with hday | hday
  · have hdate := dayNumber_lt_iff.1 hday
    omega
  · have hsame : dateOf t = dateOf t' := dayNumber_injective (by omega)
    rw [hsame] at hnumber ⊢
    omega

/-- **The calendar is never a faithful breakdown** of its timestamp: its years are 70 too many. -/
theorem not_faithful {c : UtcCalendar} (hc : Constructed t c)
    (ht : t.inMsec.toNat / 1000 < 2 ^ 32) (calls : List Accessor) :
    ¬ ∃ d, Faithful t (c.view calls) d := by
  rintro ⟨d, hd⟩
  exact (breaksDown hc ht calls).wrong_year d hd

/-- The calendar of the epoch. -/
def ofEpoch : UtcCalendar where
  timestamp := ⟨0⟩
  validated := false
  year := 0
  monthOfYear := 0
  dayOfMonth := 0
  hourOfDay := 0
  minOfHour := 0
  secOfMin := 0
  msecOfSec := 0
  dayOfYear := 0
  dayOfWeek := 0

theorem constructed_ofEpoch : Constructed ⟨0⟩ ofEpoch := ⟨rfl, rfl⟩

theorem not_faithful_ofEpoch : ¬ ∃ d, Faithful ⟨0⟩ (ofEpoch.view []) d :=
  not_faithful constructed_ofEpoch (by decide) []

/-- **The epoch is in 2040.** -/
theorem epoch_in_2040 : ¬ ∀ (t : Timestamp) (c : UtcCalendar) (calls : List Accessor),
    Constructed t c → t.inMsec.toNat / 1000 < 2 ^ 32 → ∃ d, Faithful t (c.view calls) d := by
  intro hall
  obtain ⟨d, hd⟩ := hall ⟨0⟩ ofEpoch [] constructed_ofEpoch (by decide)
  exact (breaksDown constructed_ofEpoch (by decide) []).wrong_year d hd

end UtcCalendar

end Libk2
