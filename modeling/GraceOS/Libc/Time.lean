import GraceOS.Lib.Word
import Mathlib.Algebra.Order.Ring.Int

/-!
# Calendar time

The conversions between seconds and calendar fields of the C library. A sum that could leave the range of an `int` is
taken modulo 2 ^ 32.
-/

namespace graceos.libc

/-- `(int)x`. -/
def int32 (x : Int) : Int := x.bmod (2 ^ 32)

/-- `struct tm`. -/
structure Tm where
  tm_sec : Int
  tm_min : Int
  tm_hour : Int
  tm_mday : Int
  tm_mon : Int
  tm_year : Int
  tm_wday : Int
  tm_yday : Int
  tm_isdst : Int
  deriving DecidableEq

def month_days : List Int := [31, 28, 31, 30, 31, 30, 31, 31, 30, 31, 30, 31]

def is_leap_year (year : Int) : Bool := (year.tmod 4 = 0 && year.tmod 100 ≠ 0) || year.tmod 400 = 0

def days_in_month (month year : Int) : Int :=
  if month < 0 ∨ month > 11 then 0
  else if month = 1 ∧ is_leap_year year then 29
  else month_days.getD month.toNat 0

/-- Zeller's congruence; 0 is Sunday. -/
def day_of_week (year month day : Int) : Int :=
  let (month, year) := if month < 3 then (month + 12, year - 1) else (month, year)
  let q := day
  let m := month
  let k := year.tmod 100
  let j := year.tdiv 100
  let h := (q + (13 * (m + 1)).tdiv 5 + k + k.tdiv 4 + j.tdiv 4 - 2 * j).tmod 7
  (h + 6).tmod 7

def year_days (year : Int) : Int := if is_leap_year year then 366 else 365

theorem year_days_cases (year : Int) : year_days year = 365 ∨ year_days year = 366 := by
  unfold year_days
  split
  · exact .inr rfl
  · exact .inl rfl

/-- The loop of `gmtime_r` over the years: the year of a day, and the days before it in that year. -/
def find_year (year days : Int) : Int × Int :=
  if days < year_days year then (year, days) else find_year (year + 1) (days - year_days year)
termination_by days.toNat
decreasing_by
  have hyear := year_days_cases year
  omega

/-- The loop over the months that are left. -/
def find_month (year : Int) : (left : Nat) → (month days : Int) → Int × Int
  | 0, month, days => (month, days)
  | left + 1, month, days =>
    if days < days_in_month month year then (month, days)
    else find_month year left (month + 1) (days - days_in_month month year)

def gmtime_r (t : Int) : Tm :=
  let tm_sec := t.tmod 60
  let t := t.tdiv 60
  let tm_min := t.tmod 60
  let t := t.tdiv 60
  let tm_hour := t.tmod 24
  let t := t.tdiv 24
  let days := int32 t
  let tm_wday := (int32 (days + 4)).tmod 7
  let (year, days) := find_year 1970 days
  let tm_yday := days
  let (month, days) := find_month year 12 0 days
  { tm_sec, tm_min, tm_hour, tm_mday := days + 1, tm_mon := month, tm_year := year - 1900, tm_wday, tm_yday,
    tm_isdst := 0 }

/-- The first loop of `mktime`: the days of so many years from 1970 on. -/
def add_years : (years : Nat) → Int
  | 0 => 0
  | n + 1 => int32 (add_years n + year_days (1970 + n))

/-- The loops of `mktime` over the months: the days of so many months of a year are added. -/
def add_months (days year : Int) : (months : Nat) → Int
  | 0 => days
  | n + 1 => int32 (add_months days year n + days_in_month n year)

/-- The seconds and the fields that `mktime` computes. -/
def mktime (tm : Tm) : Int × Tm :=
  let year := tm.tm_year + 1900
  let month := tm.tm_mon
  let day := tm.tm_mday
  let days := int32 (add_months (add_years (year - 1970).toNat) year month.toNat + (day - 1))
  let seconds := days * 86400 + tm.tm_hour * 3600 + tm.tm_min * 60 + tm.tm_sec
  let tm_yday := add_months 0 year month.toNat + (day - 1)
  (seconds, { tm with tm_wday := day_of_week year (month + 1) day, tm_yday })

end graceos.libc
