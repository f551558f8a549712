import GraceOS.Libc.Time
import Mathlib.Tactic.IntervalCases

/-!
# The calendar round trip

`gmtime_r` takes years and months off a number of days, and `mktime` adds them up again. Both agree with the closed form
for the day number of New Year, from which Zeller's congruence follows.
-/

namespace graceos.libc

theorem int32_of_range {x : Int} (hlow : -2 ^ 31 ≤ x) (hhigh : x < 2 ^ 31) : int32 x = x := by
  unfold int32
  rw [Int.bmod_def]
  omega

/-! ## Years -/

/-- The leap years up to a year. -/
def leaps (year : Int) : Int := year / 4 - year / 100 + year / 400

/-- The number of the first day of a year, counted from 1970. -/
def new_year_day (year : Int) : Int := 365 * (year - 1970) + leaps (year - 1) - 477

theorem is_leap_year_iff {year : Int} (hyear : 0 ≤ year) :
    is_leap_year year = true ↔ year % 4 = 0 ∧ year % 100 ≠ 0 ∨ year % 400 = 0 := by
  unfold is_leap_year
  rw [Int.tmod_eq_emod_of_nonneg hyear, Int.tmod_eq_emod_of_nonneg hyear, Int.tmod_eq_emod_of_nonneg hyear]
  simp

theorem leaps_step {year : Int} (hyear : 0 ≤ year) :
    leaps year = leaps (year - 1) + if is_leap_year year then 1 else 0 := by
  have hleap := is_leap_year_iff hyear
  unfold leaps
  split
  next hyes =>
    have hrule := hleap.mp hyes
    omega
  next hno =>
    have hrule := mt hleap.mpr hno
    omega

theorem new_year_day_step {year : Int} (hyear : 0 ≤ year) :
    new_year_day (year + 1) = new_year_day year + year_days year := by
  have hstep := leaps_step hyear
  unfold new_year_day year_days
  rw [show year + 1 - 1 = year by omega, hstep]
  split <;> omega

theorem new_year_day_1970 : new_year_day 1970 = 0 := by decide

theorem new_year_day_nonneg (n : Nat) : 0 ≤ new_year_day (1970 + n) := by
  unfold new_year_day leaps
  omega

theorem find_year_spec (year days : Int) (hyear : 1970 ≤ year) (hdays : 0 ≤ days) :
    year ≤ (find_year year days).1 ∧ 0 ≤ (find_year year days).2 ∧
      (find_year year days).2 < year_days (find_year year days).1 ∧
      new_year_day (find_year year days).1 + (find_year year days).2 = new_year_day year + days := by
  induction year, days using find_year.induct with
  | case1 year days hlt =>
    rw [find_year, if_pos hlt]
    exact ⟨le_refl year, hdays, hlt, rfl⟩
  | case2 year days hge ih =>
    rw [find_year, if_neg hge]
    obtain ⟨hle, hpos, hlt, hsum⟩ := ih (by omega) (by omega)
    refine ⟨by omega, hpos, hlt, ?_⟩
    rw [hsum, new_year_day_step (by omega)]
    omega

theorem add_years_eq {n : Nat} (hlt : new_year_day (1970 + n) < 2 ^ 31) : add_years n = new_year_day (1970 + n) := by
  induction n with
  | zero => exact new_year_day_1970.symm
  | succ n ih =>
    have hstep := @new_year_day_step (1970 + n) (by omega)
    have hdays := year_days_cases (1970 + n)
    have hpos := new_year_day_nonneg n
    rw [show (1970 : Int) + (n + 1 : Nat) = 1970 + n + 1 by omega] at hlt ⊢
    rw [add_years, ih (by omega), ← hstep, int32_of_range (by omega) hlt]

/-! ## Months -/

/-- The days of so many months of a year. -/
def month_sum (year : Int) : Nat → Int
  | 0 => 0
  | n + 1 => month_sum year n + days_in_month n year

theorem days_in_month_nonneg (month year : Int) : 0 ≤ days_in_month month year := by
  unfold days_in_month
  split_ifs with hout hleap
  · exact le_refl 0
  · decide
  · obtain ⟨hlow, hhigh⟩ : 0 ≤ month ∧ month ≤ 11 := by omega
    interval_cases month <;> decide

theorem month_sum_nonneg (year : Int) (n : Nat) : 0 ≤ month_sum year n := by
  induction n with
  | zero => exact le_refl 0
  | succ n ih => exact Int.add_nonneg ih (days_in_month_nonneg n year)

/-- The days before each month of an ordinary year. -/
def month_table : List Int := [0, 31, 59, 90, 120, 151, 181, 212, 243, 273, 304, 334, 365]

theorem month_sum_eq (year : Int) {n : Nat} (hn : n ≤ 12) :
    month_sum year n = month_table.getD n 0 + if 2 ≤ n ∧ is_leap_year year then 1 else 0 := by
  cases hleap : is_leap_year year <;> interval_cases n <;> simp [month_sum, month_table, days_in_month,
    month_days, hleap]

theorem month_sum_twelve (year : Int) : month_sum year 12 = year_days year := by
  rw [month_sum_eq year (le_refl 12), year_days]
  cases is_leap_year year <;> rfl

theorem add_months_eq {days year : Int} {n : Nat} (hdays : 0 ≤ days) (hlt : days + month_sum year n < 2 ^ 31) :
    add_months days year n = days + month_sum year n := by
  induction n with
  | zero => exact (Int.add_zero days).symm
  | succ n ih =>
    have hnonneg := month_sum_nonneg year (n + 1)
    have hmonth := days_in_month_nonneg n year
    rw [month_sum] at hlt hnonneg
    rw [add_months, ih (by omega), month_sum, int32_of_range (by omega) (by omega), Int.add_assoc]

theorem find_month_spec {year : Int} {left m : Nat} {days : Int} (hleft : m + left = 12) (hdays : 0 ≤ days)
    (hlt : month_sum year m + days < month_sum year 12) :
    ∃ k : Nat, k < 12 ∧ ∃ rest, find_month year left m days = ((k : Int), rest) ∧ 0 ≤ rest ∧
      rest < days_in_month k year ∧
      month_sum year k + rest = month_sum year m + days := by
  induction left generalizing m days with
  | zero =>
    obtain rfl : m = 12 := hleft
    omega
  | succ left ih =>
    rw [find_month]
    by_cases hin : days < days_in_month m year
    · rw [if_pos hin]
      exact ⟨m, by omega, days, rfl, hdays, hin, rfl⟩
    · have hsum : month_sum year (m + 1) = month_sum year m + days_in_month m year := rfl
      obtain ⟨k, hk, rest, hfound, hrest⟩ := @ih (m + 1) (days - days_in_month m year) (by omega) (by omega) (by omega)
      rw [if_neg hin]
      refine ⟨k, hk, rest, hfound, hrest.1, hrest.2.1, ?_⟩
      rw [hrest.2.2, hsum]
      omega

/-! ## The day of the week -/

theorem tmod_seven (x : Int) : (x.tmod 7 + 6).tmod 7 = (x + 6) % 7 := by
  have hsmall : 0 ≤ x.tmod 7 + 6 := by
    rw [Int.tmod_eq_emod]
    split <;> omega
  rw [Int.tmod_eq_emod_of_nonneg hsmall, Int.tmod_eq_emod]
  split <;> omega

theorem zeller_year {year : Int} (hyear : 0 ≤ year) : year.tmod 100 + (year.tmod 100).tdiv 4 + (year.tdiv 100).tdiv 4 -
    2 * year.tdiv 100 = year + leaps year - 126 * (year / 100) := by
  have hcentury : 0 ≤ year / 100 := by omega
  rw [Int.tmod_eq_emod_of_nonneg hyear, Int.tdiv_eq_ediv_of_nonneg hyear, Int.tdiv_eq_ediv_of_nonneg hcentury,
    Int.tdiv_eq_ediv_of_nonneg (Int.emod_nonneg year (by decide))]
  unfold leaps
  omega

theorem zeller {year m day : Int} (hyear : 0 ≤ year) :
    ((day + m + year.tmod 100 + (year.tmod 100).tdiv 4 + (year.tdiv 100).tdiv 4 -
      2 * year.tdiv 100).tmod 7 + 6).tmod 7 =
      (day + m + year + leaps year + 6) % 7 := by
  have hsum := zeller_year hyear
  rw [tmod_seven]
  omega

theorem day_of_week_early {year month day : Int} (hmonth : month < 3) (hyear : 1 ≤ year) :
    day_of_week year month day =
      (day + (13 * (month + 12 + 1)).tdiv 5 + (year - 1) + leaps (year - 1) + 6) % 7 := by
  unfold day_of_week
  rw [if_pos hmonth]
  exact zeller (by omega)

theorem day_of_week_late {year month day : Int} (hmonth : ¬ month < 3) (hyear : 1 ≤ year) :
    day_of_week year month day = (day + (13 * (month + 1)).tdiv 5 + year + leaps year + 6) % 7 := by
  unfold day_of_week
  rw [if_neg hmonth]
  exact zeller (by omega)

theorem day_of_week_eq {year day : Int} {k : Nat} (hyear : 1 ≤ year) (hk : k < 12) :
    day_of_week year (k + 1) day = (new_year_day year + month_sum year k + day + 3) % 7 := by
  have hleap := @leaps_step year (by omega)
  rw [month_sum_eq year (by omega)]
  unfold new_year_day
  by_cases hearly : k < 2
  · -- January and February belong to the year before
    rw [day_of_week_early (by omega) hyear, if_neg (by omega)]
    interval_cases k <;> simp [month_table] <;> omega
  · -- the leap day lies before the month
    rw [day_of_week_late (by omega) hyear, hleap]
    have hlater : 2 ≤ k := by omega
    simp only [hlater, true_and]
    generalize (if is_leap_year year = true then (1 : Int) else 0) = leap_day
    interval_cases k <;> simp [month_table] <;> omega

/-! ## The round trip -/

/-- The fields are in their ranges. -/
structure InRange (tm : Tm) : Prop where
  tm_sec : 0 ≤ tm.tm_sec ∧ tm.tm_sec < 60
  tm_min : 0 ≤ tm.tm_min ∧ tm.tm_min < 60
  tm_hour : 0 ≤ tm.tm_hour ∧ tm.tm_hour < 24
  tm_mon : 0 ≤ tm.tm_mon ∧ tm.tm_mon < 12
  tm_mday : 1 ≤ tm.tm_mday ∧ tm.tm_mday ≤ days_in_month tm.tm_mon (tm.tm_year + 1900)

/-- The fields of a time, from the number of its day. -/
theorem gmtime_r_spec {t : Int} (hlow : 0 ≤ t) (hhigh : t < 86400 * (2 ^ 31 - 5)) :
    ∃ (year : Int) (k : Nat) (day : Int), 1970 ≤ year ∧ k < 12 ∧ 0 ≤ day ∧ day < days_in_month k year ∧
      new_year_day year + month_sum year k + day = t / 86400 ∧
      gmtime_r t = { tm_sec := t % 60, tm_min := t / 60 % 60, tm_hour := t / 60 / 60 % 24, tm_mday := day + 1
                     tm_mon := k, tm_year := year - 1900, tm_wday := (t / 86400 + 4) % 7
                     tm_yday := month_sum year k + day, tm_isdst := 0 } := by
  -- the number of days, and the time of the day
  have hminutes : 0 ≤ t / 60 := by omega
  have hhours : 0 ≤ t / 60 / 60 := by omega
  have hsec : t.tmod 60 = t % 60 := Int.tmod_eq_emod_of_nonneg hlow
  have hmin : (t.tdiv 60).tmod 60 = t / 60 % 60 := by
    rw [Int.tdiv_eq_ediv_of_nonneg hlow, Int.tmod_eq_emod_of_nonneg hminutes]
  have hhour : ((t.tdiv 60).tdiv 60).tmod 24 = t / 60 / 60 % 24 := by
    rw [Int.tdiv_eq_ediv_of_nonneg hlow, Int.tdiv_eq_ediv_of_nonneg hminutes, Int.tmod_eq_emod_of_nonneg hhours]
  have hdays : ((t.tdiv 60).tdiv 60).tdiv 24 = t / 86400 := by
    rw [Int.tdiv_eq_ediv_of_nonneg hlow, Int.tdiv_eq_ediv_of_nonneg hminutes, Int.tdiv_eq_ediv_of_nonneg hhours]
    omega
  have hwday : (t / 86400 + 4).tmod 7 = (t / 86400 + 4) % 7 := Int.tmod_eq_emod_of_nonneg (by omega)
  have hint : int32 (t / 86400) = t / 86400 := int32_of_range (by omega) (by omega)
  have hweek : int32 (t / 86400 + 4) = t / 86400 + 4 := int32_of_range (by omega) (by omega)
  -- the year, and the month in it
  obtain ⟨hyear, hrest, hshort, hsum⟩ := find_year_spec 1970 (t / 86400) (le_refl 1970) (by omega)
  rw [new_year_day_1970, Int.zero_add] at hsum
  unfold gmtime_r
  simp only [hsec, hmin, hhour, hdays, hint, hweek, hwday]
  generalize (find_year 1970 (t / 86400)).1 = year at hyear hshort hsum ⊢
  generalize (find_year 1970 (t / 86400)).2 = rest at hrest hshort hsum ⊢
  have hmonths : month_sum year 0 + rest < month_sum year 12 := by
    rw [month_sum_twelve]
    exact lt_of_eq_of_lt (Int.zero_add rest) hshort
  obtain ⟨k, hk, day, hfound, hday, hlast, hmonth⟩ := @find_month_spec year 12 0 rest rfl hrest hmonths
  rw [show month_sum year 0 = 0 from rfl, Int.zero_add] at hmonth
  rw [show find_month year 12 0 rest = ((k : Int), day) from hfound, ← hmonth]
  exact ⟨year, k, day, hyear, hk, hday, hlast, by omega, rfl⟩

theorem mktime_spec {tm : Tm} {year day : Int} {k : Nat} (hyear : 1970 ≤ year) (hk : k < 12) (hday : 0 ≤ day)
    (htm_year : tm.tm_year = year - 1900) (htm_mon : tm.tm_mon = k) (htm_mday : tm.tm_mday = day + 1)
    (hlt : new_year_day year + month_sum year k + day < 2 ^ 31) :
    mktime tm = ((new_year_day year + month_sum year k + day) * 86400 + tm.tm_hour * 3600 + tm.tm_min * 60 + tm.tm_sec,
      { tm with
        tm_wday := (new_year_day year + month_sum year k + day + 4) % 7, tm_yday := month_sum year k + day }) := by
  have hepoch : year - 1900 + 1900 = year := Int.sub_add_cancel year 1900
  have hcount : 1970 + ((year - 1970).toNat : Int) = year := by omega
  have hfirst : 0 ≤ new_year_day year := hcount ▸ new_year_day_nonneg (year - 1970).toNat
  have hnonneg := month_sum_nonneg year k
  have hyears : add_years (year - 1970).toNat = new_year_day year := by
    rw [add_years_eq (by rw [hcount]; omega), hcount]
  have hall : add_months (new_year_day year) year k = new_year_day year + month_sum year k :=
    add_months_eq hfirst (by omega)
  have hyday : add_months 0 year k = month_sum year k := by
    rw [add_months_eq (le_refl 0) (by omega), Int.zero_add]
  have hint : int32 (new_year_day year + month_sum year k + day) = new_year_day year + month_sum year k + day :=
    int32_of_range (by omega) hlt
  have hweek : (new_year_day year + month_sum year k + (day + 1) + 3) % 7 =
      (new_year_day year + month_sum year k + day + 4) % 7 := by
    congr 1
    omega
  simp only [mktime, htm_year, htm_mon, htm_mday, hepoch, hyears, hall, hyday, Int.toNat_natCast,
    Int.add_sub_cancel, hint, day_of_week_eq (show 1 ≤ year by omega) hk, hweek]

/-- `mktime` undoes `gmtime_r`, and computes the same weekday and day of the year. -/
theorem gmtime_r_mktime {t : Int} (hlow : 0 ≤ t) (hhigh : t < 86400 * (2 ^ 31 - 5)) :
    InRange (gmtime_r t) ∧ mktime (gmtime_r t) = (t, gmtime_r t) := by
  obtain ⟨year, k, day, hyear, hk, hday, hlast, hnumber, hfields⟩ := gmtime_r_spec hlow hhigh
  rw [hfields]
  constructor
  · refine ⟨?_, ?_, ?_, ?_, ?_⟩
    · change 0 ≤ t % 60 ∧ t % 60 < 60
      omega
    · change 0 ≤ t / 60 % 60 ∧ t / 60 % 60 < 60
      omega
    · change 0 ≤ t / 60 / 60 % 24 ∧ t / 60 / 60 % 24 < 24
      omega
    · change 0 ≤ (k : Int) ∧ (k : Int) < 12
      omega
    · change 1 ≤ day + 1 ∧ day + 1 ≤ days_in_month k (year - 1900 + 1900)
      rw [Int.sub_add_cancel]
      omega
  · rw [mktime_spec hyear hk hday rfl rfl rfl (by omega), hnumber]
    refine Prod.ext ?_ rfl
    change t / 86400 * 86400 + t / 60 / 60 % 24 * 3600 + t / 60 % 60 * 60 + t % 60 = t
    omega

/-- The last second of a leap day. -/
theorem gmtime_r_mktime_leap_day :
    InRange (gmtime_r 951868799) ∧ mktime (gmtime_r 951868799) = (951868799, gmtime_r 951868799) :=
  gmtime_r_mktime (by decide) (by decide)

end graceos.libc
