import Mathlib.Data.Int.Order.Basic
import PhpRuntime.Lib.Calendar

/-!
# Unix time and broken down time

`timelib_unixtime2gmt` (`ext/date/lib/unixtime2tm.c`) breaks a timestamp down to a date
and a time of day; `do_years`, `do_months`, `do_days` and `do_time`
(`ext/date/lib/tm2unixtime.c`) lead back. A `timelib_sll` is an integer between `-2^63`
and `2^63 - 1`; `sll` is the reduction into that range and stands wherever an operation
can leave it, `ull` is the conversion to `timelib_ull`. Division and remainder of the
source round towards zero.
-/

set_option autoImplicit false

namespace PhpRuntime.Date

/-- The range of `timelib_sll`. -/
def SllRange (x : ℤ) : Prop := -9223372036854775808 ≤ x ∧ x < 9223372036854775808

instance (x : ℤ) : Decidable (SllRange x) := by unfold SllRange; infer_instance

/-- The value of type `timelib_sll` with the 64 bits of `x`. -/
def sll (x : ℤ) : ℤ :=
  (x + 9223372036854775808) % 18446744073709551616 - 9223372036854775808

/-- The value of type `timelib_ull` with the 64 bits of `x`. -/
def ull (x : ℤ) : ℤ := x % 18446744073709551616

/-- The fields of `timelib_time` that the conversions read and write. -/
structure Time where
  y : ℤ
  m : ℤ
  d : ℤ
  h : ℤ
  i : ℤ
  s : ℤ
  z : ℤ
  dst : ℤ
  sse : ℤ
  sse_uptodate : ℕ
  tim_uptodate : ℕ
  is_localtime : ℕ
  deriving Repr, DecidableEq

/-- `timelib_time_ctor`: all fields are zero. -/
def timelibTimeCtor : Time := ⟨0, 0, 0, 0, 0, 0, 0, 0, 0, 0, 0, 0⟩

def secsPerEra : ℤ := 12622780800

def secsPerDay : ℤ := 86400

def daysPerYear : ℤ := 365

def daysPerLyear : ℤ := 366

def daysPerLyearPeriod : ℤ := 146097

def yearsPerLyearPeriod : ℤ := 400

/-- The macro `timelib_is_leap`. -/
def timelibIsLeap (y : ℤ) : Bool :=
  y.tmod 4 = 0 ∧ (y.tmod 100 ≠ 0 ∨ y.tmod 400 = 0)

def monthTabLeap : List ℤ := [-1, 30, 59, 90, 120, 151, 181, 212, 243, 273, 304, 334]

def monthTab : List ℤ := [0, 31, 59, 90, 120, 151, 181, 212, 243, 273, 304, 334]

/-- The number of days that a loop over the years adds or subtracts for a year. -/
def daysOf (year : ℤ) : ℤ := if timelibIsLeap year then daysPerLyear else daysPerYear

theorem daysOf_ge (year : ℤ) : 365 ≤ daysOf year := by
  unfold daysOf daysPerLyear daysPerYear
  split <;> omega

/-! ## From the timestamp -/

/-- The loop over the years from 1970 on: `(tmp_days, cur_year)`. -/
def yearsForward (tmpDays curYear : ℤ) : ℤ × ℤ :=
  if daysPerLyear ≤ tmpDays then yearsForward (tmpDays - daysOf (curYear + 1)) (curYear + 1)
  else (tmpDays, curYear)
termination_by tmpDays.toNat
decreasing_by
  have h := daysOf_ge (curYear + 1)
  unfold daysPerLyear at *
  omega

/-- The loop over the years before 1970, which takes 4000 years at once where it can. -/
def yearsBackward (tmpDays curYear : ℤ) : ℤ × ℤ :=
  if tmpDays ≤ 0 then
    if tmpDays < -1460970 then yearsBackward (tmpDays + 1460970) (curYear - 4000)
    else yearsBackward (tmpDays + daysOf (curYear - 1)) (curYear - 1)
  else (tmpDays, curYear)
termination_by (1 - tmpDays).toNat
decreasing_by
  · omega
  · have h := daysOf_ge (curYear - 1)
    omega

/-- The loop that looks for the month, from December down. -/
def findMonth (months : List ℤ) (tmpDays : ℤ) : ℕ → ℕ
  | 0 => 0
  | i + 1 => if months.getD (i + 1) 0 < tmpDays then i + 1 else findMonth months tmpDays i

/-- The whole 400-year periods taken off at once. -/
def skipPeriods (tmpDays curYear : ℤ) : ℤ × ℤ :=
  if daysPerLyearPeriod ≤ tmpDays ∨ tmpDays ≤ -daysPerLyearPeriod then
    (tmpDays - daysPerLyearPeriod * tmpDays.tdiv daysPerLyearPeriod,
      curYear + yearsPerLyearPeriod * tmpDays.tdiv daysPerLyearPeriod)
  else (tmpDays, curYear)

/-- The year of a timestamp, what is left of its days and of its seconds. -/
def splitTimestamp (ts : ℤ) : ℤ × ℤ × ℤ :=
  let days := ts.tdiv secsPerDay
  let remainder := ts - days * secsPerDay
  let fullDay := ts < 0 ∧ remainder = 0
  let days := if fullDay then days + 1 else days
  let remainder := if fullDay then remainder - secsPerDay else remainder
  if 0 ≤ ts then
    let (tmpDays, curYear) := skipPeriods (days + 1) 1970
    let (tmpDays, curYear) := yearsForward tmpDays curYear
    (tmpDays, curYear, remainder)
  else
    let (tmpDays, curYear) := yearsBackward days 1970
    (tmpDays, curYear, remainder + secsPerDay)

/-- `timelib_unixtime2gmt`. None of its operations leaves the range of `timelib_sll`. -/
def timelibUnixtime2gmt (tm : Time) (ts : ℤ) : Time :=
  let (tmpDays, curYear, remainder) := splitTimestamp ts
  let months := if timelibIsLeap curYear then monthTabLeap else monthTab
  let tmpDays := if timelibIsLeap curYear ∧ curYear < 1970 then tmpDays - 1 else tmpDays
  let i := findMonth months tmpDays 11
  let hours := remainder.tdiv 3600
  let minutes := (remainder - hours * 3600).tdiv 60
  let seconds := remainder.tmod 60
  { tm with
    y := curYear
    m := i + 1
    d := tmpDays - months.getD i 0
    h := hours
    i := minutes
    s := seconds
    z := 0
    dst := 0
    sse := ts
    sse_uptodate := 1
    tim_uptodate := 1
    is_localtime := 0 }

/-! ## Back to the timestamp -/

/-- The loop of `do_years` over the years `i, i - 1, ...` down to 1970. -/
def addYears (i res : ℤ) : ℤ :=
  if 1970 ≤ i then addYears (i - 1) (sll (res + daysOf i * secsPerDay)) else res
termination_by (i - 1969).toNat

/-- The loop of `do_years` over the years `i, i - 1, ...` down to `year`. -/
def subYears (year i res : ℤ) : ℤ :=
  if year ≤ i then subYears year (i - 1) (sll (res - daysOf i * secsPerDay)) else res
termination_by (i + 1 - year).toNat

/-- `do_years`. -/
def doYears (year : ℤ) : ℤ :=
  let eras := (sll (year - 1970)).tdiv 40000
  let res := if eras ≠ 0 then sll (sll (secsPerEra * eras) * 100) else 0
  let year := if eras ≠ 0 then year - eras * 40000 else year
  if 1970 ≤ year then addYears (year - 1) res else subYears year 1969 res

/-- `do_months`, whose parameters have type `timelib_ull`. -/
def doMonths (month year : ℤ) : ℤ :=
  let index := (ull (ull month - 1)).toNat
  if timelibIsLeap (ull year) then (monthTabLeap.getD index 0 + 1) * secsPerDay
  else monthTab.getD index 0 * secsPerDay

/-- `do_days`, whose parameter has type `timelib_ull`. -/
def doDays (day : ℤ) : ℤ := sll (ull (ull day - 1) * secsPerDay)

/-- `do_time`, whose parameters have type `timelib_ull`. -/
def doTime (hour minute second : ℤ) : ℤ :=
  let res := 0
  let res := sll (res + ull hour * 3600)
  let res := sll (res + ull minute * 60)
  sll (res + ull second)

/-- The seconds that `timelib_update_ts` adds up from the fields of a time. -/
def epochSeconds (time : Time) : ℤ :=
  let res := 0
  let res := sll (res + doYears time.y)
  let res := sll (res + doMonths time.m time.y)
  let res := sll (res + doDays time.d)
  sll (res + doTime time.h time.i time.s)

end PhpRuntime.Date
