import Mathlib.Data.Int.Basic

/-!
# `CppLaravel.Scheduler.LocalTime`: local time (`localtime_r`, `mktime`)

A local-time rule has two offsets from UTC and tells of every instant whether daylight-saving
time is in effect. `localtime` breaks an instant down with the offset in effect and reports
which one it is in `tm_isdst`; `mktime` puts the parts together with the offset that `tm_isdst`
names. Instants are seconds since the epoch, without bounds; a day is its number since the
epoch, in place of year, month and day of the month.
-/

set_option autoImplicit false

namespace CppLaravel.Scheduler

/-- A local-time rule. -/
structure LocalRule where
  std : Int
  dst : Int
  isDst : Int → Bool

/-- `std::tm`. -/
structure Tm where
  day : Int
  hour : Int
  min : Int
  sec : Int
  isdst : Bool

namespace LocalRule

variable (rule : LocalRule)

/-- The offset that goes with a value of `tm_isdst`. -/
def offsetOf (isdst : Bool) : Int := if isdst then rule.dst else rule.std

/-- The offset in effect at an instant. -/
def offset (t : Int) : Int := rule.offsetOf (rule.isDst t)

/-- `localtime_r`. -/
def localtime (t : Int) : Tm :=
  let clock := t + rule.offset t
  { day := clock / 86400
    hour := clock % 86400 / 3600
    min := clock % 3600 / 60
    sec := clock % 60
    isdst := rule.isDst t }

/-- `mktime`; the hour, the minute and the second need not be in range. -/
def mktime (tm : Tm) : Int :=
  tm.day * 86400 + tm.hour * 3600 + tm.min * 60 + tm.sec - rule.offsetOf tm.isdst

/-- `mktime` undoes `localtime_r`. -/
theorem mktime_localtime (t : Int) : rule.mktime (rule.localtime t) = t := by
  show _ / 86400 * 86400 + _ % 86400 / 3600 * 3600 + _ % 3600 / 60 * 60 + _ % 60 -
    rule.offset t = t
  omega

/-- The local calendar date of an instant. -/
def date (t : Int) : Int := (rule.localtime t).day

end LocalRule

end CppLaravel.Scheduler
