import Zabbix.Interval.Localtime

/-!
# Maintenance periods

`dbconfig_maintenance.c`: whether a maintenance period is running, in a time zone with a constant
offset. The times of a maintenance come from columns of 32 bits, so that no product of seconds
overflows.
-/

namespace Zabbix.Maintenance

open Zabbix.Interval

inductive TimeperiodType
  | onetime
  | daily
  | weekly
  | monthly
  | unknown
  deriving DecidableEq

structure DcMaintenance where
  activeSince : ℤ
  activeUntil : ℤ

structure DcMaintenancePeriod where
  type : TimeperiodType
  every : ℤ
  month : ℕ
  dayofweek : ℕ
  day : ℤ
  startTime : ℤ
  period : ℤ
  startDate : ℤ

variable (offset : ℤ)

def dcSubtractTime (minuend subtrahend : ℤ) : ℤ :=
  let offsetMin := offset
  let diff := minuend - subtrahend
  let offsetDiff := offset
  diff - (offsetDiff - offsetMin)

def weeklyStart (p : DcMaintenancePeriod) (activeSince startDate : ℤ) : Bool :=
  let week := (startDate - activeSince).tdiv 604800
  week.tmod p.every = 0 &&
    p.dayofweek.testBit (zbxLocaltime offset startDate).mondayWday.toNat

def monthlyStart (p : DcMaintenancePeriod) (startDate : ℤ) : Bool :=
  let tm := zbxLocaltime offset startDate
  p.month.testBit tm.mon.toNat &&
    if p.day ≠ 0 then p.day = tm.mday
    else
      let day := (tm.mday - 1).tdiv 7 + 1
      p.dayofweek.testBit tm.mondayWday.toNat &&
        -- the last week
        if p.every = 5 ∧ day = 4 then !(tm.mday + 7 ≤ dayInMonth (1900 + tm.year) (tm.mon + 1))
        else p.every = day

def searchBack (check : ℤ → Bool) (activeSince : ℤ) : ℕ → ℤ → ℤ
  | 0, startDate => startDate
  | fuel + 1, startDate =>
    if activeSince ≤ startDate then
      if check startDate then startDate
      else searchBack check activeSince fuel (dcSubtractTime offset startDate 86400)
    else startDate

/-- The steps after which `searchBack` is before `activeSince`. -/
def searchFuel (activeSince startDate : ℤ) : ℕ := ((startDate - activeSince) / 86400 + 1).toNat

def runningFrom (m : DcMaintenance) (p : DcMaintenancePeriod) (startDate : ℤ) : ℤ × ℤ :=
  (startDate, if m.activeUntil < startDate + p.period then m.activeUntil else startDate + p.period)

/-- `dc_calculate_maintenance_period`: `running_since` and `running_until`. The second comparison of
the day with `active_since` in the monthly loop never applies. -/
def dcCalculateMaintenancePeriod (m : DcMaintenance) (p : DcMaintenancePeriod) (startDate : ℤ) :
    Option (ℤ × ℤ) :=
  let activeSince := m.activeSince
  match p.type with
  | .onetime =>
    some (if p.startDate < activeSince then activeSince else p.startDate,
      (runningFrom m p p.startDate).2)
  | .daily =>
    if startDate < activeSince then none
    else
      let tm := zbxLocaltime offset activeSince
      let activeSince := dcSubtractTime offset activeSince tm.seconds
      let day := (startDate - activeSince).tdiv 86400
      some (runningFrom m p (dcSubtractTime offset startDate (86400 * day.tmod p.every)))
  | .weekly =>
    if startDate < activeSince then none
    else
      let tm := zbxLocaltime offset activeSince
      let activeSince := dcSubtractTime offset activeSince (tm.mondayWday * 86400 + tm.seconds)
      some (runningFrom m p (searchBack offset (weeklyStart offset p activeSince) activeSince
        (searchFuel activeSince startDate) startDate))
  | .monthly =>
    some (runningFrom m p (searchBack offset (monthlyStart offset p) activeSince
      (searchFuel activeSince startDate) startDate))
  | .unknown => none

def dcCheckMaintenancePeriod (m : DcMaintenance) (p : DcMaintenancePeriod) (now : ℤ) :
    Option (ℤ × ℤ) :=
  let seconds := (zbxLocaltime offset now).seconds
  let periodStart := dcSubtractTime offset (dcSubtractTime offset now seconds) (-p.startTime)
  if p.startTime ≠ (zbxLocaltime offset periodStart).seconds then none
  else
    let periodStart :=
      if now < periodStart then dcSubtractTime offset periodStart 86400 else periodStart
    (dcCalculateMaintenancePeriod offset m p periodStart).filter fun (since, until') =>
      since ≤ now && now < until'

end Zabbix.Maintenance
