import Zabbix.Interval.Localtime
import Zabbix.Interval.Parse

/-!
# Periods and shifts

The time arithmetic of `time.c` in a zone with a constant offset, where the clock is never changed,
and the parsing of trend function periods in `trends.c`. Pointers into the parameter are what is
left of it; its terminator is the end of the list.
-/

namespace Zabbix.Trends

open Zabbix.Expr Zabbix.Interval

def toInt (x : ℤ) : ℤ := Int.bmod x (2 ^ 32)

inductive TimeUnit
  | unknown
  | second
  | minute
  | hour
  | day
  | week
  | month
  | year
  deriving DecidableEq

def TimeUnit.rank : TimeUnit → ℕ
  | .unknown => 0
  | .second => 1
  | .minute => 2
  | .hour => 3
  | .day => 4
  | .week => 5
  | .month => 6
  | .year => 7

def timeUnitSeconds : TimeUnit → ℤ
  | .unknown => 0
  | .second => 1
  | .minute => 60
  | .hour => 3600
  | .day => 86400
  | .week => 604800
  | .month => 0
  | .year => 0

def periodHours : TimeUnit → ℤ
  | .unknown => 0
  | .second => 0
  | .minute => 0
  | .hour => 1
  | .day => 24
  | .week => 24 * 7
  | .month => 24 * 30
  | .year => 24 * 365

def zbxTmStrToUnit (text : List Char) : TimeUnit :=
  match charAt text with
  | 's' => .second
  | 'm' => .minute
  | 'h' => .hour
  | 'd' => .day
  | 'w' => .week
  | 'M' => .month
  | 'y' => .year
  | _ => .unknown

def zbxTmParsePeriod (period : List Char) : Except (List Char) (ℕ × ℤ × TimeUnit) :=
  let n := (period.takeWhile isdigit).length
  match zbxIsUintNRange period n 0 (2 ^ 32 - 1) with
  | none => .error "invalid period multiplier".toList
  | some multiplier =>
    let base := zbxTmStrToUnit (period.drop n)
    if base = .unknown then .error "invalid period time unit".toList
    else .ok (n + 1, toInt multiplier, base)

def mktime (offset : ℤ) (tm : Tm) : ℤ :=
  (firstDay (12 * (tm.year - 70) + tm.mon) + tm.mday - 1) * 86400 + tm.seconds - offset

/-- `zbx_localtime`; of a time with a year that is no `int` it gives the first one. -/
def localtimeOrZero (offset time : ℤ) : Tm :=
  let tm := zbxLocaltime offset time
  if toInt tm.year = tm.year then tm else zbxLocaltime offset 0

def tmAddSeconds (offset : ℤ) (tm : Tm) (seconds : ℤ) : Tm :=
  let time := mktime offset tm
  if time = -1 then tm else localtimeOrZero offset (time + seconds)

def tmAddYears (tm : Tm) (multiplier : ℤ) : Tm := { tm with year := toInt (tm.year + multiplier) }

def tmAddMonths (tm : Tm) (multiplier : ℤ) : Tm :=
  let tm := { tm with mon := toInt (tm.mon + multiplier) }
  if 12 ≤ tm.mon then tmAddYears { tm with mon := tm.mon.tmod 12 } (tm.mon.tdiv 12) else tm

def carryDays : ℕ → Tm → Tm
  | 0, tm => tm
  | fuel + 1, tm =>
    let shift : ℤ := dayInMonth (tm.year + 1900) (tm.mon + 1)
    if shift < tm.mday then carryDays fuel (tmAddMonths { tm with mday := tm.mday - shift } 1)
    else tm

def tmAddDays (tm : Tm) (multiplier : ℤ) : Tm :=
  let mday := toInt (tm.mday + multiplier)
  let tm := carryDays mday.toNat { tm with mday }
  { tm with wday := (toInt (tm.wday + multiplier)).tmod 7 }

def tmAdd (tm : Tm) (multiplier : ℤ) : TimeUnit → Tm
  | .hour =>
    let tm := { tm with hour := toInt (tm.hour + multiplier) }
    if 24 ≤ tm.hour then tmAddDays { tm with hour := tm.hour.tmod 24 } (tm.hour.tdiv 24) else tm
  | .day => tmAddDays tm multiplier
  | .week => tmAddDays tm (toInt (multiplier * 7))
  | .month => tmAddMonths tm multiplier
  | .year => tmAddYears tm multiplier
  | _ => tm

def clipDay (tm : Tm) : Tm :=
  let daysMax : ℤ := dayInMonth (tm.year + 1900) (tm.mon + 1)
  if daysMax < tm.mday then { tm with mday := daysMax } else tm

def zbxTmAdd (offset : ℤ) (tm : Tm) (multiplier : ℤ) (base : TimeUnit) : Tm :=
  let tm := if base = .month ∨ base = .year then clipDay (tmAdd tm multiplier base) else tm
  tmAddSeconds offset tm (toInt (multiplier * timeUnitSeconds base))

def negToPosWrap (value base : ℤ) : ℤ :=
  let reminder := value.tmod base
  if reminder = 0 then 0 else base + reminder

def tmSubYears (tm : Tm) (multiplier : ℤ) : Tm := { tm with year := toInt (tm.year - multiplier) }

def tmSubMonths (tm : Tm) (multiplier : ℤ) : Tm :=
  let mon := toInt (tm.mon - multiplier)
  if mon < 0 then
    let shift := (-mon).tdiv 12
    let tm := { tm with mon := negToPosWrap mon 12 }
    tmSubYears tm (if tm.mon ≠ 0 then shift + 1 else shift)
  else { tm with mon }

def borrowDays : ℕ → Tm → Tm
  | 0, tm => tm
  | fuel + 1, tm =>
    if tm.mday ≤ 0 then
      let prevMon := (if tm.mon - 1 < 0 then 11 else tm.mon - 1) + 1
      let days : ℤ := dayInMonth (tm.year + 1900) prevMon
      borrowDays fuel (tmSubMonths { tm with mday := tm.mday + days } 1)
    else tm

def tmSubDays (tm : Tm) (multiplier : ℤ) : Tm :=
  let mday := toInt (tm.mday - multiplier)
  let tm := borrowDays ((-mday).toNat + 1) { tm with mday }
  let wday := toInt (tm.wday - multiplier)
  { tm with wday := if wday < 0 then negToPosWrap wday 7 else wday }

def tmSub (tm : Tm) (multiplier : ℤ) : TimeUnit → Tm
  | .hour =>
    let hour := toInt (tm.hour - multiplier)
    if hour < 0 then
      let shift := (-hour).tdiv 24
      let tm := { tm with hour := negToPosWrap hour 24 }
      tmSubDays tm (if tm.hour ≠ 0 then shift + 1 else shift)
    else { tm with hour }
  | .day => tmSubDays tm multiplier
  | .week => tmSubDays tm (toInt (multiplier * 7))
  | .month => tmSubMonths tm multiplier
  | .year => tmSubYears tm multiplier
  | _ => tm

def zbxTmSub (offset : ℤ) (tm : Tm) (multiplier : ℤ) (base : TimeUnit) : Tm :=
  let tm := if base = .month ∨ base = .year then clipDay (tmSub tm multiplier base) else tm
  tmAddSeconds offset tm (toInt (toInt (-multiplier) * timeUnitSeconds base))

def zbxTmRoundDown (offset : ℤ) (tm : Tm) (base : TimeUnit) : Tm :=
  let tm := match base with
    | .week =>
      let tm :=
        if tm.wday ≠ 1 then
          { zbxTmSub offset tm (if tm.wday = 0 then 6 else tm.wday - 1) .day with wday := 1 }
        else tm
      { tm with hour := 0, min := 0, sec := 0 }
    | .year => { tm with mon := 0, mday := 1, hour := 0, min := 0, sec := 0 }
    | .month => { tm with mday := 1, hour := 0, min := 0, sec := 0 }
    | .day => { tm with hour := 0, min := 0, sec := 0 }
    | .hour => { tm with min := 0, sec := 0 }
    | .minute => { tm with sec := 0 }
    | _ => tm
  tmAddSeconds offset tm 0

/-- How parsing stops without a result: with a read past the terminator or with an error. -/
inductive Stop
  | overread
  | error (message : List Char)
  deriving DecidableEq

def advance (n : ℕ) (text : List Char) : Except Stop (List Char) :=
  if n ≤ text.length then .ok (text.drop n) else .error .overread

def fail {α : Type} (message : String) (text : List Char) : Except Stop α :=
  .error (.error (message.toList ++ text))

def parseShift (offset : ℤ) (minTimeUnit : TimeUnit) : ℕ → List Char → Tm → Except Stop Tm
  | 0, _, tm => .ok tm
  | fuel + 1, p, tm =>
    if charAt p = '\x00' then .ok tm
    else if charAt p = '/' then
      (advance 1 p).bind fun p =>
        let unit := zbxTmStrToUnit p
        if unit = .unknown then fail "unexpected character starting with " ('"' :: p ++ ['"'])
        else if unit.rank < minTimeUnit.rank then
          fail "time units in time shift must be greater or equal to period time unit" []
        else
          (advance 1 p).bind fun p =>
            parseShift offset minTimeUnit fuel p (zbxTmRoundDown offset tm unit)
    else if charAt p = '+' ∨ charAt p = '-' then
      (advance 1 p).bind fun rest =>
        match zbxTmParsePeriod rest with
        | .error message => .error (.error message)
        | .ok (len, num, unit) =>
          if unit.rank < minTimeUnit.rank then
            fail "time units in period shift must be greater or equal to period time unit" []
          else
            let tm := if charAt p = '+' then zbxTmAdd offset tm num unit
              else zbxTmSub offset tm num unit
            (advance len rest).bind fun p => parseShift offset minTimeUnit fuel p tm
    else fail "unexpected character starting with " ('"' :: p ++ ['"'])

def trendsParseTimeshift (offset from_ : ℤ) (timeshift : List Char) (minTimeUnit : TimeUnit) :
    Except Stop Tm :=
  if timeshift.take 3 ≠ ['n', 'o', 'w'] then fail "time shift must begin with \"now\"" []
  else
    let p := timeshift.drop 3
    parseShift offset minTimeUnit (p.length + 1) p (localtimeOrZero offset from_)

def zbxTrendsParseRange (offset from_ : ℤ) (param : List Char) : Except Stop (ℤ × ℤ) :=
  match zbxTmParsePeriod param with
  | .error message => .error (.error message)
  | .ok (len, periodNum, periodUnit) =>
    (advance len param).bind fun p =>
      if charAt p ≠ '\x00' ∧ charAt p ≠ ':' then
        fail "unexpected character[s] in period " ('"' :: p ++ ['"'])
      else if periodNum = 0 then fail "period cannot be zero" []
      else if 24 * 366 < toInt (periodHours periodUnit * periodNum) then
        fail "period is too large" []
      else
        (advance 1 p).bind fun timeshift =>
          (trendsParseTimeshift offset from_ timeshift periodUnit).bind fun tm =>
            let end_ := mktime offset (zbxTmSub offset tm 1 .hour)
            -- the text of `errno` follows
            if end_ = -1 then fail "cannot calculate the period end time: " []
            else if 365 * 86400 * 26 < toInt |toInt (from_ - end_)| then
              fail "period shift is too large" []
            else
              let start := mktime offset (zbxTmSub offset tm periodNum periodUnit)
              if start = -1 then fail "cannot calculate the period start time: " []
              else .ok (start, end_)

end Zabbix.Trends
