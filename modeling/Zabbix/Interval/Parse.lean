import Mathlib.Algebra.Group.Nat.Defs
import Zabbix.Expr.Text

/-!
# Update intervals

The parsers of time suffixes, times of the day, flexible intervals and scheduling intervals. A text
is the rest of the string from a pointer on, and `len` is the number of characters that may be read;
the parser looks at the character behind them as the source does.
-/

namespace Zabbix.Interval

open Zabbix.Expr

def secPerMin : ℕ := 60

def secPerHour : ℕ := 3600

def secPerDay : ℕ := 86400

def secPerWeek : ℕ := 604800

/-- The value of digits that does not exceed `limit` on the way; `acc` is what was read before. -/
def readDigits (limit : ℕ) : ℕ → List Char → Option ℕ
  | acc, [] => some acc
  | acc, c :: cs =>
    let c := c.toNat - '0'.toNat
    if (limit - c) / 10 < acc then none else readDigits limit (acc * 10 + c) cs

def zbxIsUintNRange (s : List Char) (n min max : ℕ) : Option ℕ :=
  if s = [] ∨ n = 0 then none
  else if (s.take n).all isdigit then
    (readDigits (2 ^ 64 - 1) 0 (s.take n)).bind fun value =>
      if min > value ∨ value > max then none else some value
  else none

def digitsLen (s : List Char) (len : ℤ) : ℕ := ((s.take len.toNat).takeWhile isdigit).length

def zbxLengthUnlimited : ℕ := 0x7fffffff

def suffixFactor (c : Char) : Option ℕ :=
  if c = 's' then some 1
  else if c = 'm' then some secPerMin
  else if c = 'h' then some secPerHour
  else if c = 'd' then some secPerDay
  else if c = 'w' then some secPerWeek
  else none

def zbxIsTimeSuffix (s : List Char) (length : ℕ) : Option ℕ :=
  if length = 0 ∨ isdigit (charAt s) = false then none
  else
    let n := digitsLen s length
    let rest := s.drop n
    let len := length - n
    (readDigits 0x7fffffff 0 (s.take n)).bind fun value =>
      let suffix :=
        if rest ≠ [] ∧ 0 < len then
          (suffixFactor (charAt rest)).map fun factor => (factor, rest.tail, len - 1)
        else some (1, rest, len)
      suffix.bind fun (factor, rest, len) =>
        if (length = zbxLengthUnlimited ∧ rest ≠ []) ∨ (length ≠ zbxLengthUnlimited ∧ len ≠ 0) then
          none
        else if 0x7fffffff / factor < value then none
        else some (value * factor)

structure TimePeriod where
  startDay : ℕ
  endDay : ℕ
  startTime : ℕ
  endTime : ℕ
  deriving DecidableEq

def timeParse (text : List Char) (len : ℕ) : Option (ℕ × ℕ) :=
  let n := digitsLen text (min len 3)
  (zbxIsUintNRange text n 0 24).bind fun hours =>
    let ptr := text.drop n
    if len - n = 0 ∨ charAt ptr ≠ ':' then none
    else
      let len' := len - n - 1
      let m := digitsLen ptr.tail (min len' 3)
      if m ≠ 2 then none
      else
        (zbxIsUintNRange ptr.tail 2 0 59).bind fun minutes =>
          if hours = 24 ∧ minutes ≠ 0 then none
          else some (secPerHour * hours + secPerMin * minutes, n + 1 + m)

def dayParse (text : List Char) (len : ℕ) : Option ℕ :=
  if len = 0 ∨ charAt text < '1' ∨ '7' < charAt text then none
  else some ((charAt text).toNat - '0'.toNat)

/-- The week days of `time_period_parse` with the rest of the text. -/
def daysParse (text : List Char) (len : ℕ) : Option (ℕ × ℕ × List Char × ℕ) :=
  (dayParse text len).bind fun startDay =>
    if len - 1 = 0 then none
    else if charAt text.tail = '-' then
      (dayParse text.tail.tail (len - 2)).bind fun endDay =>
        if startDay > endDay then none else some (startDay, endDay, text.tail.tail.tail, len - 3)
    else some (startDay, startDay, text.tail, len - 1)

def timePeriodParse (text : List Char) (len : ℕ) : Option TimePeriod :=
  (daysParse text len).bind fun (startDay, endDay, text, len) =>
    if len = 0 ∨ charAt text ≠ ',' then none
    else
      (timeParse text.tail (len - 1)).bind fun (startTime, parsedLen) =>
        let text := text.tail.drop parsedLen
        let len := len - 1 - parsedLen
        if len = 0 ∨ charAt text ≠ '-' then none
        else
          (timeParse text.tail (len - 1)).bind fun (endTime, parsedLen) =>
            if startTime ≥ endTime then none
            else if len - 1 - parsedLen ≠ 0 then none
            else some ⟨startDay, endDay, startTime, endTime⟩

structure FlexibleInterval where
  period : TimePeriod
  delay : ℕ
  deriving DecidableEq

def flexibleIntervalParse (text : List Char) (len : ℕ) : Option FlexibleInterval :=
  let n := ((text.take len).takeWhile (· ≠ '/')).length
  (zbxIsTimeSuffix text n).bind fun delay =>
    let ptr := text.drop n
    if len - n = 0 ∨ charAt ptr ≠ '/' then none
    else (timePeriodParse ptr.tail (len - n - 1)).map fun period => ⟨period, delay⟩

structure SchedulerFilter where
  start : ℕ
  stop : ℕ
  step : ℕ
  deriving DecidableEq

def parseRange (text : List Char) (len : ℤ) (min max varLen : ℕ) : Option (ℕ × ℕ × List Char × ℤ) :=
  let n := digitsLen text len
  let pend := text.drop n
  let len := len - n
  if n ≠ 0 then
    if n > varLen then none
    else
      (zbxIsUintNRange text n min max).bind fun start =>
        if charAt pend = '-' then
          let m := digitsLen pend.tail (len - 1)
          if m = 0 ∨ m > varLen then none
          else
            (zbxIsUintNRange pend.tail m min max).bind fun stop =>
              if stop < start then none else some (start, stop, pend.tail.drop m, len - 1 - m)
        else if charAt pend = '/' then none
        else some (start, start, pend, len)
  else some (min, max, pend, len)

/-- One filter with the rest of the text, in `scheduler_parse_filter_r`. -/
def parseFilter (text : List Char) (len : ℤ) (min max varLen : ℕ) :
    Option (SchedulerFilter × List Char × ℤ) :=
  (parseRange text len min max varLen).bind fun (start, stop, pend, len) =>
    if charAt pend = '/' then
      let m := digitsLen pend.tail (len - 1)
      if m = 0 ∨ m > varLen then none
      else
        (zbxIsUintNRange pend.tail m 1 (stop - start)).map fun step =>
          (⟨start, stop, step⟩, pend.tail.drop m, len - 1 - m)
    else if pend.length = text.length then none
    else some (⟨start, stop, 1⟩, pend, len)

/-- `scheduler_parse_filter_r` with the number of characters that are left; every call takes a
character. -/
def schedulerParseFilterR (min max varLen : ℕ) :
    ℕ → List Char → ℤ → Option (List SchedulerFilter × ℤ)
  | 0, _, _ => none
  | fuel + 1, text, len =>
    (parseFilter text len min max varLen).bind fun (filter, pend, len) =>
      if charAt pend = ',' then
        if len - 1 = 0 then none
        else
          (schedulerParseFilterR min max varLen fuel pend.tail (len - 1)).map fun (filters, len) =>
            (filter :: filters, len)
      else some ([filter], len)

def schedulerParseFilter (filters : List SchedulerFilter) (text : List Char) (len : ℤ)
    (min max varLen : ℕ) : Option (List SchedulerFilter × ℤ) :=
  if filters ≠ [] then none
  else schedulerParseFilterR min max varLen (text.length + 1) text len

def filterDay : ℕ := 1

def filterHour : ℕ := 2

def filterMinute : ℕ := 3

def filterSecond : ℕ := 4

/-- `zbx_scheduler_interval_t`; a filter that is `NULL` is the empty list. -/
structure SchedulerInterval where
  mdays : List SchedulerFilter
  wdays : List SchedulerFilter
  hours : List SchedulerFilter
  minutes : List SchedulerFilter
  seconds : List SchedulerFilter
  filterLevel : ℕ
  deriving DecidableEq

def SchedulerInterval.empty : SchedulerInterval := ⟨[], [], [], [], [], 0⟩

def schedulerIntervalStep (interval : SchedulerInterval) (text : List Char) (len : ℤ) :
    Option (SchedulerInterval × ℤ) :=
  let len := len - 1
  match charAt text with
  | 'h' =>
    if filterHour < interval.filterLevel then none
    else
      (schedulerParseFilter interval.hours text.tail len 0 23 2).map fun (hours, len) =>
        ({ interval with
          hours
          filterLevel := filterHour }, len)
  | 's' =>
    if filterSecond < interval.filterLevel then none
    else
      (schedulerParseFilter interval.seconds text.tail len 0 59 2).map fun (seconds, len) =>
        ({ interval with
          seconds
          filterLevel := filterSecond }, len)
  | 'w' =>
    if charAt text.tail ≠ 'd' then none
    else if filterDay < interval.filterLevel then none
    else
      (schedulerParseFilter interval.wdays text.tail.tail (len - 1) 1 7 1).map fun (wdays, len) =>
        ({ interval with
          wdays
          filterLevel := filterDay }, len)
  | 'm' =>
    if charAt text.tail = 'd' then
      if filterDay < interval.filterLevel ∨ interval.wdays ≠ [] then none
      else
        (schedulerParseFilter interval.mdays text.tail.tail (len - 1) 1 31 2).map
          fun (mdays, len) =>
            ({ interval with
              mdays
              filterLevel := filterDay }, len)
    else if filterMinute < interval.filterLevel then none
    else
      (schedulerParseFilter interval.minutes text.tail len 0 59 2).map fun (minutes, len) =>
        ({ interval with
          minutes
          filterLevel := filterMinute }, len)
  | _ => none

/-- The loop of `scheduler_interval_parse`; every round takes a character. -/
def schedulerIntervalLoop : ℕ → SchedulerInterval → List Char → ℤ → Option SchedulerInterval
  | 0, _, _, _ => none
  | fuel + 1, interval, text, len =>
    if len = 0 then some interval
    else
      (schedulerIntervalStep interval text len).bind fun (interval, len') =>
        schedulerIntervalLoop fuel interval (text.drop (len - len').toNat) len'

def schedulerIntervalParse (text : List Char) (len : ℕ) : Option SchedulerInterval :=
  if len = 0 then none
  else schedulerIntervalLoop (text.length + 1) .empty text len

end Zabbix.Interval
