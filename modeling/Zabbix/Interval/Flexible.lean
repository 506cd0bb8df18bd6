import Zabbix.Interval.Localtime
import Zabbix.Interval.Validate

/-!
# Flexible intervals

The delay that is in effect at a time and the end of the span in which it stays the same, in a
zone with a constant offset from UTC.
-/

namespace Zabbix.Interval

open List Option Zabbix.Expr

variable {n len simple' : ℕ} {text : List Char} {delim : Option ℕ}

def Tm.day (tm : Tm) : ℤ := if tm.wday = 0 then 7 else tm.wday

def checkTimePeriod (period : TimePeriod) (tm : Tm) : Bool :=
  period.startDay ≤ tm.day ∧ tm.day ≤ period.endDay ∧ period.startTime ≤ tm.seconds ∧
    tm.seconds < period.endTime

/-- The loop of `get_current_delay`; -1 is `none`. -/
def currentDelayLoop (offset now : ℤ) : Option ℕ → List FlexibleInterval → Option ℕ
  | currentDelay, [] => currentDelay
  | currentDelay, flex :: flexIntervals =>
    if (∀ delay ∈ currentDelay, flex.delay < delay) ∧
        checkTimePeriod flex.period (zbxLocaltime offset now) then
      currentDelayLoop offset now (some flex.delay) flexIntervals
    else currentDelayLoop offset now currentDelay flexIntervals

def getCurrentDelay (defaultDelay : ℕ) (flexIntervals : List FlexibleInterval) (offset now : ℤ) :
    ℕ :=
  (currentDelayLoop offset now none flexIntervals).getD defaultDelay

/-- The seconds from midnight to the next start or end of a period, in `get_next_delay_interval`. -/
def nextCandidate (p : TimePeriod) (day time : ℤ) : ℤ :=
  if p.startDay ≤ day ∧ day ≤ p.endDay ∧ time < p.endTime then
    if time < p.startTime then p.startTime else p.endTime
  else if day < p.endDay then
    if day < p.startDay then secPerDay * (p.startDay - day) + p.startTime
    else secPerDay + p.startTime
  else secPerDay * (p.startDay + 7 - day) + p.startTime

def nextDelayLoop (day time : ℤ) : ℤ → List FlexibleInterval → ℤ
  | next, [] => next
  | next, flex :: flexIntervals =>
    let candidate := nextCandidate flex.period day time
    nextDelayLoop day time (if next = 0 ∨ candidate < next then candidate else next) flexIntervals

def getNextDelayInterval (flexIntervals : List FlexibleInterval) (offset now : ℤ) : Option ℤ :=
  if flexIntervals = [] then none
  else
    let tm := zbxLocaltime offset now
    let next := nextDelayLoop tm.day tm.seconds 0 flexIntervals
    if next = 0 then none else some (now - tm.seconds + next)

structure TimePeriod.Valid (p : TimePeriod) : Prop where
  start_pos : 1 ≤ p.startDay
  days : p.startDay ≤ p.endDay
  end_le : p.endDay ≤ 7
  times : p.startTime < p.endTime
  end_time : p.endTime ≤ secPerDay

theorem zbxIsUintNRange_le {s : List Char} {min max value : ℕ}
    (h : zbxIsUintNRange s n min max = some value) : value ≤ max := by
  unfold zbxIsUintNRange at h
  split_ifs at h
  obtain ⟨read, -, hread⟩ := bind_eq_some_iff.mp h
  split_ifs at hread with hrange
  obtain rfl : read = value := Option.some.inj hread
  omega

theorem timeParse_le {time parsedLen : ℕ} (h : timeParse text len = some (time, parsedLen)) :
    time ≤ secPerDay := by
  unfold timeParse at h
  obtain ⟨hours, hhours, h⟩ := bind_eq_some_iff.mp h
  dsimp only at h
  split_ifs at h
  obtain ⟨minutes, hminutes, h⟩ := bind_eq_some_iff.mp h
  split_ifs at h with hlast
  have hhour := zbxIsUintNRange_le hhours
  have hminute := zbxIsUintNRange_le hminutes
  have htime : secPerHour * hours + secPerMin * minutes = time :=
    congrArg Prod.fst (Option.some.inj h)
  simp only [secPerHour, secPerMin, secPerDay] at *
  omega

theorem dayParse_range {day : ℕ} (h : dayParse text len = some day) : 1 ≤ day ∧ day ≤ 7 := by
  unfold dayParse at h
  split_ifs at h with hrange
  obtain rfl := Option.some.inj h
  have hlow : '1'.toNat ≤ (charAt text).toNat := by
    by_contra hlt
    exact hrange (Or.inr (Or.inl (Char.lt_def.mpr (UInt32.lt_iff_toNat_lt.mpr (by
      simpa using hlt)))))
  have hhigh : (charAt text).toNat ≤ '7'.toNat := by
    by_contra hlt
    exact hrange (Or.inr (Or.inr (Char.lt_def.mpr (UInt32.lt_iff_toNat_lt.mpr (by
      simpa using hlt)))))
  have hone : '1'.toNat = 49 := rfl
  have hseven : '7'.toNat = 55 := rfl
  have hzero : '0'.toNat = 48 := rfl
  omega

theorem daysParse_range {rest : List Char} {startDay endDay : ℕ}
    (h : daysParse text len = some (startDay, endDay, rest, n)) :
    1 ≤ startDay ∧ startDay ≤ endDay ∧ endDay ≤ 7 := by
  unfold daysParse at h
  obtain ⟨first, hfirst, h⟩ := bind_eq_some_iff.mp h
  have hstart := dayParse_range hfirst
  split_ifs at h
  · obtain ⟨last, hlast, h⟩ := bind_eq_some_iff.mp h
    have hend := dayParse_range hlast
    split_ifs at h
    obtain ⟨rfl, rfl, -⟩ := Option.some.inj h
    omega
  · obtain ⟨rfl, rfl, -⟩ := Option.some.inj h
    omega

variable {p : TimePeriod}

theorem timePeriodParse_valid (h : timePeriodParse text len = some p) : p.Valid := by
  unfold timePeriodParse at h
  obtain ⟨⟨startDay, endDay, rest, n⟩, hdays, h⟩ := bind_eq_some_iff.mp h
  obtain ⟨hpos, hle, hseven⟩ := daysParse_range hdays
  dsimp only at h
  split_ifs at h
  obtain ⟨⟨startTime, k⟩, -, h⟩ := bind_eq_some_iff.mp h
  dsimp only at h
  split_ifs at h
  obtain ⟨⟨endTime, l⟩, hend, h⟩ := bind_eq_some_iff.mp h
  dsimp only at h
  split_ifs at h with htimes
  obtain rfl := Option.some.inj h
  exact ⟨hpos, hle, hseven, Nat.lt_of_not_le htimes, timeParse_le hend⟩

theorem flexibleIntervalParse_valid {flex : FlexibleInterval}
    (h : flexibleIntervalParse text len = some flex) : flex.period.Valid := by
  unfold flexibleIntervalParse at h
  obtain ⟨delay, -, h⟩ := bind_eq_some_iff.mp h
  dsimp only at h
  split_ifs at h
  obtain ⟨p, hp, rfl⟩ := map_eq_some_iff.mp h
  exact timePeriodParse_valid hp

def CustomInterval.Valid (custom : CustomInterval) : Prop :=
  ∀ flex ∈ custom.flexible, flex.period.Valid

variable {custom custom' : CustomInterval}

theorem preprocFinish_valid {simple : ℕ} (hvalid : custom.Valid)
    (h : preprocFinish simple custom text delim = .ok (simple', custom')) : custom'.Valid := by
  unfold preprocFinish at h
  split_ifs at h
  obtain ⟨-, rfl⟩ := Except.ok.inj h
  exact hvalid

theorem preprocLoop_valid {simple fuel : ℕ} (hvalid : custom.Valid)
    (h : preprocLoop simple fuel custom text delim = .ok (simple', custom')) : custom'.Valid := by
  induction fuel generalizing custom text delim with
  | zero => exact preprocFinish_valid hvalid h
  | succ fuel ih =>
    cases delim with
    | none => exact preprocFinish_valid hvalid h
    | some i =>
      rw [preprocLoop] at h
      split_ifs at h
      · split at h
        · contradiction
        · rename_i interval hparse
          split_ifs at h
          refine ih ?_ h
          intro flex hflex
          obtain rfl | hold := mem_cons.mp hflex
          · exact flexibleIntervalParse_valid hparse
          · exact hvalid flex hold
      · split at h
        · contradiction
        · refine ih ?_ h
          exact hvalid

theorem zbxIntervalPreproc_valid {simple : ℕ} (h : zbxIntervalPreproc text = .ok (simple, custom)) :
    custom.Valid := by
  unfold zbxIntervalPreproc at h
  dsimp only at h
  split at h
  · contradiction
  · exact preprocLoop_valid (fun flex hflex => absurd hflex not_mem_nil) h

section

variable {simple : ℕ} {flexIntervals : List FlexibleInterval} {offset s t : ℤ}

def activeDelays (flexIntervals : List FlexibleInterval) (offset t : ℤ) : List ℕ :=
  (flexIntervals.filter fun flex => checkTimePeriod flex.period (zbxLocaltime offset t)).map
    FlexibleInterval.delay

def delayInEffect (simple : ℕ) (flexIntervals : List FlexibleInterval) (offset t : ℤ) : ℕ :=
  (activeDelays flexIntervals offset t).min?.getD simple

theorem currentDelayLoop_some (current : ℕ) : currentDelayLoop offset t (some current) flexIntervals =
    some ((activeDelays flexIntervals offset t).foldl min current) := by
  induction flexIntervals generalizing current with
  | nil => rfl
  | cons flex flexIntervals ih =>
    rw [currentDelayLoop, activeDelays, filter_cons]
    by_cases hactive : checkTimePeriod flex.period (zbxLocaltime offset t) = true
    · rw [if_pos hactive, map_cons, foldl_cons]
      by_cases hless : flex.delay < current
      · rw [if_pos ⟨fun delay hdelay => Option.some.inj hdelay ▸ hless, hactive⟩, ih,
          Nat.min_eq_right hless.le]
        rfl
      · rw [if_neg (fun hboth => hless (hboth.1 current rfl)), ih,
          Nat.min_eq_left (Nat.le_of_not_lt hless)]
        rfl
    · rw [if_neg hactive, if_neg (fun hboth => hactive hboth.2)]
      exact ih current

theorem currentDelayLoop_none :
    currentDelayLoop offset t none flexIntervals = (activeDelays flexIntervals offset t).min? := by
  induction flexIntervals with
  | nil => rfl
  | cons flex flexIntervals ih =>
    rw [currentDelayLoop, activeDelays, filter_cons]
    by_cases hactive : checkTimePeriod flex.period (zbxLocaltime offset t) = true
    · rw [if_pos hactive, if_pos ⟨fun delay hdelay => (nomatch hdelay), hactive⟩, map_cons,
        List.min?_cons', currentDelayLoop_some]
      rfl
    · rw [if_neg hactive, if_neg (fun hboth => hactive hboth.2)]
      exact ih

theorem getCurrentDelay_eq :
    getCurrentDelay simple flexIntervals offset t = delayInEffect simple flexIntervals offset t := by
  rw [getCurrentDelay, currentDelayLoop_none, delayInEffect]

theorem localtime_day : (zbxLocaltime offset t).day = ((t + offset) / 86400 + 3) % 7 + 1 := by
  have hwday := localtime_mondayWday offset t
  rw [Tm.mondayWday] at hwday
  rw [Tm.day]
  omega

theorem checkTimePeriod_until (hp : p.Valid) (hle : t ≤ s)
    (hlt : s < t - (zbxLocaltime offset t).seconds +
      nextCandidate p (zbxLocaltime offset t).day (zbxLocaltime offset t).seconds) :
    checkTimePeriod p (zbxLocaltime offset s) = checkTimePeriod p (zbxLocaltime offset t) := by
  obtain ⟨hstart, hdays, hend, htimes, hlast⟩ := hp
  rw [checkTimePeriod, checkTimePeriod, decide_eq_decide]
  simp only [localtime_day, localtime_seconds, nextCandidate, secPerDay] at *
  have hday : (t + offset) / 86400 ≤ (s + offset) / 86400 := by omega
  have htime : t + offset = 86400 * ((t + offset) / 86400) + (t + offset) % 86400 := by omega
  have htime' : s + offset = 86400 * ((s + offset) / 86400) + (s + offset) % 86400 := by omega
  have hrange : 0 ≤ (t + offset) % 86400 ∧ (t + offset) % 86400 < 86400 := by omega
  have hrange' : 0 ≤ (s + offset) % 86400 ∧ (s + offset) % 86400 < 86400 := by omega
  generalize (t + offset) / 86400 = day at *
  generalize (s + offset) / 86400 = day' at *
  generalize (t + offset) % 86400 = time at *
  generalize (s + offset) % 86400 = time' at *
  split_ifs at hlt with htoday hbefore hweek hlater
  · omega
  · omega
  · omega
  · omega
  · omega

theorem lt_nextCandidate (hp : p.Valid) : (zbxLocaltime offset t).seconds <
    nextCandidate p (zbxLocaltime offset t).day (zbxLocaltime offset t).seconds := by
  obtain ⟨hstart, hdays, hend, htimes, hlast⟩ := hp
  simp only [localtime_day, localtime_seconds, nextCandidate, secPerDay] at *
  split_ifs <;> omega

theorem nextDelayLoop_spec {day time next : ℤ} (htime : 0 ≤ time)
    (hcandidates : ∀ flex ∈ flexIntervals, time < nextCandidate flex.period day time)
    (hnext : next = 0 ∨ time < next) :
    (next ≠ 0 ∨ flexIntervals ≠ [] → time < nextDelayLoop day time next flexIntervals) ∧
      (next ≠ 0 → nextDelayLoop day time next flexIntervals ≤ next) ∧
      ∀ flex ∈ flexIntervals,
        nextDelayLoop day time next flexIntervals ≤ nextCandidate flex.period day time := by
  induction flexIntervals generalizing next with
  | nil =>
    refine ⟨?_, fun _ => le_rfl, fun flex hflex => absurd hflex not_mem_nil⟩
    intro hsome
    exact hnext.resolve_left (hsome.resolve_right (not_not_intro rfl))
  | cons flex flexIntervals ih =>
    have hcandidate := hcandidates flex mem_cons_self
    have hrest : ∀ other ∈ flexIntervals, time < nextCandidate other.period day time :=
      fun other hother => hcandidates other (mem_cons_of_mem flex hother)
    rw [nextDelayLoop]
    generalize hkept : (if next = 0 ∨ nextCandidate flex.period day time < next then
      nextCandidate flex.period day time else next) = kept
    have hless : time < kept ∧ kept ≤ nextCandidate flex.period day time ∧
        (next ≠ 0 → kept ≤ next) := by
      split_ifs at hkept <;> omega
    obtain ⟨hlt, hle, hall⟩ := ih hrest (Or.inr hless.1)
    have hbound := hle (by omega)
    refine ⟨fun _ => hlt (Or.inl (by omega)), fun hne => hbound.trans (hless.2.2 hne), ?_⟩
    intro other hother
    obtain rfl | hother := mem_cons.mp hother
    · exact hbound.trans hless.2.1
    · exact hall other hother

theorem getNextDelayInterval_none (hvalid : ∀ flex ∈ flexIntervals, flex.period.Valid)
    (h : getNextDelayInterval flexIntervals offset t = none) : flexIntervals = [] := by
  by_contra hne
  have hseconds : 0 ≤ (zbxLocaltime offset t).seconds := by
    rw [localtime_seconds]
    omega
  have hlt := (nextDelayLoop_spec hseconds (fun flex hflex => lt_nextCandidate (hvalid flex hflex))
    (Or.inl rfl)).1 (Or.inr hne)
  rw [getNextDelayInterval, if_neg hne] at h
  dsimp only at h
  rw [if_neg (by omega)] at h
  contradiction

theorem getNextDelayInterval_some (simple : ℕ) (hvalid : ∀ flex ∈ flexIntervals, flex.period.Valid) {stop : ℤ}
    (h : getNextDelayInterval flexIntervals offset t = some stop) : t < stop ∧ ∀ s, t ≤ s → s < stop →
      delayInEffect simple flexIntervals offset s = delayInEffect simple flexIntervals offset t := by
  have hseconds : 0 ≤ (zbxLocaltime offset t).seconds := by
    rw [localtime_seconds]
    omega
  obtain ⟨hlt, -, hle⟩ := nextDelayLoop_spec hseconds
    (fun flex hflex => lt_nextCandidate (hvalid flex hflex)) (Or.inl rfl)
  rw [getNextDelayInterval] at h
  dsimp only at h
  split_ifs at h with hne hzero
  obtain rfl := Option.some.inj h
  have hpos := hlt (Or.inr hne)
  refine ⟨by omega, ?_⟩
  intro s hs hstop
  have hsame : activeDelays flexIntervals offset s = activeDelays flexIntervals offset t := by
    unfold activeDelays
    congr 1
    apply filter_congr
    intro flex hflex
    have hcandidate := hle flex hflex
    exact checkTimePeriod_until (hvalid flex hflex) hs (by omega)
  rw [delayInEffect, delayInEffect, hsame]

end

end Zabbix.Interval
