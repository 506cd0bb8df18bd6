import Zabbix.Interval.Calendar

/-!
# Broken-down time

`localtime` in a zone with a constant offset, for times before 1970 as well: the calendar repeats
after 400 years, that is after 4800 months or 146097 days.
-/

namespace Zabbix.Interval

def monthFrom : ℕ → ℕ → ℕ → ℕ × ℕ
  | 0, k, r => (k, r)
  | fuel + 1, k, r => if r < monthDays k then (k, r) else monthFrom fuel (k + 1) (r - monthDays k)

def civil (day : ℤ) : ℤ × ℤ :=
  let r := (day % 146097).toNat
  let (k, d) := monthFrom r 0 r
  (4800 * (day / 146097) + k, d + 1)

structure Tm where
  sec : ℤ
  min : ℤ
  hour : ℤ
  mday : ℤ
  mon : ℤ
  -- from 1900
  year : ℤ
  -- from Sunday
  wday : ℤ

def Tm.seconds (tm : Tm) : ℤ := tm.hour * 3600 + tm.min * 60 + tm.sec

def Tm.mondayWday (tm : Tm) : ℤ := (if tm.wday = 0 then 7 else tm.wday) - 1

def zbxLocaltime (offset time : ℤ) : Tm :=
  let day := (time + offset) / 86400
  let s := (time + offset) % 86400
  let (month, mday) := civil day
  { sec := s % 60
    min := s % 3600 / 60
    hour := s / 3600
    mday := mday
    mon := month % 12
    year := 70 + month / 12
    wday := (day + 4) % 7 }

def dayInMonth (year mon : ℤ) : ℕ := zbxDayInMonth (year % 400).toNat mon.toNat

theorem monthDays_pos (k : ℕ) : 0 < monthDays k := by
  have := le_monthDays k
  omega

theorem monthFrom_spec {fuel k r : ℕ} (h : r ≤ fuel) :
    ∃ k' d, monthFrom fuel k r = (k', d) ∧ d < monthDays k' ∧
      monthStart k + r = monthStart k' + d := by
  induction fuel generalizing k r with
  | zero =>
    obtain rfl : r = 0 := Nat.le_zero.mp h
    exact ⟨k, 0, rfl, monthDays_pos k, rfl⟩
  | succ fuel ih =>
    have hpos := monthDays_pos k
    rw [monthFrom]
    split_ifs with hr
    · exact ⟨k, r, rfl, hr, rfl⟩
    · obtain ⟨k', d, heq, hd, hstart⟩ := ih (k := k + 1) (r := r - monthDays k) (by omega)
      refine ⟨k', d, heq, hd, ?_⟩
      rw [monthStart] at hstart
      omega

theorem monthStart_cycle : monthStart 4800 = 146097 := by
  rw [← utcDays_first]
  decide

def monthLength (month : ℤ) : ℕ := monthDays (month % 4800).toNat

def firstDay (month : ℤ) : ℤ := 146097 * (month / 4800) + monthStart (month % 4800).toNat

theorem firstDay_succ (month : ℤ) : firstDay (month + 1) = firstDay month + monthLength month := by
  unfold firstDay monthLength
  by_cases hlast : month % 4800 = 4799
  · have hcycle : monthStart (4799 + 1) = 146097 := monthStart_cycle
    rw [monthStart] at hcycle
    have hdiv : (month + 1) / 4800 = month / 4800 + 1 := by omega
    have hmod : (month + 1) % 4800 = 0 := by omega
    rw [hdiv, hmod, hlast]
    have hzero : monthStart (0 : ℤ).toNat = 0 := rfl
    have hnat : (4799 : ℤ).toNat = 4799 := rfl
    rw [hzero, hnat]
    omega
  · have hdiv : (month + 1) / 4800 = month / 4800 := by omega
    have hmod : ((month + 1) % 4800).toNat = (month % 4800).toNat + 1 := by omega
    rw [hdiv, hmod, monthStart]
    omega

theorem civil_spec (day : ℤ) :
    firstDay (civil day).1 + ((civil day).2 - 1) = day ∧ 1 ≤ (civil day).2 ∧
      (civil day).2 ≤ monthLength (civil day).1 := by
  have hr : 0 ≤ day % 146097 := Int.emod_nonneg day (by decide)
  obtain ⟨k, d, heq, hd, hstart⟩ := monthFrom_spec (k := 0) (Nat.le_refl (day % 146097).toNat)
  have hcivil : civil day = (4800 * (day / 146097) + k, (d : ℤ) + 1) := by
    unfold civil
    dsimp only
    rw [heq]
  have hk : k < 4800 := by
    by_contra hge
    have hmono := monthStart_mono (Nat.le_of_not_lt hge)
    rw [monthStart_cycle] at hmono
    have hzero : monthStart 0 = 0 := rfl
    omega
  rw [hcivil]
  dsimp only
  have hdiv : (4800 * (day / 146097) + (k : ℤ)) / 4800 = day / 146097 := by omega
  have hmod : ((4800 * (day / 146097) + (k : ℤ)) % 4800).toNat = k := by omega
  have hzero : monthStart 0 = 0 := rfl
  unfold firstDay monthLength
  rw [hdiv, hmod]
  refine ⟨?_, by omega, by omega⟩
  omega

theorem firstDay_mono {month month' : ℤ} (h : month ≤ month') :
    firstDay month ≤ firstDay month' := by
  induction month', h using Int.leInduction with
  | base => exact Int.le_refl _
  | succ n _ ih =>
    rw [firstDay_succ]
    omega

theorem civil_month {day month : ℤ} (hfirst : firstDay month ≤ day)
    (hlast : day < firstDay (month + 1)) : (civil day).1 = month := by
  obtain ⟨hday, hone, hlength⟩ := civil_spec day
  have hnext := firstDay_succ (civil day).1
  obtain hlt | heq | hgt := Int.lt_trichotomy (civil day).1 month
  · have hmono := firstDay_mono (Int.add_one_le_of_lt hlt)
    omega
  · exact heq
  · have hmono := firstDay_mono (Int.add_one_le_of_lt hgt)
    omega

theorem civil_week (day : ℤ) :
    (civil (day + 7)).1 = (civil day).1 ↔ (civil day).2 + 7 ≤ monthLength (civil day).1 := by
  obtain ⟨hday, hone, hlength⟩ := civil_spec day
  have hnext := firstDay_succ (civil day).1
  constructor
  · intro heq
    obtain ⟨hday', -, hlength'⟩ := civil_spec (day + 7)
    rw [heq] at hday' hlength'
    omega
  · intro hle
    exact civil_month (by omega) (by omega)

theorem zbxDayInMonth_cycle (year mon : ℕ) :
    zbxDayInMonth (year % 400) mon = zbxDayInMonth year mon := by
  have hleap : zbxIsLeapYear (year % 400) = zbxIsLeapYear year := by
    rw [Bool.eq_iff_iff, zbxIsLeapYear_iff, zbxIsLeapYear_iff]
    omega
  rw [zbxDayInMonth, zbxDayInMonth, hleap]

theorem dayInMonth_month (month : ℤ) :
    dayInMonth (1970 + month / 12) (month % 12 + 1) = monthLength month := by
  unfold dayInMonth monthLength monthDays
  rw [← zbxDayInMonth_cycle (1970 + (month % 4800).toNat / 12)]
  congr 1 <;> omega

theorem localtime_seconds (offset time : ℤ) :
    (zbxLocaltime offset time).seconds = (time + offset) % 86400 := by
  simp only [Tm.seconds, zbxLocaltime]
  omega

theorem localtime_mondayWday (offset time : ℤ) :
    (zbxLocaltime offset time).mondayWday = ((time + offset) / 86400 + 3) % 7 := by
  simp only [Tm.mondayWday, zbxLocaltime]
  split_ifs <;> omega

end Zabbix.Interval
