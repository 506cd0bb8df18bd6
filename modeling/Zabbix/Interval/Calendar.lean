import Mathlib.Tactic.IntervalCases

/-!
# The civil calendar

Months are counted from January 1970.
-/

namespace Zabbix.Interval

def zbxIsLeapYear (year : ℕ) : Bool :=
  year % 4 = 0 && (year % 100 ≠ 0 || year % 400 = 0)

def monthLengths : List ℕ := [31, 28, 31, 30, 31, 30, 31, 31, 30, 31, 30, 31]

def zbxDayInMonth (year mon : ℕ) : ℕ :=
  if 1 ≤ mon ∧ mon ≤ 12 then
    monthLengths.getD (mon - 1) 0 + if mon = 2 ∧ zbxIsLeapYear year then 1 else 0
  else 30

def leapYears (year : ℕ) : ℕ := (year - 1) / 4 - (year - 1) / 100 + (year - 1) / 400

def monthDay : List ℕ := [0, 31, 59, 90, 120, 151, 181, 212, 243, 273, 304, 334]

def utcDays (year mon mday : ℕ) : ℕ :=
  (year - 1970) * 365 + (leapYears (if 2 < mon then year + 1 else year) - leapYears 1970) +
    (monthDay.getD (mon - 1) 0 + mday - 1)

def zbxUtcTime (year mon mday hour min sec : ℕ) : Option ℤ :=
  let t : ℤ := Int.bmod (utcDays year mon mday * 86400 + hour * 3600 + min * 60 + sec) (2 ^ 32)
  if 1970 ≤ year ∧ 1 ≤ mon ∧ mon ≤ 12 ∧ 1 ≤ mday ∧ mday ≤ zbxDayInMonth year mon ∧ hour ≤ 23 ∧
      min ≤ 59 ∧ sec ≤ 61 ∧ 0 ≤ t then some t
  else none

def calculateDayofweek (year mon mday : ℕ) : ℕ :=
  let year := if mon < 3 then year - 1 else year
  (year + year / 4 - year / 100 + year / 400 +
    [0, 3, 2, 5, 0, 3, 5, 1, 4, 6, 2, 4].getD (mon - 1) 0 + mday - 1) % 7 + 1

def monthDays (k : ℕ) : ℕ := zbxDayInMonth (1970 + k / 12) (k % 12 + 1)

def monthStart : ℕ → ℕ
  | 0 => 0
  | k + 1 => monthStart k + monthDays k

def weekday (d : ℕ) : ℕ := (d + 3) % 7 + 1

theorem monthDays_le (k : ℕ) : monthDays k ≤ 31 := by
  have hmod : k % 12 < 12 := Nat.mod_lt k (by decide)
  unfold monthDays zbxDayInMonth
  generalize k % 12 = m at hmod
  generalize zbxIsLeapYear (1970 + k / 12) = leap
  revert leap
  interval_cases m <;> decide

theorem le_monthDays (k : ℕ) : 28 ≤ monthDays k := by
  have hmod : k % 12 < 12 := Nat.mod_lt k (by decide)
  unfold monthDays zbxDayInMonth
  generalize k % 12 = m at hmod
  generalize zbxIsLeapYear (1970 + k / 12) = leap
  revert leap
  interval_cases m <;> decide

theorem monthStart_mono {k k' : ℕ} (h : k ≤ k') : monthStart k ≤ monthStart k' := by
  induction h with
  | refl => exact Nat.le_refl _
  | step _ ih => exact ih.trans (Nat.le_add_right _ _)

theorem zbxIsLeapYear_iff (year : ℕ) :
    zbxIsLeapYear year = true ↔ year % 4 = 0 ∧ (year % 100 ≠ 0 ∨ year % 400 = 0) := by
  simp [zbxIsLeapYear]

theorem leapYears_succ (y : ℕ) : leapYears (1970 + y + 1) = leapYears (1970 + y) +
    if zbxIsLeapYear (1970 + y) then 1 else 0 := by
  have hleap := zbxIsLeapYear_iff (1970 + y)
  have hless : (1969 + y) / 100 ≤ (1969 + y) / 4 := Nat.div_le_div_left (by decide) (by decide)
  have hcentury : (1970 + y) % 100 = 0 → (1970 + y) % 4 = 0 := by omega
  have hfour : (1970 + y) % 400 = 0 → (1970 + y) % 100 = 0 := by omega
  have hnext : 1970 + y = 1969 + y + 1 := by omega
  simp only [leapYears, Nat.add_sub_cancel, hnext, Nat.succ_div, Nat.dvd_iff_mod_eq_zero] at *
  split_ifs <;> simp_all <;> omega

theorem leapYears_base (y : ℕ) : leapYears 1970 ≤ leapYears (1970 + y) := by
  unfold leapYears
  omega

theorem utcDays_succ (y m : ℕ) (hm : m < 11) :
    utcDays (1970 + y) (m + 2) 1 = utcDays (1970 + y) (m + 1) 1 + zbxDayInMonth (1970 + y) (m + 1) := by
  have hsucc := leapYears_succ y
  have hbase := leapYears_base y
  unfold utcDays zbxDayInMonth
  interval_cases m <;> simp [monthDay, monthLengths, hsucc]
  all_goals omega

theorem utcDays_december (y : ℕ) :
    utcDays (1970 + (y + 1)) 1 1 = utcDays (1970 + y) 12 1 + zbxDayInMonth (1970 + y) 12 := by
  have hsucc := leapYears_succ y
  have hbase := leapYears_base y
  simp [utcDays, zbxDayInMonth, monthDay, monthLengths]
  rw [← Nat.add_assoc, hsucc]
  omega

theorem utcDays_first (k : ℕ) : utcDays (1970 + k / 12) (k % 12 + 1) 1 = monthStart k := by
  induction k with
  | zero => rfl
  | succ k ih =>
    rw [monthStart, ← ih, monthDays]
    by_cases hm : k % 12 < 11
    · rw [show (k + 1) / 12 = k / 12 by omega, show (k + 1) % 12 = k % 12 + 1 by omega]
      exact utcDays_succ (k / 12) (k % 12) hm
    · rw [show (k + 1) / 12 = k / 12 + 1 by omega, show (k + 1) % 12 = 0 by omega,
        show k % 12 = 11 by omega]
      exact utcDays_december (k / 12)

/-- The day of the week is the one that counting the days from a Thursday gives. -/
theorem calculateDayofweek_counts (k d : ℕ) :
    calculateDayofweek (1970 + k / 12) (k % 12 + 1) (d + 1) = weekday (monthStart k + d) := by
  rw [← utcDays_first, weekday, utcDays, calculateDayofweek]
  have hmod : k % 12 < 12 := Nat.mod_lt k (by decide)
  generalize k % 12 = m at hmod
  generalize k / 12 = y
  interval_cases m <;> simp [monthDay, leapYears] <;> omega

end Zabbix.Interval
