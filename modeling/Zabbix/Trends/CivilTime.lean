import Zabbix.Trends.Timeshift

/-!
# Civil times

Times as seconds of the local clock from 1970 over unbounded integers. The operations on broken-down
time do the same, as long as no `int` wraps around and no time is the one that `mktime` returns for
errors.
-/

namespace Zabbix.Trends

open Zabbix.Interval

variable {r k : ℤ}

def roundDown (t : ℤ) : TimeUnit → ℤ
  | .minute => t - t % 60
  | .hour => t - t % 3600
  | .day => t - t % 86400
  -- weeks start on Mondays, and day 0 is a Thursday
  | .week => (t / 86400 - (t / 86400 + 3) % 7) * 86400
  | .month => firstDay (civil (t / 86400)).1 * 86400
  | .year => firstDay ((civil (t / 86400)).1 - (civil (t / 86400)).1 % 12) * 86400
  | _ => t

def addMonths (t months : ℤ) : ℤ :=
  let month := (civil (t / 86400)).1 + months
  (firstDay month + min (civil (t / 86400)).2 (monthLength month) - 1) * 86400 + t % 86400

def addUnits (t n : ℤ) : TimeUnit → ℤ
  | .month => addMonths t n
  | .year => addMonths t (12 * n)
  | unit => t + n * timeUnitSeconds unit

variable {t n s offset month mday : ℤ} {tm : Tm}

def fields (t : ℤ) : Tm := zbxLocaltime 0 t

def YearFits (t : ℤ) : Prop := toInt (fields t).year = (fields t).year

instance (t : ℤ) : Decidable (YearFits t) := inferInstanceAs (Decidable (_ = _))

theorem toInt_eq {x : ℤ} (hlow : -2 ^ 31 ≤ x) (hhigh : x < 2 ^ 31) : toInt x = x := by
  unfold toInt
  rw [Int.bmod_def]
  split_ifs <;> omega

theorem localtime_fields (offset time : ℤ) : zbxLocaltime offset time = fields (time + offset) := by
  unfold fields zbxLocaltime
  rw [Int.add_zero]

theorem fields_year (t : ℤ) : (fields t).year = 70 + (civil (t / 86400)).1 / 12 := by
  unfold fields zbxLocaltime
  rw [Int.add_zero]

theorem civil_of_month (hlow : 1 ≤ mday) (hhigh : mday ≤ monthLength month) :
    civil (firstDay month + mday - 1) = (month, mday) := by
  have hnext := firstDay_succ month
  have hmonth : (civil (firstDay month + mday - 1)).1 = month := civil_month (by omega) (by omega)
  obtain ⟨hday, -, -⟩ := civil_spec (firstDay month + mday - 1)
  rw [hmonth] at hday
  exact Prod.ext hmonth (by simp only; omega)

structure HasFields (tm : Tm) (month mday r : ℤ) : Prop where
  mon : tm.mon = month % 12
  year : tm.year = 70 + month / 12
  mday : tm.mday = mday
  seconds : tm.seconds = r

theorem hasFields (t : ℤ) :
    HasFields (fields t) (civil (t / 86400)).1 (civil (t / 86400)).2 (t % 86400) := by
  have hseconds := localtime_seconds 0 t
  rw [Int.add_zero] at hseconds
  unfold fields
  refine ⟨?_, ?_, ?_, hseconds⟩ <;> simp only [zbxLocaltime, Int.add_zero]

theorem HasFields.mktime (h : HasFields tm month mday r) :
    mktime offset tm = (firstDay month + mday - 1) * 86400 + r - offset := by
  unfold Trends.mktime
  rw [h.mon, h.year, h.mday, h.seconds, show 12 * (70 + month / 12 - 70) + month % 12 = month by omega]

theorem mktime_fields (t : ℤ) : mktime offset (fields t) = t - offset := by
  obtain ⟨hday, -, -⟩ := civil_spec (t / 86400)
  rw [(hasFields t).mktime]
  omega

theorem localtimeOrZero_eq (h : YearFits t) : localtimeOrZero offset (t - offset) = fields t := by
  unfold localtimeOrZero
  rw [localtime_fields, Int.sub_add_cancel]
  exact if_pos h

theorem tmAddSeconds_eq (htm : mktime offset tm = t - offset) (ht : t - offset ≠ -1)
    (hyear : YearFits (t + s)) : tmAddSeconds offset tm s = fields (t + s) := by
  unfold tmAddSeconds
  rw [htm, if_neg ht, show t - offset + s = t + s - offset by omega]
  exact localtimeOrZero_eq hyear

theorem tmAddSeconds_zero (htm : mktime offset tm = t - offset) (ht : t - offset ≠ -1)
    (hyear : YearFits t) : tmAddSeconds offset tm 0 = fields t := by
  have hzero := tmAddSeconds_eq (s := 0) htm ht (by rwa [Int.add_zero])
  rwa [Int.add_zero] at hzero

theorem year_of_day (h : t / 86400 = s / 86400) : (fields t).year = (fields s).year := by
  rw [fields_year, fields_year, h]

theorem addMonths_div (t months : ℤ) : addMonths t months / 86400 =
    firstDay ((civil (t / 86400)).1 + months) +
      min (civil (t / 86400)).2 (monthLength ((civil (t / 86400)).1 + months)) - 1 := by
  unfold addMonths
  simp only
  omega

theorem civil_addMonths (t months : ℤ) : civil (addMonths t months / 86400) =
    ((civil (t / 86400)).1 + months,
      min (civil (t / 86400)).2 (monthLength ((civil (t / 86400)).1 + months))) := by
  obtain ⟨-, hone, -⟩ := civil_spec (t / 86400)
  have hlength : (1 : ℤ) ≤ monthLength ((civil (t / 86400)).1 + months) := by
    have hpos := le_monthDays (((civil (t / 86400)).1 + months) % 4800).toNat
    unfold monthLength
    omega
  rw [addMonths_div]
  exact civil_of_month (by omega) (by omega)

theorem HasFields.clipDay (h : HasFields tm month mday r) :
    HasFields (clipDay tm) month (min mday (monthLength month)) r := by
  have hlength : dayInMonth (tm.year + 1900) (tm.mon + 1) = monthLength month := by
    rw [← dayInMonth_month, h.mon, h.year]
    congr 1
    omega
  unfold Trends.clipDay
  rw [hlength, h.mday]
  simp only
  split_ifs with hcut
  · exact ⟨h.mon, h.year, by simp only; omega, h.seconds⟩
  · exact ⟨h.mon, h.year, by rw [h.mday]; omega, h.seconds⟩

theorem HasFields.addYears (h : HasFields tm month mday r)
    (hyear : toInt (70 + (month + 12 * n) / 12) = 70 + (month + 12 * n) / 12) :
    HasFields (tmAddYears tm n) (month + 12 * n) mday r := by
  refine ⟨?_, ?_, h.mday, h.seconds⟩
  · change tm.mon = _
    rw [h.mon]
    omega
  · change toInt (tm.year + n) = _
    rw [h.year, show 70 + month / 12 + n = 70 + (month + 12 * n) / 12 by omega, hyear]

theorem HasFields.addMonths (h : HasFields tm month mday r) (hn : 0 ≤ n)
    (hmon : month % 12 + n < 2 ^ 31) (hyear : toInt (70 + (month + n) / 12) = 70 + (month + n) / 12)
    :
    HasFields (tmAddMonths tm n) (month + n) mday r := by
  have hsum : toInt (tm.mon + n) = month % 12 + n := by
    rw [h.mon]
    exact toInt_eq (by omega) hmon
  unfold tmAddMonths
  simp only [hsum]
  split_ifs with hcarry
  · refine ⟨?_, ?_, h.mday, h.seconds⟩
    · change (month % 12 + n).tmod 12 = _
      rw [Int.tmod_eq_emod_of_nonneg (by omega)]
      omega
    · change toInt (tm.year + (month % 12 + n).tdiv 12) = _
      rw [Int.tdiv_eq_ediv_of_nonneg (by omega), h.year,
        show 70 + month / 12 + (month % 12 + n) / 12 = 70 + (month + n) / 12 by omega, hyear]
  · refine ⟨?_, ?_, h.mday, h.seconds⟩
    · change month % 12 + n = _
      omega
    · change tm.year = _
      rw [h.year]
      omega

theorem negToPosWrap_eq {value : ℤ} (hvalue : value < 0) : negToPosWrap value 12 = value % 12 := by
  have htmod : value.tmod 12 = -(-value % 12) := by
    rw [← Int.tmod_eq_emod_of_nonneg (by omega), Int.neg_tmod, Int.neg_neg]
  unfold negToPosWrap
  rw [htmod]
  simp only
  split_ifs <;> omega

theorem HasFields.subMonths (h : HasFields tm month mday r) (hn : 0 ≤ n) (hmon : n < 2 ^ 31)
    (hyear : toInt (70 + (month - n) / 12) = 70 + (month - n) / 12) :
    HasFields (tmSubMonths tm n) (month - n) mday r := by
  have hsum : toInt (tm.mon - n) = month % 12 - n := by
    rw [h.mon]
    exact toInt_eq (by omega) (by omega)
  unfold tmSubMonths
  simp only [hsum]
  by_cases hborrow : month % 12 - n < 0
  · have hshift : ∀ k : ℤ, 70 + month / 12 - k = 70 + (month - n) / 12 →
        toInt (tm.year - k) = 70 + (month - n) / 12 := by
      intro k hk
      rw [h.year, hk, hyear]
    rw [if_pos hborrow, negToPosWrap_eq hborrow, Int.tdiv_eq_ediv_of_nonneg (by omega)]
    refine ⟨?_, hshift _ ?_, h.mday, h.seconds⟩
    · change (month % 12 - n) % 12 = _
      omega
    · split_ifs <;> omega
  · rw [if_neg hborrow]
    refine ⟨?_, ?_, h.mday, h.seconds⟩
    · change month % 12 - n = _
      omega
    · change tm.year = _
      rw [h.year]
      omega

theorem HasFields.subYears (h : HasFields tm month mday r)
    (hyear : toInt (70 + (month - 12 * n) / 12) = 70 + (month - 12 * n) / 12) :
    HasFields (tmSubYears tm n) (month - 12 * n) mday r := by
  refine ⟨?_, ?_, h.mday, h.seconds⟩
  · change tm.mon = _
    rw [h.mon]
    omega
  · change toInt (tm.year - n) = _
    rw [h.year, show 70 + month / 12 - n = 70 + (month - 12 * n) / 12 by omega, hyear]

/-- A time that `mktime` does not return for errors, in a year that is an `int`. -/
structure Regular (offset t : ℤ) : Prop where
  ne_error : t - offset ≠ -1
  year : YearFits t

instance (offset t : ℤ) : Decidable (Regular offset t) :=
  decidable_of_iff (t - offset ≠ -1 ∧ YearFits t) ⟨fun h => ⟨h.1, h.2⟩, fun h => ⟨h.1, h.2⟩⟩

theorem yearFits_addMonths (h : YearFits (addMonths t k)) :
    toInt (70 + ((civil (t / 86400)).1 + k) / 12) = 70 + ((civil (t / 86400)).1 + k) / 12 := by
  unfold YearFits at h
  rwa [fields_year, civil_addMonths] at h

theorem mktime_addMonths
    (h : HasFields tm ((civil (t / 86400)).1 + k) (civil (t / 86400)).2 (t % 86400)) :
    mktime offset (clipDay tm) = addMonths t k - offset := by
  rw [h.clipDay.mktime]
  rfl

/-- No `int` wraps around when so many units are added or subtracted. -/
structure Small (n : ℤ) (unit : TimeUnit) : Prop where
  count : n < 2 ^ 31
  seconds : n * timeUnitSeconds unit < 2 ^ 31

instance (n : ℤ) (unit : TimeUnit) : Decidable (Small n unit) :=
  decidable_of_iff (n < 2 ^ 31 ∧ n * timeUnitSeconds unit < 2 ^ 31)
    ⟨fun h => ⟨h.1, h.2⟩, fun h => ⟨h.1, h.2⟩⟩

variable {unit : TimeUnit}

theorem timeUnitSeconds_nonneg (unit : TimeUnit) : 0 ≤ timeUnitSeconds unit := by
  cases unit <;> decide

theorem tmAddSeconds_month
    (h : HasFields tm ((civil (t / 86400)).1 + k) (civil (t / 86400)).2 (t % 86400))
    (hnext : Regular offset (addMonths t k)) :
    tmAddSeconds offset (clipDay tm) 0 = fields (addMonths t k) :=
  tmAddSeconds_zero (mktime_addMonths h) hnext.ne_error hnext.year

theorem addUnits_seconds (hmonth : unit ≠ .month) (hyear : unit ≠ .year) :
    addUnits t n unit = t + n * timeUnitSeconds unit := by
  cases unit with
  | month => exact absurd rfl hmonth
  | year => exact absurd rfl hyear
  | _ => rfl

theorem zbxTmAdd_eq (hn : 0 ≤ n) (hsmall : Small n unit)
    (hmonth : unit = .month → (civil (t / 86400)).1 % 12 + n < 2 ^ 31)
    (ht : t - offset ≠ -1) (hnext : Regular offset (addUnits t n unit)) :
    zbxTmAdd offset (fields t) n unit = fields (addUnits t n unit) := by
  have hfields := hasFields t
  have hpos := Int.mul_nonneg hn (timeUnitSeconds_nonneg unit)
  have hseconds : toInt (n * timeUnitSeconds unit) = n * timeUnitSeconds unit :=
    toInt_eq (by omega) hsmall.seconds
  unfold zbxTmAdd
  rw [hseconds]
  by_cases hmon : unit = .month
  · subst hmon
    have hadded := hfields.addMonths hn (hmonth rfl) (yearFits_addMonths hnext.year)
    rw [if_pos (.inl rfl), show n * timeUnitSeconds .month = 0 from Int.mul_zero n]
    exact tmAddSeconds_month hadded hnext
  · by_cases hyear : unit = .year
    · subst hyear
      have hadded := hfields.addYears (yearFits_addMonths (k := 12 * n) hnext.year)
      rw [if_pos (.inr rfl), show n * timeUnitSeconds .year = 0 from Int.mul_zero n]
      exact tmAddSeconds_month hadded hnext
    · rw [addUnits_seconds hmon hyear] at hnext ⊢
      rw [if_neg (by simp [hmon, hyear])]
      exact tmAddSeconds_eq (mktime_fields t) ht hnext.year

theorem toInt_neg_mul (hn : 0 ≤ n) (hsmall : Small n unit) :
    toInt (toInt (-n) * timeUnitSeconds unit) = -n * timeUnitSeconds unit := by
  have hpos := Int.mul_nonneg hn (timeUnitSeconds_nonneg unit)
  have hcount := hsmall.count
  have hseconds := hsmall.seconds
  rw [toInt_eq (x := -n) (by omega) (by omega), Int.neg_mul]
  exact toInt_eq (by omega) (by omega)

theorem zbxTmSub_seconds (hn : 0 ≤ n) (hsmall : Small n unit) (hmonth : unit ≠ .month)
    (hyear : unit ≠ .year) (ht : t - offset ≠ -1) (hnext : YearFits (addUnits t (-n) unit)) :
    zbxTmSub offset (fields t) n unit = fields (addUnits t (-n) unit) := by
  rw [addUnits_seconds hmonth hyear] at hnext ⊢
  unfold zbxTmSub
  rw [toInt_neg_mul hn hsmall, if_neg (by simp [hmonth, hyear])]
  exact tmAddSeconds_eq (mktime_fields t) ht hnext

theorem zbxTmSub_eq (hn : 0 ≤ n) (hsmall : Small n unit) (ht : t - offset ≠ -1)
    (hnext : Regular offset (addUnits t (-n) unit)) :
    zbxTmSub offset (fields t) n unit = fields (addUnits t (-n) unit) := by
  have hfields := hasFields t
  by_cases hmon : unit = .month
  · subst hmon
    have hyear := yearFits_addMonths (k := -n) hnext.year
    rw [← Int.sub_eq_add_neg] at hyear
    have hadded := hfields.subMonths hn hsmall.count hyear
    unfold zbxTmSub
    rw [toInt_neg_mul hn hsmall, if_pos (.inl rfl),
      show -n * timeUnitSeconds .month = 0 from Int.mul_zero _]
    exact tmAddSeconds_month hadded hnext
  · by_cases hyear : unit = .year
    · subst hyear
      have hyear := yearFits_addMonths (k := 12 * -n) hnext.year
      rw [Int.mul_neg, ← Int.sub_eq_add_neg] at hyear
      have hadded := hfields.subYears hyear
      unfold zbxTmSub
      rw [toInt_neg_mul hn hsmall, if_pos (.inr rfl),
        show -n * timeUnitSeconds .year = 0 from Int.mul_zero _]
      refine tmAddSeconds_month (k := 12 * -n) ?_ hnext
      rw [Int.mul_neg, ← Int.sub_eq_add_neg]
      exact hadded
    · exact zbxTmSub_seconds hn hsmall hmon hyear ht hnext.year

theorem fields_clock (t : ℤ) : (fields t).sec = t % 86400 % 60 ∧
    (fields t).min = t % 86400 % 3600 / 60 ∧ (fields t).hour = t % 86400 / 3600 := by
  unfold fields zbxLocaltime
  rw [Int.add_zero]
  exact ⟨rfl, rfl, rfl⟩

theorem week_days (t : ℤ) :
    (if (fields t).wday = 0 then 6 else (fields t).wday - 1) = (t / 86400 + 3) % 7 := by
  have hwday : (fields t).wday = (t / 86400 + 4) % 7 := by
    unfold fields zbxLocaltime
    rw [Int.add_zero]
  rw [hwday]
  split_ifs <;> omega

theorem zbxTmRoundDown_week (ht : t - offset ≠ -1) (hnext : Regular offset (roundDown t .week)) :
    zbxTmRoundDown offset (fields t) .week = fields (roundDown t .week) := by
  have hround : roundDown t .week = (t / 86400 - (t / 86400 + 3) % 7) * 86400 := rfl
  have hback : addUnits t (-((t / 86400 + 3) % 7)) .day = t + -((t / 86400 + 3) % 7) * 86400 := rfl
  have hdays := week_days t
  -- the day is found first, and then its start
  have hstart : ∀ u : ℤ, u / 86400 = roundDown t .week / 86400 → ∀ wday : ℤ,
      tmAddSeconds offset { fields u with wday, hour := 0, min := 0, sec := 0 } 0 =
        fields (roundDown t .week) := by
    intro u hu wday
    have hfields := hasFields u
    obtain ⟨hspec, -, -⟩ := civil_spec (u / 86400)
    have hmidnight : HasFields { fields u with wday, hour := 0, min := 0, sec := 0 }
        (civil (u / 86400)).1 (civil (u / 86400)).2 0 :=
      ⟨hfields.mon, hfields.year, hfields.mday, rfl⟩
    refine tmAddSeconds_zero ?_ hnext.ne_error hnext.year
    rw [hmidnight.mktime]
    rw [hround] at hu ⊢
    omega
  unfold zbxTmRoundDown
  by_cases hmonday : (fields t).wday = 1
  · have hday : t / 86400 = roundDown t .week / 86400 := by
      rw [hmonday] at hdays
      rw [hround]
      omega
    simp only [hmonday, ne_eq, not_true_eq_false, if_false]
    exact hstart t hday _
  · have hday : addUnits t (-((t / 86400 + 3) % 7)) .day / 86400 = roundDown t .week / 86400 := by
      rw [hround, hback]
      omega
    have hyear : YearFits (addUnits t (-((t / 86400 + 3) % 7)) .day) := by
      unfold YearFits
      rw [year_of_day hday]
      exact hnext.year
    have hweek : (t / 86400 + 3) % 7 * 86400 < 2 ^ 31 := by omega
    have hsmall : Small ((t / 86400 + 3) % 7) .day := ⟨by omega, hweek⟩
    simp only [ne_eq, hmonday, not_false_eq_true, if_true, hdays]
    rw [zbxTmSub_seconds (by omega) hsmall (by decide) (by decide) ht hyear]
    exact hstart _ hday _

theorem zbxTmRoundDown_eq (ht : t - offset ≠ -1) (hnext : Regular offset (roundDown t unit)) :
    zbxTmRoundDown offset (fields t) unit = fields (roundDown t unit) := by
  have hfields := hasFields t
  obtain ⟨hsec, hmin, hhour⟩ := fields_clock t
  obtain ⟨hday, -, -⟩ := civil_spec (t / 86400)
  have hround : ∀ tm : Tm, mktime offset tm = roundDown t unit - offset →
      tmAddSeconds offset tm 0 = fields (roundDown t unit) :=
    fun tm htm => tmAddSeconds_zero htm hnext.ne_error hnext.year
  cases unit with
  | week => exact zbxTmRoundDown_week ht hnext
  | unknown | second => exact hround _ (mktime_fields t)
  | minute =>
    have hset : HasFields { fields t with sec := 0 } (civil (t / 86400)).1 (civil (t / 86400)).2
        (t % 86400 - t % 60) :=
      ⟨hfields.mon, hfields.year, hfields.mday, by simp only [Tm.seconds, hmin, hhour]; omega⟩
    refine hround _ (hset.mktime.trans ?_)
    unfold roundDown
    simp only
    omega
  | hour =>
    have hset : HasFields { fields t with min := 0, sec := 0 } (civil (t / 86400)).1
        (civil (t / 86400)).2 (t % 86400 - t % 3600) :=
      ⟨hfields.mon, hfields.year, hfields.mday, by simp only [Tm.seconds, hhour]; omega⟩
    refine hround _ (hset.mktime.trans ?_)
    unfold roundDown
    simp only
    omega
  | day =>
    have hset : HasFields { fields t with hour := 0, min := 0, sec := 0 } (civil (t / 86400)).1
        (civil (t / 86400)).2 0 :=
      ⟨hfields.mon, hfields.year, hfields.mday, rfl⟩
    refine hround _ (hset.mktime.trans ?_)
    unfold roundDown
    simp only
    omega
  | month =>
    have hset : HasFields { fields t with mday := 1, hour := 0, min := 0, sec := 0 }
        (civil (t / 86400)).1 1 0 :=
      ⟨hfields.mon, hfields.year, rfl, rfl⟩
    refine hround _ (hset.mktime.trans ?_)
    unfold roundDown
    simp only
    omega
  | year =>
    have hset : HasFields { fields t with mon := 0, mday := 1, hour := 0, min := 0, sec := 0 }
        ((civil (t / 86400)).1 - (civil (t / 86400)).1 % 12) 1 0 :=
      ⟨by simp only; omega, by simp only [hfields.year]; omega, rfl, rfl⟩
    refine hround _ (hset.mktime.trans ?_)
    unfold roundDown
    simp only
    omega

theorem addMonths_lt (hk : k < 0) : addMonths t k ≤ t - 28 * 86400 := by
  obtain ⟨hday, -, -⟩ := civil_spec (t / 86400)
  have hnext := firstDay_succ ((civil (t / 86400)).1 + k)
  have hmono : firstDay ((civil (t / 86400)).1 + k + 1) ≤ firstDay (civil (t / 86400)).1 :=
    firstDay_mono (by omega)
  have hlength : (28 : ℤ) ≤ monthLength ((civil (t / 86400)).1 + k) := by
    have hshort := le_monthDays (((civil (t / 86400)).1 + k) % 4800).toNat
    unfold monthLength
    omega
  unfold addMonths
  simp only
  omega

end Zabbix.Trends
