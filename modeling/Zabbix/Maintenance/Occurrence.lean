import Zabbix.Maintenance.Period

/-!
# Occurrences of a maintenance period

The schedule of a recurring period, and which moment of it `dc_check_maintenance_period` finds.
-/

namespace Zabbix.Maintenance

open Int Zabbix.Interval

variable {offset now : ℤ} {m : DcMaintenance} {p : DcMaintenancePeriod}
variable {t u start limit : ℤ}

def localDay (offset t : ℤ) : ℤ := (t + offset) / 86400

def weekOf (day : ℤ) : ℤ := (day + 3) / 7

def wdayOf (day : ℤ) : ℤ := (day + 3) % 7

def StartMoment (offset : ℤ) (p : DcMaintenancePeriod) (t : ℤ) : Prop :=
  (t + offset) % 86400 = p.startTime

/-- A month that the period has and in it the day of the month, or a day of the week in the week of
that number; week 5 is the last one. -/
def MonthlyDay (p : DcMaintenancePeriod) (day : ℤ) : Prop :=
  p.month.testBit ((civil day).1 % 12).toNat = true ∧
    if p.day ≠ 0 then (civil day).2 = p.day
    else p.dayofweek.testBit (wdayOf day).toNat = true ∧
      if p.every = 5 then (civil (day + 7)).1 ≠ (civil day).1
      else ((civil day).2 - 1) / 7 + 1 = p.every

def ScheduledDay (offset : ℤ) (m : DcMaintenance) (p : DcMaintenancePeriod) (day : ℤ) : Prop :=
  match p.type with
  | .daily => (day - localDay offset m.activeSince) % p.every = 0
  | .weekly =>
    (weekOf day - weekOf (localDay offset m.activeSince)) % p.every = 0 ∧
      p.dayofweek.testBit (wdayOf day).toNat = true
  | .monthly => MonthlyDay p day
  | _ => False

def Scheduled (offset : ℤ) (m : DcMaintenance) (p : DcMaintenancePeriod) (t : ℤ) : Prop :=
  StartMoment offset p t ∧ ScheduledDay offset m p (localDay offset t)

def occurrences (offset : ℤ) (m : DcMaintenance) (p : DcMaintenancePeriod) (now : ℤ) : Set ℤ :=
  {t | Scheduled offset m p t ∧ m.activeSince ≤ t ∧ t ≤ now ∧ now < t + p.period}

def Agrees (offset : ℤ) (m : DcMaintenance) (p : DcMaintenancePeriod) (now : ℤ) :
    Option (ℤ × ℤ) → Prop
  | none => occurrences offset m p now = ∅
  | some (since, until') => IsGreatest (occurrences offset m p now) since ∧
      until' = min (since + p.period) m.activeUntil

structure Recurring (p : DcMaintenancePeriod) : Prop where
  type : p.type = .daily ∨ p.type = .weekly ∨ p.type = .monthly
  start : 0 ≤ p.startTime ∧ p.startTime < 86400
  every : p.type ≠ .monthly → 0 < p.every

/-- What is taken for the start when none is scheduled from `activeSince` on: the first day; the
last start in the first week or the end of the week before; the last one before `activeSince`. -/
def Stray (offset : ℤ) (m : DcMaintenance) (p : DcMaintenancePeriod) (t : ℤ) : Prop :=
  t < m.activeSince ∧ StartMoment offset p t ∧
    match p.type with
    | .daily => localDay offset t = localDay offset m.activeSince
    | .weekly =>
      (weekOf (localDay offset t) = weekOf (localDay offset m.activeSince) ∧
          ScheduledDay offset m p (localDay offset t) ∨
        localDay offset t + 4 = 7 * weekOf (localDay offset m.activeSince)) ∧
      ∀ u, Scheduled offset m p u → t < u → ¬ u < m.activeSince
    | _ => ∀ u, StartMoment offset p u → t < u → ¬ u < m.activeSince

/-- No occurrence starts in time, and the moment that is taken for one is so close that the period
would not have ended. -/
def StrayRunning (offset : ℤ) (m : DcMaintenance) (p : DcMaintenancePeriod) (now : ℤ) : Prop :=
  (∀ t, Scheduled offset m p t → m.activeSince ≤ t → now < t) ∧
    (p.type = .monthly ∨ ∃ t, StartMoment offset p t ∧ m.activeSince ≤ t ∧ t ≤ now) ∧
      ∃ t, Stray offset m p t ∧ now < t + p.period

theorem dcSubtractTime_eq (minuend subtrahend : ℤ) :
    dcSubtractTime offset minuend subtrahend = minuend - subtrahend := by
  unfold dcSubtractTime
  dsimp only
  omega

theorem StartMoment.eq_localDay (h : StartMoment offset p t) :
    t + offset = 86400 * localDay offset t + p.startTime := by
  unfold StartMoment at h
  unfold localDay
  omega

theorem startMoment_sub (h : StartMoment offset p t) (k : ℤ) :
    StartMoment offset p (t - 86400 * k) ∧
      localDay offset (t - 86400 * k) = localDay offset t - k := by
  unfold StartMoment at *
  unfold localDay
  omega

theorem eq_of_localDay (ht : StartMoment offset p t) (hu : StartMoment offset p u)
    (h : localDay offset t = localDay offset u) : t = u := by
  have := ht.eq_localDay
  have := hu.eq_localDay
  omega

theorem eq_sub_of_le (ht : StartMoment offset p t) (hu : StartMoment offset p u) :
    u = t - 86400 * (localDay offset t - localDay offset u) := by
  have := ht.eq_localDay
  have := hu.eq_localDay
  omega

theorem localDay_lt (ht : StartMoment offset p t) (hu : StartMoment offset p u) :
    localDay offset t < localDay offset u ↔ t < u := by
  have := ht.eq_localDay
  have := hu.eq_localDay
  omega

theorem Stray.not_lt_weekly (hp : p.type = .weekly) (ht : Stray offset m p t)
    (hu : Stray offset m p u) : ¬ t < u := by
  obtain ⟨-, htstart, htype⟩ := ht
  obtain ⟨hult, hustart, hutype⟩ := hu
  rw [hp] at htype hutype
  obtain ⟨htday, htlast⟩ := htype
  obtain ⟨⟨-, huday⟩ | huday, -⟩ := hutype
  · exact fun hlt => htlast u ⟨hustart, huday⟩ hlt hult
  · intro hlt
    have hday := (localDay_lt htstart hustart).mpr hlt
    unfold weekOf at *
    omega

theorem Stray.unique (hp : Recurring p) (ht : Stray offset m p t) (hu : Stray offset m p u) :
    t = u := by
  obtain htp | htp | htp := hp.type
  · obtain ⟨-, htstart, htype⟩ := ht
    obtain ⟨-, hustart, hutype⟩ := hu
    rw [htp] at htype hutype
    exact eq_of_localDay htstart hustart (htype.trans hutype.symm)
  · exact Int.le_antisymm (Int.not_lt.mp (hu.not_lt_weekly htp ht))
      (Int.not_lt.mp (ht.not_lt_weekly htp hu))
  · obtain ⟨htlt, htstart, htype⟩ := ht
    obtain ⟨hult, hustart, hutype⟩ := hu
    rw [htp] at htype hutype
    exact Int.le_antisymm (Int.not_lt.mp fun hlt => hutype t htstart hlt htlt)
      (Int.not_lt.mp fun hlt => htype u hustart hlt hult)

theorem searchBack_spec (check : ℤ → Bool) (limit : ℤ) {fuel : ℕ}
    (hfuel : start - 86400 * fuel < limit) :
    ∃ k : ℕ, searchBack offset check limit fuel start = start - 86400 * k ∧
      (∀ j : ℕ, j < k → limit ≤ start - 86400 * j ∧ check (start - 86400 * j) = false) ∧
        (limit ≤ start - 86400 * k → check (start - 86400 * k) = true) := by
  induction fuel generalizing start with
  | zero =>
    refine ⟨0, by rw [searchBack]; omega, fun j hj => absurd hj (Nat.not_lt_zero j), fun h => ?_⟩
    omega
  | succ fuel ih =>
    have hstop (h : limit ≤ start → check start = true) :
        ∃ k : ℕ, start = start - 86400 * k ∧
          (∀ j : ℕ, j < k → limit ≤ start - 86400 * j ∧ check (start - 86400 * j) = false) ∧
            (limit ≤ start - 86400 * k → check (start - 86400 * k) = true) := by
      refine ⟨0, by omega, fun j hj => absurd hj (Nat.not_lt_zero j), ?_⟩
      rw [Nat.cast_zero, mul_zero, sub_zero]
      exact h
    rw [searchBack, dcSubtractTime_eq]
    split_ifs with hlimit hcheck
    · exact hstop fun _ => hcheck
    · obtain ⟨k, hk, hbefore, hlast⟩ := @ih (start - 86400) (by push_cast at hfuel; omega)
      refine ⟨k + 1, ?_, fun j hj => ?_, ?_⟩
      · rw [hk]
        push_cast
        omega
      · cases j with
        | zero =>
          rw [Nat.cast_zero, mul_zero, sub_zero]
          exact ⟨hlimit, Bool.eq_false_iff.mpr hcheck⟩
        | succ j =>
          have hj := hbefore j (by omega)
          have heq : start - 86400 * ((j + 1 : ℕ) : ℤ) = start - 86400 - 86400 * j := by
            push_cast
            omega
          rw [heq]
          exact hj
      · have heq : start - 86400 * ((k + 1 : ℕ) : ℤ) = start - 86400 - 86400 * k := by
          push_cast
          omega
        rw [heq]
        exact hlast
    · exact hstop fun h => absurd h hlimit

theorem searchBack_moments (check : ℤ → Bool) (limit : ℤ) (hstart : StartMoment offset p start) :
    ∃ t, searchBack offset check limit (searchFuel limit start) start = t ∧
      StartMoment offset p t ∧ t ≤ start ∧ (limit ≤ t → check t = true) ∧
        ∀ u, StartMoment offset p u → u ≤ start → t < u → limit ≤ u ∧ check u = false := by
  have hfuel : start - 86400 * searchFuel limit start < limit := by
    unfold searchFuel
    omega
  obtain ⟨k, hk, hbefore, hlast⟩ := searchBack_spec check limit hfuel
  refine ⟨_, hk, (startMoment_sub hstart k).1, by omega, hlast, fun u hu hle hlt => ?_⟩
  have hback := eq_sub_of_le hstart hu
  obtain ⟨j, hj⟩ := eq_ofNat_of_zero_le
    (show 0 ≤ localDay offset start - localDay offset u by omega)
  rw [hj] at hback
  rw [hback]
  exact hbefore j (by omega)

inductive Found (offset : ℤ) (m : DcMaintenance) (p : DcMaintenancePeriod) (now : ℤ) :
    Option (ℤ × ℤ) → Prop
  | scheduled (t : ℤ)
      (h : IsGreatest {t | Scheduled offset m p t ∧ m.activeSince ≤ t ∧ t ≤ now} t) :
      Found offset m p now (some (runningFrom m p t))
  | early (hnone : ∀ t, Scheduled offset m p t → m.activeSince ≤ t → now < t)
      (htype : p.type ≠ .monthly)
      (hmoment : ∀ t, StartMoment offset p t → m.activeSince ≤ t → now < t) :
      Found offset m p now none
  | stray (t : ℤ) (hnone : ∀ t, Scheduled offset m p t → m.activeSince ≤ t → now < t)
      (hmoment : p.type = .monthly ∨ ∃ t, StartMoment offset p t ∧ m.activeSince ≤ t ∧ t ≤ now)
      (h : Stray offset m p t) (hle : t ≤ now) :
      Found offset m p now (some (runningFrom m p t))

structure LastMoment (offset : ℤ) (p : DcMaintenancePeriod) (now t : ℤ) : Prop where
  moment : StartMoment offset p t
  le : t ≤ now
  last : ∀ u, StartMoment offset p u → u ≤ now → u ≤ t

theorem dcCheck_eq (hp : Recurring p) (m : DcMaintenance) (now : ℤ) :
    ∃ t, LastMoment offset p now t ∧ dcCheckMaintenancePeriod offset m p now =
      (dcCalculateMaintenancePeriod offset m p t).filter fun (since, until') =>
        since ≤ now && now < until' := by
  obtain ⟨hzero, hday⟩ := hp.start
  unfold dcCheckMaintenancePeriod
  simp only [dcSubtractTime_eq, localtime_seconds]
  have hmoment : p.startTime = (now - (now + offset) % 86400 - -p.startTime + offset) % 86400 := by
    omega
  rw [if_neg (not_not_intro hmoment)]
  refine ⟨_, ⟨?_, ?_, ?_⟩, rfl⟩
  · unfold StartMoment
    split_ifs <;> omega
  · split_ifs <;> omega
  · intro u hu hle
    unfold StartMoment at hu
    split_ifs <;> omega

theorem found_early (ht : LastMoment offset p now t) (hp : p.type ≠ .monthly)
    (hlt : t < m.activeSince) : Found offset m p now none := by
  have hmoment (u : ℤ) (hu : StartMoment offset p u) (hle : m.activeSince ≤ u) : now < u := by
    by_contra hnow
    have := ht.last u hu (Int.not_lt.mp hnow)
    omega
  exact .early (fun u hu => hmoment u hu.1) hp hmoment

theorem emod_back {day every : ℤ} (hday : 0 ≤ day) (hevery : 0 < every) :
    0 ≤ day % every ∧ day % every ≤ day ∧ (day - day % every) % every = 0 ∧
      ∀ j, 0 ≤ j → (day - j) % every = 0 → day % every ≤ j := by
  have hdvd : every ∣ day - day % every := dvd_self_sub_emod
  have hle {x : ℤ} (hx : 0 ≤ x) : x % every ≤ x := by
    have := Int.mul_nonneg hevery.le (ediv_nonneg hx hevery.le)
    rw [emod_def]
    omega
  refine ⟨emod_nonneg day hevery.ne', hle hday, emod_eq_zero_of_dvd hdvd, fun j hj hzero => ?_⟩
  have heq : day % every = j % every := emod_eq_emod_iff_emod_sub_eq_zero.mpr hzero
  rw [heq]
  exact hle hj

theorem found_daily (hp : p.type = .daily) (hstart : 0 ≤ p.startTime ∧ p.startTime < 86400)
    (hevery : 0 < p.every) (ht : LastMoment offset p now t) :
    Found offset m p now (dcCalculateMaintenancePeriod offset m p t) := by
  unfold dcCalculateMaintenancePeriod
  rw [hp]
  dsimp only
  split_ifs with hlt
  · exact found_early ht (by rw [hp]; decide) hlt
  · simp only [dcSubtractTime_eq, localtime_seconds]
    have hmoment := ht.moment.eq_localDay
    obtain ⟨hstart, hstartDay⟩ := hstart
    have hdays : t - (m.activeSince - (m.activeSince + offset) % 86400) =
        86400 * (localDay offset t - localDay offset m.activeSince) + p.startTime := by
      unfold localDay at *
      omega
    have hday : (t - (m.activeSince - (m.activeSince + offset) % 86400)).tdiv 86400 =
        localDay offset t - localDay offset m.activeSince := by
      rw [tdiv_eq_ediv_of_nonneg (by omega), hdays]
      omega
    have hnonneg : 0 ≤ localDay offset t - localDay offset m.activeSince := by omega
    rw [hday, tmod_eq_emod_of_nonneg hnonneg]
    obtain ⟨hback, hbackLe, hbackZero, hbackLeast⟩ := emod_back hnonneg hevery
    generalize (localDay offset t - localDay offset m.activeSince) % p.every = k at *
    obtain ⟨hresult, hresultDay⟩ := startMoment_sub ht.moment k
    have hlast {u : ℤ} (hu : Scheduled offset m p u) (hle : u ≤ now) : u ≤ t - 86400 * k := by
      have hut := ht.last u hu.1 hle
      have hsub := eq_sub_of_le ht.moment hu.1
      have hzero := hu.2
      unfold ScheduledDay at hzero
      rw [hp] at hzero
      have hleast := hbackLeast (localDay offset t - localDay offset u) (by omega) (by
        rw [← hzero]
        congr 1
        omega)
      omega
    have hle : t - 86400 * k ≤ now := by
      have := ht.le
      omega
    by_cases hsince : m.activeSince ≤ t - 86400 * k
    · refine .scheduled _ ⟨⟨⟨hresult, ?_⟩, hsince, hle⟩, fun u hu => hlast hu.1 hu.2.2⟩
      unfold ScheduledDay
      rw [hp, hresultDay, ← hbackZero]
      congr 1
      omega
    · refine .stray _ (fun u hu hle => ?_) (.inr ⟨t, ht.moment, Int.not_lt.mp hlt, ht.le⟩)
        ⟨Int.not_le.mp hsince, hresult, ?_⟩ hle
      · by_contra hnow
        have := hlast hu (Int.not_lt.mp hnow)
        omega
      · rw [hp]
        unfold localDay at *
        omega

theorem found_search {check : ℤ → Bool} (ht : LastMoment offset p now t)
    (hnow : m.activeSince ≤ now) (hlimit : limit ≤ m.activeSince)
    (hcheck : ∀ u, StartMoment offset p u → limit ≤ u →
      (check u = true ↔ ScheduledDay offset m p (localDay offset u)))
    (hmoment : p.type = .monthly ∨ ∃ t, StartMoment offset p t ∧ m.activeSince ≤ t ∧ t ≤ now)
    (hstray : ∀ u, u < m.activeSince → StartMoment offset p u →
      (limit ≤ u → ScheduledDay offset m p (localDay offset u)) →
        (∀ v, StartMoment offset p v → v < m.activeSince → u < v → limit ≤ v ∧
          ¬ ScheduledDay offset m p (localDay offset v)) → Stray offset m p u) :
    Found offset m p now (some (runningFrom m p
      (searchBack offset check limit (searchFuel limit t) t))) := by
  obtain ⟨u, hu, hstart, hle, hpass, hbetween⟩ := searchBack_moments check limit ht.moment
  have hskipped {v : ℤ} (hv : StartMoment offset p v) (hvnow : v ≤ now) (huv : u < v) :
      limit ≤ v ∧ ¬ ScheduledDay offset m p (localDay offset v) := by
    obtain ⟨hlimitv, hfalse⟩ := hbetween v hv (ht.last v hv hvnow) huv
    refine ⟨hlimitv, fun hday => ?_⟩
    rw [(hcheck v hv hlimitv).mpr hday] at hfalse
    cases hfalse
  have hlast {v : ℤ} (hv : Scheduled offset m p v) (hvnow : v ≤ now) : v ≤ u := by
    by_contra hlt
    exact (hskipped hv.1 hvnow (Int.not_le.mp hlt)).2 hv.2
  have hunow : u ≤ now := hle.trans ht.le
  rw [hu]
  by_cases hsince : m.activeSince ≤ u
  · have hday := (hcheck u hstart (hlimit.trans hsince)).mp (hpass (hlimit.trans hsince))
    exact .scheduled u ⟨⟨⟨hstart, hday⟩, hsince, hunow⟩, fun v hv => hlast hv.1 hv.2.2⟩
  · refine .stray u (fun v hv hvsince => ?_) hmoment ?_ hunow
    · by_contra hvnow
      exact hsince (hvsince.trans (hlast hv (Int.not_lt.mp hvnow)))
    · refine hstray u (Int.not_le.mp hsince) hstart (fun h => (hcheck u hstart h).mp (hpass h)) ?_
      exact fun v hv hvsince huv => hskipped hv (hvsince.le.trans hnow) huv

theorem weeklyStart_iff (hstart : 0 ≤ p.startTime ∧ p.startTime < 86400) {week : ℤ}
    (hlimit : limit + offset = 86400 * (7 * week - 3)) (hu : StartMoment offset p u)
    (hle : limit ≤ u) : weeklyStart offset p limit u = true ↔
      (weekOf (localDay offset u) - week) % p.every = 0 ∧
        p.dayofweek.testBit (wdayOf (localDay offset u)).toNat = true := by
  have hmoment := hu.eq_localDay
  have hweek : (u - limit).tdiv 604800 = weekOf (localDay offset u) - week := by
    rw [tdiv_eq_ediv_of_nonneg (by omega)]
    unfold weekOf
    omega
  have hnonneg : 0 ≤ weekOf (localDay offset u) - week := by
    unfold weekOf
    omega
  unfold weeklyStart
  dsimp only
  rw [localtime_mondayWday, hweek, tmod_eq_emod_of_nonneg hnonneg, Bool.and_eq_true_iff,
    decide_eq_true_iff]
  rfl

theorem monthLength_bounds (month : ℤ) : 28 ≤ monthLength month ∧ monthLength month ≤ 31 :=
  ⟨le_monthDays _, monthDays_le _⟩

theorem monthlyWeek_iff (every day : ℤ) :
    (if every = 5 ∧ ((civil day).2 - 1).tdiv 7 + 1 = 4 then
        !decide ((civil day).2 + 7 ≤ (monthLength (civil day).1 : ℤ))
      else decide (every = ((civil day).2 - 1).tdiv 7 + 1)) = true ↔
    if every = 5 then (civil (day + 7)).1 ≠ (civil day).1
      else ((civil day).2 - 1) / 7 + 1 = every := by
  obtain ⟨-, hone, hlength⟩ := civil_spec day
  obtain ⟨hshort, hlong⟩ := monthLength_bounds (civil day).1
  rw [tdiv_eq_ediv_of_nonneg (by omega), ne_eq, civil_week]
  by_cases hevery : every = 5
  · rw [if_pos hevery]
    by_cases hfour : ((civil day).2 - 1) / 7 + 1 = 4
    · rw [if_pos ⟨hevery, hfour⟩]
      simp
    · rw [if_neg (fun h => hfour h.2), decide_eq_true_iff]
      omega
  · rw [if_neg hevery, if_neg (fun h => hevery h.1), decide_eq_true_iff]
    exact eq_comm

theorem monthlyStart_iff (u : ℤ) :
    monthlyStart offset p u = true ↔ MonthlyDay p (localDay offset u) := by
  have hyear : 1900 + (zbxLocaltime offset u).year = 1970 + (civil (localDay offset u)).1 / 12 := by
    have hfield : (zbxLocaltime offset u).year = 70 + (civil (localDay offset u)).1 / 12 := rfl
    omega
  have hmon : (zbxLocaltime offset u).mon = (civil (localDay offset u)).1 % 12 := rfl
  have hmday : (zbxLocaltime offset u).mday = (civil (localDay offset u)).2 := rfl
  unfold monthlyStart MonthlyDay
  dsimp only
  rw [hyear, hmon, hmday, dayInMonth_month, localtime_mondayWday, Bool.and_eq_true_iff]
  refine and_congr_right fun _ => ?_
  by_cases hday : p.day ≠ 0
  · rw [if_pos hday, if_pos hday, decide_eq_true_iff]
    exact eq_comm
  · rw [if_neg hday, if_neg hday, Bool.and_eq_true_iff]
    exact and_congr_right fun _ => monthlyWeek_iff p.every (localDay offset u)

theorem found_weekly (hp : p.type = .weekly) (hstart : 0 ≤ p.startTime ∧ p.startTime < 86400)
    (hnow : m.activeSince ≤ now) (ht : LastMoment offset p now t) :
    Found offset m p now (dcCalculateMaintenancePeriod offset m p t) := by
  unfold dcCalculateMaintenancePeriod
  rw [hp]
  dsimp only
  split_ifs with hlt
  · exact found_early ht (by rw [hp]; decide) hlt
  · simp only [dcSubtractTime_eq, localtime_seconds, localtime_mondayWday]
    have hfloor : m.activeSince - (((m.activeSince + offset) / 86400 + 3) % 7 * 86400 +
        (m.activeSince + offset) % 86400) + offset =
          86400 * (7 * weekOf (localDay offset m.activeSince) - 3) := by
      unfold weekOf localDay
      omega
    generalize m.activeSince - (((m.activeSince + offset) / 86400 + 3) % 7 * 86400 +
        (m.activeSince + offset) % 86400) = limit at *
    have hsinceDay : m.activeSince + offset < 86400 * (localDay offset m.activeSince + 1) ∧
        86400 * localDay offset m.activeSince ≤ m.activeSince + offset := by
      unfold localDay
      omega
    have hlimit : limit ≤ m.activeSince := by
      unfold weekOf at hfloor
      omega
    refine found_search ht hnow hlimit ?_ (.inr ⟨t, ht.moment, Int.not_lt.mp hlt, ht.le⟩) ?_
    · intro u hu hle
      unfold ScheduledDay
      rw [hp]
      exact weeklyStart_iff hstart hfloor hu hle
    · intro u hsince hu hday hbetween
      have hmoment := hu.eq_localDay
      refine ⟨hsince, hu, ?_⟩
      rw [hp]
      refine ⟨?_, fun v hv huv hvsince => (hbetween v hv.1 hvsince huv).2 hv.2⟩
      by_cases hle : limit ≤ u
      · refine .inl ⟨?_, hday hle⟩
        unfold weekOf at *
        omega
      · -- the next moment is not before the week
        refine .inr ?_
        by_contra hne
        obtain ⟨hnext, -⟩ := startMoment_sub hu (-1)
        have hday : localDay offset u + 5 ≤ 7 * weekOf (localDay offset m.activeSince) := by omega
        have := (hbetween _ hnext (by omega) (by omega)).1
        omega

theorem found_monthly (hp : p.type = .monthly) (hnow : m.activeSince ≤ now)
    (ht : LastMoment offset p now t) :
    Found offset m p now (dcCalculateMaintenancePeriod offset m p t) := by
  unfold dcCalculateMaintenancePeriod
  rw [hp]
  dsimp only
  refine found_search ht hnow (Int.le_refl _) ?_ (.inl hp) ?_
  · intro u _ _
    unfold ScheduledDay
    rw [hp]
    exact monthlyStart_iff u
  · intro u hsince hu _ hbetween
    refine ⟨hsince, hu, ?_⟩
    rw [hp]
    intro v hv huv hvsince
    exact absurd hvsince (Int.not_lt.mpr (hbetween v hv hvsince huv).1)

theorem found_period (hp : Recurring p) (hnow : m.activeSince ≤ now)
    (ht : LastMoment offset p now t) :
    Found offset m p now (dcCalculateMaintenancePeriod offset m p t) := by
  obtain htype | htype | htype := hp.type
  · exact found_daily htype hp.start (hp.every (by rw [htype]; decide)) ht
  · exact found_weekly htype hp.start hnow ht
  · exact found_monthly htype hnow ht

theorem runningFrom_until (t : ℤ) : (runningFrom m p t).2 = min (t + p.period) m.activeUntil := by
  unfold runningFrom
  dsimp only
  split_ifs with h
  · exact (min_eq_right h.le).symm
  · exact (min_eq_left (Int.not_lt.mp h)).symm

theorem filter_running (huntil : now < m.activeUntil) (hle : t ≤ now) :
    (some (runningFrom m p t)).filter (fun (since, until') => since ≤ now && now < until') =
      if now < t + p.period then some (runningFrom m p t) else none := by
  have huntil' : now < (runningFrom m p t).2 ↔ now < t + p.period := by
    rw [runningFrom_until, lt_min_iff, and_iff_left huntil]
  rw [Option.filter_some]
  refine if_congr ?_ rfl rfl
  rw [Bool.and_eq_true_iff, decide_eq_true_iff, decide_eq_true_iff, ← huntil']
  exact and_iff_right hle

/-- The latest occurrence that contains the time is found, unless no occurrence has started yet and
a moment before `activeSince` is taken for one. -/
theorem maintenance_period_agrees (offset : ℤ) (m : DcMaintenance) (p : DcMaintenancePeriod)
    (now : ℤ) (hp : Recurring p) (hsince : m.activeSince ≤ now) (huntil : now < m.activeUntil) :
    Agrees offset m p now (dcCheckMaintenancePeriod offset m p now) ↔
      ¬ StrayRunning offset m p now := by
  obtain ⟨t, ht, hcheck⟩ := @dcCheck_eq offset p hp m now
  have hfound := found_period (m := m) hp hsince ht
  rw [hcheck]
  generalize dcCalculateMaintenancePeriod offset m p t = result at hfound ⊢
  cases hfound with
  | scheduled u h =>
    obtain ⟨⟨hscheduled, hle, hunow⟩, hgreatest⟩ := h
    have hstray : ¬ StrayRunning offset m p now := fun hstray =>
      absurd (hstray.1 u hscheduled hle) (Int.not_lt.mpr hunow)
    rw [filter_running huntil hunow, iff_true_right hstray]
    split_ifs with hrunning
    · exact ⟨⟨⟨hscheduled, hle, hunow, hrunning⟩, fun v hv => hgreatest ⟨hv.1, hv.2.1, hv.2.2.1⟩⟩,
        runningFrom_until u⟩
    · refine Set.eq_empty_of_forall_notMem fun v hv => hrunning ?_
      have hvu : v ≤ u := hgreatest ⟨hv.1, hv.2.1, hv.2.2.1⟩
      have hvnow := hv.2.2.2
      omega
  | early hnone htype hmoment =>
    have hstray : ¬ StrayRunning offset m p now := by
      rintro ⟨-, hmonthly | ⟨v, hv, hle, hvnow⟩, -⟩
      · exact htype hmonthly
      · exact absurd (hmoment v hv hle) (Int.not_lt.mpr hvnow)
    rw [iff_true_right hstray]
    exact Set.eq_empty_of_forall_notMem fun v hv =>
      absurd (hnone v hv.1 hv.2.1) (Int.not_lt.mpr hv.2.2.1)
  | stray u hnone hmoment h hle =>
    rw [filter_running huntil hle]
    split_ifs with hrunning
    · have hstray : StrayRunning offset m p now := ⟨hnone, hmoment, u, h, hrunning⟩
      refine iff_of_false (fun hagrees => ?_) (not_not_intro hstray)
      exact absurd hagrees.1.1.2.1 (Int.not_le.mpr h.1)
    · refine iff_of_true ?_ ?_
      · exact Set.eq_empty_of_forall_notMem fun v hv =>
          absurd (hnone v hv.1 hv.2.1) (Int.not_lt.mpr hv.2.2.1)
      · rintro ⟨-, -, v, hv, hlt⟩
        rw [hv.unique hp h] at hlt
        exact hrunning hlt

def newYear : DcMaintenancePeriod where
  type := .monthly
  every := 0
  month := 1
  dayofweek := 0
  day := 1
  startTime := 32400
  period := 7200
  startDate := 0

theorem recurring_newYear : Recurring newYear where
  type := .inr (.inr rfl)
  start := by decide
  every := fun h => absurd rfl h

theorem maintenance_period_agrees_newYear :
    Agrees 3600 ⟨0, 2592000⟩ newYear 30000
        (dcCheckMaintenancePeriod 3600 ⟨0, 2592000⟩ newYear 30000) ↔
      ¬ StrayRunning 3600 ⟨0, 2592000⟩ newYear 30000 :=
  maintenance_period_agrees 3600 ⟨0, 2592000⟩ newYear 30000 recurring_newYear (by decide)
    (by decide)

/-- The maintenance becomes active in the middle of January, and half an hour later the period of
the first of January is found to be running. -/
theorem new_year_in_january :
    dcCheckMaintenancePeriod 0 ⟨1245600, 2592000⟩ newYear 1247400 = some (1242000, 1249200) ∧
      ¬ Agrees 0 ⟨1245600, 2592000⟩ newYear 1247400
        (dcCheckMaintenancePeriod 0 ⟨1245600, 2592000⟩ newYear 1247400) := by
  have hcheck : dcCheckMaintenancePeriod 0 ⟨1245600, 2592000⟩ newYear 1247400 =
      some (1242000, 1249200) := by decide
  refine ⟨hcheck, fun hagrees => ?_⟩
  rw [hcheck] at hagrees
  exact absurd hagrees.1.1.2.1 (by decide)

end Zabbix.Maintenance
