import Mathlib.Tactic.Linarith
import Zabbix.Interval.Flexible
import Zabbix.Interval.Timetable

/-!
# The next check of an item

`zbx_calculate_item_nextcheck` goes from one span of flexible intervals to the next until a check
comes before the end of its span. An `int` operation without a result is an overflow.
-/

namespace Zabbix.Interval

open Int Option

variable {x now tmax : ℤ} {custom : CustomInterval}

def itemTypeZabbixActive : ℕ := 7

def secPerYear : ℕ := 365 * secPerDay

def toInt (x : ℤ) : ℤ := x.bmod (2 ^ 32)

def intResult (x : ℤ) : Option ℤ := if -intEnd ≤ x ∧ x < intEnd then some x else none

/-- The loops `while (nextcheck < limit) nextcheck += current_delay`. -/
def skipTo (currentDelay limit : ℤ) : ℕ → ℤ → Option ℤ
  | 0, _ => none
  | fuel + 1, nextcheck =>
    if nextcheck < limit then
      (intResult (nextcheck + currentDelay)).bind (skipTo currentDelay limit fuel)
    else some nextcheck

/-- The next check in the span of a delay, which is positive, so that no more rounds are made than
there are numbers. -/
def nextcheckFrom (seed currentDelay attempt : ℕ) (t : ℤ) : Option ℤ :=
  (intResult (currentDelay * toInt (t.tdiv currentDelay))).bind fun product =>
    (intResult (product + (seed % currentDelay : ℕ))).bind fun nextcheck =>
      -- the first loop goes on while `nextcheck <= t`
      skipTo currentDelay (if attempt = 0 then t + 1 else t) (2 ^ 32) nextcheck

/-- The loop of `zbx_calculate_item_nextcheck`. Every round comes at least one second further. -/
def nextcheckLoop (seed simpleInterval : ℕ) (customIntervals : Option CustomInterval)
    (offset tmax : ℤ) : ℕ → ℕ → ℤ → ℤ → Option ℤ
  | 0, _, _, _ => none
  | fuel + 1, attempt, t, nextcheck =>
    if t < tmax then
      let currentDelay :=
        match customIntervals with
        | some custom => getCurrentDelay simpleInterval custom.flexible offset t
        | none => simpleInterval
      let nextcheck :=
        if currentDelay ≠ 0 then nextcheckFrom seed currentDelay attempt t else some zbxJan2038
      nextcheck.bind fun nextcheck =>
        match customIntervals with
        | none => some nextcheck
        | some custom =>
          match getNextDelayInterval custom.flexible offset t with
          | some nextInterval =>
            if nextInterval ≤ nextcheck then
              nextcheckLoop seed simpleInterval customIntervals offset tmax fuel (attempt + 1)
                nextInterval nextcheck
            else some nextcheck
          | none => some nextcheck
    else some nextcheck

def schedulerLoop (search : SchedulerInterval → Tm → ℤ) (tmStart : Tm) :
    ℤ → List SchedulerInterval → ℤ
  | nextcheck, [] => nextcheck
  | nextcheck, interval :: intervals =>
    let currentNextcheck := search interval tmStart
    schedulerLoop search tmStart
      (if nextcheck = 0 ∨ currentNextcheck < nextcheck then currentNextcheck else nextcheck) intervals

def schedulerGetNextcheck (search : SchedulerInterval → Tm → ℤ) (offset : ℤ)
    (intervals : List SchedulerInterval) (now : ℤ) : ℤ :=
  schedulerLoop search (zbxLocaltime offset now) 0 intervals

def zbxCalculateItemNextcheck (search : SchedulerInterval → Tm → ℤ) (offset : ℤ)
    (seed itemType simpleInterval : ℕ) (customIntervals : Option CustomInterval) (now : ℤ) :
    Option ℤ :=
  if itemType = itemTypeZabbixActive then
    if simpleInterval ≠ 0 then intResult (toInt now + simpleInterval) else some zbxJan2038
  else
    let scheduledCheck :=
      match customIntervals with
      | some custom => schedulerGetNextcheck search offset custom.scheduling now
      | none => 0
    (nextcheckLoop seed simpleInterval customIntervals offset (now + secPerYear) (secPerYear + 1) 0
      now 0).map fun nextcheck =>
        if scheduledCheck ≠ 0 ∧ scheduledCheck < nextcheck then toInt scheduledCheck else nextcheck

section

variable {seed delay attempt : ℕ} {t limit start : ℤ}

theorem isLeast_of_lt {v : ℤ} (hcongr : v ≡ seed [ZMOD delay]) (hle : limit ≤ v)
    (hlt : v < limit + delay) : IsLeast {v | limit ≤ v ∧ v ≡ seed [ZMOD delay]} v := by
  refine ⟨⟨hle, hcongr⟩, ?_⟩
  intro w hw
  by_contra hless
  have hdvd : (delay : ℤ) ∣ v - w := (hw.2.trans hcongr.symm).dvd
  have hstep := le_of_dvd (by omega) hdvd
  have := hw.1
  omega

theorem intResult_eq_some {y : ℤ} (h : intResult x = some y) : y = x ∧ x < intEnd := by
  unfold intResult at h
  split_ifs at h with hrange
  exact ⟨(Option.some.inj h).symm, hrange.2⟩

theorem intResult_of_nonneg (h : 0 ≤ x) : intResult x = if x < intEnd then some x else none := by
  unfold intResult
  congr 1
  apply propext
  have hend : intEnd = 2147483648 := rfl
  exact ⟨fun hrange => hrange.2, fun hlt => ⟨by omega, hlt⟩⟩

theorem skipTo_some {fuel : ℕ} {nextcheck r : ℤ} (hint : nextcheck < intEnd)
    (h : skipTo delay limit fuel nextcheck = some r) : limit ≤ r ∧ r < intEnd := by
  induction fuel generalizing nextcheck with
  | zero => contradiction
  | succ fuel ih =>
    rw [skipTo] at h
    split_ifs at h with hless
    · obtain ⟨next, hnext, h⟩ := bind_eq_some_iff.mp h
      obtain ⟨rfl, hlt⟩ := intResult_eq_some hnext
      exact ih hlt h
    · obtain rfl := Option.some.inj h
      exact ⟨by omega, hint⟩

theorem limit_cases (attempt : ℕ) (t : ℤ) :
    t ≤ (if attempt = 0 then t + 1 else t) ∧ (if attempt = 0 then t + 1 else t) ≤ t + 1 := by
  split_ifs <;> omega

theorem nextcheckFrom_late (ht : intEnd ≤ t) : nextcheckFrom seed delay attempt t = none := by
  rw [eq_none_iff_forall_ne_some]
  intro r h
  unfold nextcheckFrom at h
  obtain ⟨product, -, h⟩ := bind_eq_some_iff.mp h
  obtain ⟨nextcheck, hnext, h⟩ := bind_eq_some_iff.mp h
  obtain ⟨rfl, hint⟩ := intResult_eq_some hnext
  have hrange := skipTo_some hint h
  have hlow := (limit_cases attempt t).1
  omega

theorem base_congr (seed : ℕ) (hdelay : delay ≠ 0) (ht : 0 ≤ t) :
    (delay : ℤ) * (t / delay) + (seed % delay : ℕ) ≡ seed [ZMOD delay] ∧
      0 ≤ (delay : ℤ) * (t / delay) ∧ (delay : ℤ) * (t / delay) ≤ t ∧
      t < (delay : ℤ) * (t / delay) + delay ∧ seed % delay < delay := by
  have hpos : (0 : ℤ) < delay := by omega
  have hdiv := mul_ediv_add_emod t delay
  have hmod := emod_nonneg t hpos.ne'
  have hmod' := emod_lt_of_pos t hpos
  refine ⟨?_, mul_nonneg hpos.le (ediv_nonneg ht hpos.le), by omega, by omega,
    Nat.mod_lt seed (Nat.pos_of_ne_zero hdelay)⟩
  rw [natCast_mod, Int.ModEq, mul_add_emod_self_left, emod_emod_of_dvd _ dvd_rfl]

theorem isLeast_first (seed : ℕ) (hdelay : delay ≠ 0) (ht : 0 ≤ t) (hlow : t ≤ limit) (hhigh : limit ≤ t + 1) :
    IsLeast {v | limit ≤ v ∧ v ≡ seed [ZMOD delay]}
      (if limit ≤ delay * (t / delay) + (seed % delay : ℕ) then
        delay * (t / delay) + (seed % delay : ℕ)
      else delay * (t / delay) + (seed % delay : ℕ) + delay) := by
  obtain ⟨hcongr, hbase, hle, hlt, hseed⟩ := base_congr seed hdelay ht
  split_ifs with hreach
  · exact isLeast_of_lt hcongr hreach (by omega)
  · apply isLeast_of_lt _ (by omega) (by omega)
    rw [Int.ModEq, add_emod_right]
    exact hcongr

theorem nextcheckFrom_spec (seed attempt : ℕ) (hdelay : delay ≠ 0) (ht : 0 ≤ t) :
    ∃ first, IsLeast {v | (if attempt = 0 then t + 1 else t) ≤ v ∧ v ≡ seed [ZMOD delay]} first ∧
      nextcheckFrom seed delay attempt t = if first < intEnd then some first else none := by
  obtain ⟨hlow, hhigh⟩ := limit_cases attempt t
  refine ⟨_, isLeast_first seed hdelay ht hlow hhigh, ?_⟩
  have hleast := (isLeast_first seed hdelay ht hlow hhigh).1.1
  by_cases hlate : intEnd ≤ t
  · rw [nextcheckFrom_late hlate, if_neg (by omega)]
  · have hend : intEnd = 2147483648 := rfl
    obtain ⟨-, hbase, hle, hlt, hseed⟩ := base_congr seed hdelay ht
    have hquot : t / delay ≤ t := ediv_le_self _ ht
    have hquot' : 0 ≤ t / delay := ediv_nonneg ht (by omega)
    have hint : toInt (t / delay) = t / delay := bmod_eq_of_le (by omega) (by omega)
    obtain ⟨fuel, hfuel⟩ : ∃ fuel, 2 ^ 32 = fuel + 2 := ⟨4294967294, rfl⟩
    unfold nextcheckFrom
    generalize (if attempt = 0 then t + 1 else t) = limit at *
    rw [tdiv_eq_ediv_of_nonneg ht, hint, intResult_of_nonneg hbase, if_pos (by omega),
      bind_some, intResult_of_nonneg (by omega), hfuel]
    generalize (delay : ℤ) * (t / delay) + (seed % delay : ℕ) = base at *
    by_cases hreach : limit ≤ base
    · rw [if_pos hreach]
      by_cases hfits : base < intEnd
      · rw [if_pos hfits, bind_some, skipTo, if_neg (by omega)]
      · rw [if_neg hfits, bind_none]
    · rw [if_neg hreach, if_pos (by omega), bind_some, skipTo, if_pos (by omega),
        intResult_of_nonneg (by omega)]
      by_cases hfits : base + delay < intEnd
      · rw [if_neg hreach] at hleast
        rw [if_pos hfits, bind_some, skipTo, if_neg (by omega)]
      · rw [if_neg hfits, bind_none]

theorem limit_spec (hle : now ≤ t) (hfirst : attempt = 0 ↔ t = now) :
    now < (if attempt = 0 then t + 1 else t) ∧
      ∀ u, now < u → t ≤ u → (if attempt = 0 then t + 1 else t) ≤ u := by
  split_ifs with hattempt
  · exact ⟨by omega, fun u hu hut => by have := hfirst.mp hattempt; omega⟩
  · have hne : t ≠ now := fun heq => hattempt (hfirst.mpr heq)
    exact ⟨by omega, fun u hu hut => hut⟩

theorem nextcheckLoop_settles {simple fuel : ℕ} {offset prev : ℤ} (hvalid : custom.Valid)
    (hnonneg : 0 ≤ now) (hle : now ≤ t) (hmax : t < tmax) (hfuel : tmax - t < fuel)
    (hfirst : attempt = 0 ↔ t = now)
    (hnone : NoneDue (delayInEffect simple custom.flexible offset) seed now t)
    (hpass : PassesTo (delayInEffect simple custom.flexible offset) seed now t) :
    (∃ r, nextcheckLoop seed simple (some custom) offset tmax fuel attempt t prev = some r ∧
      IsNextcheck (delayInEffect simple custom.flexible offset) seed now tmax r) ↔
      Settles (delayInEffect simple custom.flexible offset) seed now tmax := by
  induction fuel generalizing t attempt prev with
  | zero => omega
  | succ fuel ih =>
    have hend {stop n : ℤ} (hstop : tmax ≤ stop) :
        nextcheckLoop seed simple (some custom) offset tmax fuel (attempt + 1) stop n = some n := by
      cases fuel with
      | zero => omega
      | succ fuel => rw [nextcheckLoop, if_neg (by omega)]
    obtain ⟨hlimit, hstart⟩ := limit_spec hle hfirst
    obtain ⟨hlow, hhigh⟩ := limit_cases attempt t
    rw [nextcheckLoop, if_pos hmax]
    dsimp only
    rw [getCurrentDelay_eq]
    cases hnext : getNextDelayInterval custom.flexible offset t with
    | none =>
      -- without flexible intervals the default is in effect at all times
      have hempty := getNextDelayInterval_none hvalid hnext
      have hdelay (s : ℤ) : delayInEffect simple custom.flexible offset s = simple := by
        rw [hempty]
        rfl
      by_cases hzero : simple = 0
      · have hnever (s : ℤ) (_ : t ≤ s) (_ : s < tmax) :
            delayInEffect simple custom.flexible offset s = 0 := (hdelay s).trans hzero
        rw [hdelay, if_neg (not_not_intro hzero), bind_some,
          ← zero_settles hle hmax hnone hpass hnever hmax (Or.inr le_rfl)]
        exact ⟨fun ⟨r, hr, hcheck⟩ => Option.some.inj hr ▸ hcheck, fun hcheck => ⟨_, rfl, hcheck⟩⟩
      · obtain ⟨first, hleast, hfrom⟩ := nextcheckFrom_spec seed attempt hzero
          (by omega : 0 ≤ t)
        rw [hdelay, if_pos hzero, hfrom]
        have hround := first_round some hle hmax hnone hpass (fun s _ (_ : s < tmax) => hdelay s) hzero
          hmax hlow hlimit hstart hleast (fun _ => rfl) (fun hlt => absurd hlt (lt_irrefl tmax))
        simp only [ite_self] at hround
        exact hround
    | some stop =>
      obtain ⟨hts, hsame⟩ := getNextDelayInterval_some simple hvalid hnext
      have hgo (n : ℤ) (hstop : stop < tmax)
          (hnone' : NoneDue (delayInEffect simple custom.flexible offset) seed now stop)
          (hpass' : PassesTo (delayInEffect simple custom.flexible offset) seed now stop) :
          (∃ r, nextcheckLoop seed simple (some custom) offset tmax fuel (attempt + 1) stop n =
              some r ∧ IsNextcheck (delayInEffect simple custom.flexible offset) seed now tmax r) ↔
            Settles (delayInEffect simple custom.flexible offset) seed now tmax :=
        ih (by omega) hstop (by omega) (by omega) hnone' hpass'
      by_cases hzero : delayInEffect simple custom.flexible offset t = 0
      · rw [if_neg (not_not_intro hzero), bind_some]
        exact zero_round hle hmax hnone hpass (fun s hs hlt => (hsame s hs hlt).trans hzero) hts hend
          (hgo zbxJan2038)
      · obtain ⟨first, hleast, hfrom⟩ := nextcheckFrom_spec seed attempt hzero
          (by omega : 0 ≤ t)
        rw [if_pos hzero, hfrom]
        exact first_round _ hle hmax hnone hpass hsame hzero hts hlow hlimit hstart hleast hend
          (hgo first)

theorem nextcheckLoop_start (seed simple : ℕ) (offset : ℤ) {fuel : ℕ} (hvalid : custom.Valid)
    (hnonneg : 0 ≤ now) (hmax : now < tmax) (hfuel : tmax - now < fuel) :
    (∃ r, nextcheckLoop seed simple (some custom) offset tmax fuel 0 now 0 = some r ∧
      IsNextcheck (delayInEffect simple custom.flexible offset) seed now tmax r) ↔
      Settles (delayInEffect simple custom.flexible offset) seed now tmax := by
  apply nextcheckLoop_settles hvalid hnonneg le_rfl hmax hfuel
  · exact ⟨fun _ => rfl, fun _ => rfl⟩
  · intro u hu hlt
    omega
  · intro s hs hlt
    omega

end

theorem zbxCalculateItemNextcheck_eq (search : SchedulerInterval → Tm → ℤ) (offset now : ℤ)
    (seed simple : ℕ) {itemType : ℕ} (htype : itemType ≠ itemTypeZabbixActive)
    (hscheduling : custom.scheduling = []) :
    zbxCalculateItemNextcheck search offset seed itemType simple (some custom) now =
      nextcheckLoop seed simple (some custom) offset (now + secPerYear) (secPerYear + 1) 0 now 0 := by
  unfold zbxCalculateItemNextcheck
  rw [if_neg htype]
  generalize secPerYear = year
  dsimp only
  rw [hscheduling, schedulerGetNextcheck, schedulerLoop]
  simp

theorem secPerYear_pos : 0 < secPerYear := by decide

/-- The next check of a passive item without scheduling intervals: when it is the least time at
which a check is due, or the end of time where none is due within a year. -/
theorem zbxCalculateItemNextcheck_settles_iff (search : SchedulerInterval → Tm → ℤ) (offset : ℤ)
    (seed simple now : ℕ) {itemType : ℕ} {custom : CustomInterval}
    (htype : itemType ≠ itemTypeZabbixActive) (hscheduling : custom.scheduling = [])
    (hvalid : custom.Valid) :
    (∃ r, zbxCalculateItemNextcheck search offset seed itemType simple (some custom) now = some r ∧
      IsNextcheck (delayInEffect simple custom.flexible offset) seed now (now + secPerYear) r) ↔
      Settles (delayInEffect simple custom.flexible offset) seed now (now + secPerYear) := by
  have hyear := secPerYear_pos
  rw [zbxCalculateItemNextcheck_eq search offset now seed simple htype hscheduling]
  generalize secPerYear = year at *
  exact nextcheckLoop_start seed simple offset hvalid (natCast_nonneg now) (by omega) (by omega)

def mondayMinute : CustomInterval := ⟨[⟨⟨1, 1, 0, 60⟩, 86400⟩], []⟩

theorem mondayMinute_parsed :
    zbxIntervalPreproc "0;86400/1,00:00-00:01".toList = .ok (0, mondayMinute) := by
  decide +kernel

theorem zbxCalculateItemNextcheck_settles_iff_monday :
    (∃ r, zbxCalculateItemNextcheck (fun _ _ => 0) 0 43200 0 0 (some mondayMinute)
        ((1736035230 : ℕ) : ℤ) = some r ∧
      IsNextcheck (delayInEffect 0 mondayMinute.flexible 0) 43200 ((1736035230 : ℕ) : ℤ)
        (((1736035230 : ℕ) : ℤ) + secPerYear) r) ↔
      Settles (delayInEffect 0 mondayMinute.flexible 0) 43200 ((1736035230 : ℕ) : ℤ)
        (((1736035230 : ℕ) : ℤ) + secPerYear) :=
  zbxCalculateItemNextcheck_settles_iff (fun _ _ => 0) 0 43200 0 1736035230 (by decide) rfl
    (zbxIntervalPreproc_valid mondayMinute_parsed)

theorem mondayMinute_delay (t : ℤ) : delayInEffect 0 mondayMinute.flexible 0 t =
    if (t / 86400 + 3) % 7 = 0 ∧ t % 86400 < 60 then 86400 else 0 := by
  have hactive : checkTimePeriod ⟨1, 1, 0, 60⟩ (zbxLocaltime 0 t) = true ↔
      (t / 86400 + 3) % 7 = 0 ∧ t % 86400 < 60 := by
    rw [checkTimePeriod, decide_eq_true_eq, localtime_day, localtime_seconds, add_zero]
    dsimp only
    omega
  rw [delayInEffect, activeDelays, mondayMinute, List.filter_singleton]
  by_cases h : (t / 86400 + 3) % 7 = 0 ∧ t % 86400 < 60
  · rw [if_pos h, hactive.mpr h]
    rfl
  · rw [if_neg h, Bool.eq_false_of_not_eq_true (mt hactive.mp h)]
    rfl

/-- The year of the search ends in the first minute of a Monday. Its candidate lies behind that
minute, and is returned. -/
theorem zbxCalculateItemNextcheck_beyond :
    ¬ ∃ r, zbxCalculateItemNextcheck (fun _ _ => 0) 0 43200 0 0 (some mondayMinute) 1736035230 =
        some r ∧
      IsNextcheck (delayInEffect 0 mondayMinute.flexible 0) 43200 1736035230
        (1736035230 + secPerYear) r := by
  have hnever (u : ℤ) : ¬ Due (delayInEffect 0 mondayMinute.flexible 0) 43200 u := by
    rintro ⟨hne, hcongr⟩
    rw [mondayMinute_delay] at hne hcongr
    split_ifs at hne hcongr with hmonday
    · have hmod : u % 86400 = 43200 := hcongr
      omega
    · contradiction
  have hyear : (secPerYear : ℤ) = 31536000 := rfl
  rw [zbxCalculateItemNextcheck_eq _ 0 1736035230 43200 0 (by decide) rfl]
  generalize secPerYear = year at *
  rw [nextcheckLoop_start 43200 0 0 (zbxIntervalPreproc_valid mondayMinute_parsed) (by decide)
    (by omega) (by omega), hyear]
  intro hsettles
  obtain ⟨u, -, -, hdue, -⟩ | ⟨-, ⟨z, -, hz, -, hzero, hend⟩ | ⟨-, -, hchance⟩⟩ := hsettles
  · exact hnever u hdue
  · have hjan : zbxJan2038 = 2145916800 := rfl
    have hlast : z = 1767571229 := by omega
    rw [mondayMinute_delay, hlast] at hzero
    contradiction
  · have hcongr := hchance.1.2
    rw [mondayMinute_delay] at hcongr
    contradiction

end Zabbix.Interval
