import Zabbix.Interval.Nextcheck

/-!
# Dates in ISO 8601

`zbx_iso8601_utc` reads a date and `zbx_utc_time` counts its seconds from 1970, in `int` arithmetic.
-/

namespace Zabbix.Interval

open Nat List Zabbix.Expr

def atoi (s : List Char) : ℤ :=
  toInt (min ((s.takeWhile isdigit).foldl (fun value c => value * 10 + (c.toNat - '0'.toNat)) 0)
    (2 ^ 63 - 1) : ℕ)

def zbxIso8601Timezone (zone : List Char) : Option ℤ :=
  let ptr := (if charAt zone = '.' then (zone.drop 1).dropWhile isdigit else zone).dropWhile (· = ' ')
  let c := charAt ptr
  if c = '\x00' ∨ c = 'Z' ∨ c = 'z' then some 0
  else if c = '-' ∨ c = '+' then
    let sign := if c = '-' then -1 else 1
    let ptr := ptr.drop 1
    if ptr.length < 4 then none
    else
      (zbxIsUintNRange ptr 2 0 23).bind fun h =>
        let ptr := ptr.drop 2
        let ptr := if charAt ptr = ':' then ptr.drop 1 else ptr
        if isdigit (charAt ptr) = false ∨ 59 < atoi ptr then none
        else some (toInt (sign * (atoi ptr + h * 60) * 60))
  else none

def iso8601Number (s : List Char) (offset : ℕ) (max : ℤ) : Option ℤ :=
  let ptr := s.drop offset
  if isdigit (charAt ptr) = false ∨ max < atoi ptr then none else some (atoi ptr)

def utcTimeInt (year mon mday hour min sec : ℤ) : Option ℤ :=
  if 0 ≤ year ∧ 0 ≤ mon ∧ 0 ≤ mday ∧ 0 ≤ hour ∧ 0 ≤ min ∧ 0 ≤ sec then
    zbxUtcTime year.toNat mon.toNat mday.toNat hour.toNat min.toNat sec.toNat
  else none

def zbxIso8601Utc (s : List Char) : Option ℤ :=
  if isdigit (charAt s) = false ∨ s.length < 19 ∨
      (charAt (s.drop 10) ≠ 'T' ∧ charAt (s.drop 10) ≠ ' ') ∨ charAt (s.drop 4) ≠ '-' ∨
      charAt (s.drop 7) ≠ '-' ∨ charAt (s.drop 13) ≠ ':' ∨ charAt (s.drop 16) ≠ ':' then none
  else do
    let mon ← iso8601Number s 5 12
    let mday ← iso8601Number s 8 31
    let hour ← iso8601Number s 11 23
    let min ← iso8601Number s 14 59
    let sec ← iso8601Number s 17 59
    let offset ← zbxIso8601Timezone (s.drop 19)
    let t ← utcTimeInt (atoi s) mon mday hour min sec
    some (t - offset)

/-- An `int`, and whether an operation on the way to it wrapped around. -/
structure Wrapping where
  value : ℤ
  wrapped : Bool

namespace Wrapping

def exact (x : ℤ) : Wrapping := ⟨x, false⟩

def result (x : ℤ) (wrapped : Bool) : Wrapping := ⟨toInt x, wrapped || decide (toInt x ≠ x)⟩

instance : Add Wrapping := ⟨fun a b => result (a.value + b.value) (a.wrapped || b.wrapped)⟩

instance : Sub Wrapping := ⟨fun a b => result (a.value - b.value) (a.wrapped || b.wrapped)⟩

instance : Mul Wrapping := ⟨fun a b => result (a.value * b.value) (a.wrapped || b.wrapped)⟩

instance : Div Wrapping := ⟨fun a b => result (a.value.tdiv b.value) (a.wrapped || b.wrapped)⟩

instance {n : ℕ} : OfNat Wrapping n := ⟨exact n⟩

end Wrapping

def leapYearsInt (year : Wrapping) : Wrapping := (year - 1) / 4 - (year - 1) / 100 + (year - 1) / 400

def utcTime (year mon mday hour min sec : ℕ) : Wrapping :=
  let int (n : ℕ) : Wrapping := .exact n
  (int year - 1970) * int secPerYear +
    (leapYearsInt (if 2 < mon then int year + 1 else int year) - leapYearsInt 1970) *
      int secPerDay +
    (int (monthDay.getD (mon - 1) 0) + int mday - 1) * int secPerDay + int hour * int secPerHour +
    int min * int secPerMin + int sec

theorem toInt_of_lt {x : ℕ} (h : (x : ℤ) < intEnd) : toInt x = x := by
  have hend : intEnd = 2147483648 := rfl
  exact Int.bmod_eq_of_le (by omega) (by omega)

theorem toInt_lt (x : ℤ) : toInt x < intEnd := by
  have hlt : toInt x < (2 ^ 32 + 1) / 2 := Int.bmod_lt (by decide)
  have hend : intEnd = 2147483648 := rfl
  omega

/-- What an expression over natural numbers gives. It is exact as long as the number is an `int`. -/
structure Wrapping.Gives (e : Wrapping) (x : ℕ) : Prop where
  value : e.value = toInt x
  wrapped : e.wrapped = true ↔ intEnd ≤ x

namespace Wrapping.Gives

variable {a b : Wrapping} {x y : ℕ}

theorem exact (h : (x : ℤ) < intEnd) : (Wrapping.exact x).Gives x :=
  ⟨(toInt_of_lt h).symm, ⟨fun hfalse => (nomatch hfalse), fun hle => absurd h (not_lt.mpr hle)⟩⟩

theorem of_lt (h : a.Gives x) (hx : (x : ℤ) < intEnd) : a = .exact x := by
  obtain ⟨value, wrapped⟩ := a
  have hvalue : value = toInt x := h.value
  have hwrapped : wrapped = false := Bool.eq_false_of_not_eq_true (mt h.wrapped.mp (not_le.mpr hx))
  rw [hvalue, hwrapped, toInt_of_lt hx]
  rfl

theorem of_result {exact : ℤ} {wrapped : Bool} {n : ℕ} (hvalue : toInt exact = toInt n)
    (hwrapped : wrapped = true → intEnd ≤ n) (hexact : wrapped = false → exact = n) :
    (Wrapping.result exact wrapped).Gives n := by
  refine ⟨hvalue, ?_⟩
  rw [Wrapping.result, Bool.or_eq_true, decide_eq_true_eq]
  cases wrapped with
  | true => exact ⟨fun _ => hwrapped rfl, fun _ => Or.inl rfl⟩
  | false =>
    rw [hexact rfl]
    constructor
    · intro hor
      by_contra hlt
      exact (hor.resolve_left Bool.false_ne_true) (toInt_of_lt (not_le.mp hlt))
    · intro hle
      right
      intro heq
      have hlt := toInt_lt n
      omega

theorem eq_of_not_wrapped (ha : a.Gives x) (hb : b.Gives y) (h : (a.wrapped || b.wrapped) = false) :
    a.value = x ∧ b.value = y := by
  obtain ⟨hx, hy⟩ := Bool.or_eq_false_iff.mp h
  have hx' : (x : ℤ) < intEnd := not_le.mp (mt ha.wrapped.mpr (Bool.not_eq_true _ ▸ hx))
  have hy' : (y : ℤ) < intEnd := not_le.mp (mt hb.wrapped.mpr (Bool.not_eq_true _ ▸ hy))
  rw [ha.value, hb.value, toInt_of_lt hx', toInt_of_lt hy']
  exact ⟨rfl, rfl⟩

theorem add (ha : a.Gives x) (hb : b.Gives y) : (a + b).Gives (x + y) := by
  apply of_result
  · rw [ha.value, hb.value, cast_add]
    exact (Int.add_bmod _ _ _).symm
  · intro h
    obtain h | h := Bool.or_eq_true_iff.mp h
    · have := ha.wrapped.mp h
      omega
    · have := hb.wrapped.mp h
      omega
  · intro h
    obtain ⟨hx, hy⟩ := eq_of_not_wrapped ha hb h
    rw [hx, hy, cast_add]

theorem mul (ha : a.Gives x) (hpos : 0 < y) (hy : (y : ℤ) < intEnd) :
    (a * Wrapping.exact y).Gives (x * y) := by
  have hb := exact hy
  have hle : x ≤ x * y := Nat.le_mul_of_pos_right x hpos
  apply of_result
  · rw [ha.value, hb.value, cast_mul]
    exact (Int.mul_bmod _ _ _).symm
  · intro h
    obtain h | h := Bool.or_eq_true_iff.mp h
    · have := ha.wrapped.mp h
      omega
    · exact absurd h Bool.false_ne_true
  · intro h
    obtain ⟨hx, hy⟩ := eq_of_not_wrapped ha hb h
    rw [hx, hy, cast_mul]

theorem sub (hle : y ≤ x) (hx : (x : ℤ) < intEnd) :
    Wrapping.exact x - Wrapping.exact y = Wrapping.exact (x - y : ℕ) := by
  apply of_lt
  · apply of_result
    · rw [cast_sub hle]
      rfl
    · exact fun h => absurd h Bool.false_ne_true
    · intro _
      rw [cast_sub hle]
      rfl
  · omega

theorem div (y : ℕ) (hx : (x : ℤ) < intEnd) :
    Wrapping.exact x / Wrapping.exact y = Wrapping.exact (x / y : ℕ) := by
  have hle := Nat.div_le_self x y
  have hdiv : (x : ℤ).tdiv y = (x / y : ℕ) := rfl
  apply of_lt
  · apply of_result
    · exact congrArg toInt hdiv
    · exact fun h => absurd h Bool.false_ne_true
    · exact fun _ => hdiv
  · omega

end Wrapping.Gives

theorem leapYearsInt_exact {year : ℕ} (hpos : 0 < year) (hyear : (year : ℤ) < intEnd) :
    leapYearsInt (.exact year) = .exact (leapYears year) := by
  have hone : (Wrapping.exact year - 1) = Wrapping.exact (year - 1 : ℕ) := Wrapping.Gives.sub hpos hyear
  have hfour : (Wrapping.exact (year - 1 : ℕ) / 4) = Wrapping.exact ((year - 1) / 4 : ℕ) :=
    Wrapping.Gives.div 4 (by omega)
  have hhundred : (Wrapping.exact (year - 1 : ℕ) / 100) = Wrapping.exact ((year - 1) / 100 : ℕ) :=
    Wrapping.Gives.div 100 (by omega)
  have hcycle : (Wrapping.exact (year - 1 : ℕ) / 400) = Wrapping.exact ((year - 1) / 400 : ℕ) :=
    Wrapping.Gives.div 400 (by omega)
  rw [leapYearsInt, hone, hfour, hhundred, hcycle, Wrapping.Gives.sub (by omega) (by omega)]
  apply Wrapping.Gives.of_lt
  · exact (Wrapping.Gives.exact (by omega)).add (Wrapping.Gives.exact (by omega))
  · unfold leapYears
    omega

structure CivilTime where
  year : ℕ
  mon : ℕ
  mday : ℕ
  hour : ℕ
  min : ℕ
  sec : ℕ
  from_1970 : 1970 ≤ year
  four_digits : year ≤ 9999
  month : 1 ≤ mon ∧ mon ≤ 12
  day : 1 ≤ mday ∧ mday ≤ zbxDayInMonth year mon
  time : hour ≤ 23 ∧ min ≤ 59 ∧ sec ≤ 59

namespace CivilTime

def days (date : CivilTime) : ℕ :=
  monthStart (12 * (date.year - 1970) + (date.mon - 1)) + (date.mday - 1)

def seconds (date : CivilTime) : ℕ :=
  date.days * 86400 + date.hour * 3600 + date.min * 60 + date.sec

def utcTime (date : CivilTime) : Wrapping :=
  Interval.utcTime date.year date.mon date.mday date.hour date.min date.sec

def zbxUtcTime (date : CivilTime) : Option ℤ :=
  Interval.zbxUtcTime date.year date.mon date.mday date.hour date.min date.sec

def twoDigits (n : ℕ) : List Char := [Char.ofNat (48 + n / 10 % 10), Char.ofNat (48 + n % 10)]

def text (date : CivilTime) : List Char :=
  twoDigits (date.year / 100) ++ twoDigits date.year ++ '-' :: twoDigits date.mon ++
    '-' :: twoDigits date.mday ++ 'T' :: twoDigits date.hour ++ ':' :: twoDigits date.min ++
    ':' :: twoDigits date.sec

variable (date : CivilTime)

theorem days_eq : date.days = (date.year - 1970) * 365 +
    (leapYears (if 2 < date.mon then date.year + 1 else date.year) - leapYears 1970) +
      (monthDay.getD (date.mon - 1) 0 + date.mday - 1) := by
  have hmonth := date.month
  have hday := date.day
  have hfrom := date.from_1970
  have hfirst := utcDays_first (12 * (date.year - 1970) + (date.mon - 1))
  rw [show 1970 + (12 * (date.year - 1970) + (date.mon - 1)) / 12 = date.year by omega,
    show (12 * (date.year - 1970) + (date.mon - 1)) % 12 + 1 = date.mon by omega] at hfirst
  rw [days, ← hfirst, utcDays]
  omega

theorem monthDay_le : monthDay.getD (date.mon - 1) 0 ≤ 334 := by
  obtain ⟨hpos, hle⟩ := date.month
  generalize date.mon = mon at hpos hle
  interval_cases mon <;> decide

theorem mday_le : date.mday ≤ 31 := by
  have hday := date.day
  have hmonth := date.month
  have hle := monthDays_le (12 * (date.year - 1970) + (date.mon - 1))
  have hfrom := date.from_1970
  rw [monthDays, show 1970 + (12 * (date.year - 1970) + (date.mon - 1)) / 12 = date.year by omega,
    show (12 * (date.year - 1970) + (date.mon - 1)) % 12 + 1 = date.mon by omega] at hle
  omega

theorem utcTime_gives : date.utcTime.Gives date.seconds := by
  have hend : intEnd = 2147483648 := rfl
  have hfrom := date.from_1970
  have hdigits := date.four_digits
  have hmonth := date.month
  have hday := date.day
  obtain ⟨hhour, hmin, hsec⟩ := date.time
  have hdays := date.days_eq
  have hmonthDay := date.monthDay_le
  have hmday := date.mday_le
  have hleap : leapYears 1970 ≤ leapYears (if 2 < date.mon then date.year + 1 else date.year) ∧
      leapYears (if 2 < date.mon then date.year + 1 else date.year) ≤ 10000 := by
    unfold leapYears
    split_ifs <;> omega
  generalize hyear : (if 2 < date.mon then date.year + 1 else date.year) = year at hleap hdays
  have hleapInt : leapYearsInt (if 2 < date.mon then .exact date.year + 1 else .exact date.year) =
      .exact (leapYears year) := by
    rw [← hyear]
    split_ifs
    · have hnext : Wrapping.exact date.year + 1 = Wrapping.exact (date.year + 1 : ℕ) :=
        ((Wrapping.Gives.exact (by omega)).add (Wrapping.Gives.exact (x := 1) (by decide))).of_lt
          (by omega)
      rw [hnext]
      exact leapYearsInt_exact (by omega) (by omega)
    · exact leapYearsInt_exact (by omega) (by omega)
  have hyears : Wrapping.exact date.year - 1970 = Wrapping.exact (date.year - 1970 : ℕ) :=
    Wrapping.Gives.sub hfrom (by omega)
  have hbase : leapYearsInt 1970 = Wrapping.exact (leapYears 1970) :=
    leapYearsInt_exact (by decide) (by decide)
  have hsum : Wrapping.exact (monthDay.getD (date.mon - 1) 0) + .exact date.mday =
      Wrapping.exact (monthDay.getD (date.mon - 1) 0 + date.mday : ℕ) :=
    ((Wrapping.Gives.exact (by omega)).add (Wrapping.Gives.exact (by omega))).of_lt (by omega)
  have hinMonth : Wrapping.exact (monthDay.getD (date.mon - 1) 0) + .exact date.mday - 1 =
      Wrapping.exact (monthDay.getD (date.mon - 1) 0 + date.mday - 1 : ℕ) := by
    rw [hsum]
    have hpos : 1 ≤ monthDay.getD (date.mon - 1) 0 + date.mday := by omega
    exact Wrapping.Gives.sub hpos (by omega)
  have hseconds : date.seconds = (date.year - 1970) * secPerYear +
      (leapYears year - leapYears 1970) * secPerDay +
      (monthDay.getD (date.mon - 1) 0 + date.mday - 1) * secPerDay + date.hour * secPerHour +
      date.min * secPerMin + date.sec := by
    rw [seconds, hdays, secPerYear, secPerDay, secPerHour, secPerMin]
    omega
  have hpositive : (0 < secPerYear ∧ (secPerYear : ℤ) < intEnd) ∧
      (0 < secPerDay ∧ (secPerDay : ℤ) < intEnd) ∧ (0 < secPerHour ∧ (secPerHour : ℤ) < intEnd) ∧
      (0 < secPerMin ∧ (secPerMin : ℤ) < intEnd) := by decide
  obtain ⟨hyearly, hdaily, hhourly, hminutely⟩ := hpositive
  rw [utcTime, Interval.utcTime]
  simp only
  rw [hleapInt, hyears, hbase, hinMonth, Wrapping.Gives.sub hleap.1 (by omega), hseconds]
  have first := (Wrapping.Gives.exact (x := date.year - 1970) (by omega)).mul hyearly.1 hyearly.2
  have second := (Wrapping.Gives.exact (x := leapYears year - leapYears 1970) (by omega)).mul
    hdaily.1 hdaily.2
  have third := (Wrapping.Gives.exact (x := monthDay.getD (date.mon - 1) 0 + date.mday - 1)
    (by omega)).mul hdaily.1 hdaily.2
  have fourth := (Wrapping.Gives.exact (x := date.hour) (by omega)).mul hhourly.1 hhourly.2
  have fifth := (Wrapping.Gives.exact (x := date.min) (by omega)).mul hminutely.1 hminutely.2
  exact ((((first.add second).add third).add fourth).add fifth).add (Wrapping.Gives.exact (by omega))

theorem zbxUtcTime_eq : date.zbxUtcTime =
    if 0 ≤ date.utcTime.value then some date.utcTime.value else none := by
  have hfrom := date.from_1970
  have hmonth := date.month
  have hday := date.day
  have htime := date.time
  have hvalue : Int.bmod (utcDays date.year date.mon date.mday * 86400 + date.hour * 3600 +
      date.min * 60 + date.sec) (2 ^ 32) = date.utcTime.value := by
    have hdays : utcDays date.year date.mon date.mday = date.days := by rw [days_eq, utcDays]
    rw [date.utcTime_gives.value, hdays, toInt, seconds]
    push_cast
    rfl
  rw [zbxUtcTime, Interval.zbxUtcTime, hvalue]
  by_cases hnonneg : 0 ≤ date.utcTime.value
  · rw [if_pos hnonneg]
    exact if_pos ⟨hfrom, hmonth.1, hmonth.2, hday.1, hday.2, htime.1, htime.2.1, by omega, hnonneg⟩
  · rw [if_neg hnonneg]
    exact if_neg (fun hall => hnonneg hall.2.2.2.2.2.2.2.2)

/-- `zbx_utc_time` fails or gives the seconds from 1970, and no operation wraps around, exactly for
the dates whose seconds are an `int`. -/
theorem zbxUtcTime_exact_iff (date : CivilTime) :
    (date.utcTime.wrapped = false ∧
      (date.zbxUtcTime = none ∨ date.zbxUtcTime = some (date.seconds : ℤ))) ↔
      (date.seconds : ℤ) < 2 ^ 31 := by
  have hgives := date.utcTime_gives
  constructor
  · intro h
    by_contra hlarge
    exact Bool.false_ne_true (h.1.symm.trans (hgives.wrapped.mpr (not_lt.mp hlarge)))
  · intro hsmall
    refine ⟨Bool.eq_false_of_not_eq_true (mt hgives.wrapped.mp (not_le.mpr hsmall)), Or.inr ?_⟩
    rw [zbxUtcTime_eq, hgives.value, toInt_of_lt hsmall, if_pos (Int.natCast_nonneg _)]

def wrapsToZero : CivilTime :=
  ⟨2106, 2, 7, 6, 28, 16, by decide, by decide, by decide, by decide, by decide⟩

theorem zbxUtcTime_wraps : ¬(wrapsToZero.utcTime.wrapped = false ∧
    (wrapsToZero.zbxUtcTime = none ∨
      wrapsToZero.zbxUtcTime = some (wrapsToZero.seconds : ℤ))) ∧
    wrapsToZero.zbxUtcTime = some 0 := by
  have hzero : wrapsToZero.zbxUtcTime = some 0 := by decide
  refine ⟨?_, hzero⟩
  intro h
  have hlarge : intEnd ≤ (wrapsToZero.seconds : ℤ) := by decide +kernel
  exact Bool.false_ne_true (h.1.symm.trans (wrapsToZero.utcTime_gives.wrapped.mpr hlarge))

theorem digit_spec {k : ℕ} (hk : k < 10) : isdigit (Char.ofNat (48 + k)) = true ∧
    (Char.ofNat (48 + k)).toNat - '0'.toNat = k := by
  interval_cases k <;> decide

theorem atoi_digits (digits : List ℕ) (hdigits : ∀ k ∈ digits, k < 10) {rest : List Char}
    (hrest : isdigit (charAt rest) = false) {n : ℕ}
    (hn : digits.foldl (fun value k => value * 10 + k) 0 = n) (hlt : (n : ℤ) < intEnd) :
    atoi (digits.map (fun k => Char.ofNat (48 + k)) ++ rest) = n := by
  have hstop : rest.takeWhile isdigit = [] := by
    cases rest with
    | nil => rfl
    | cons c rest => exact takeWhile_cons_of_neg (Bool.eq_false_iff.mp hrest)
  have hall : ∀ c ∈ digits.map (fun k => Char.ofNat (48 + k)), isdigit c = true := by
    intro c hc
    obtain ⟨k, hk, rfl⟩ := mem_map.mp hc
    exact (digit_spec (hdigits k hk)).1
  have hfold : ∀ acc, (digits.map (fun k => Char.ofNat (48 + k))).foldl
      (fun value c => value * 10 + (c.toNat - '0'.toNat)) acc =
        digits.foldl (fun value k => value * 10 + k) acc := by
    clear hn hall
    induction digits with
    | nil => exact fun acc => rfl
    | cons k digits ih =>
      intro acc
      have hk := (digit_spec (hdigits k mem_cons_self)).2
      rw [map_cons, foldl_cons, foldl_cons, hk]
      exact ih (fun other hother => hdigits other (mem_cons_of_mem k hother)) _
  have hend : intEnd = 2147483648 := rfl
  rw [atoi, takeWhile_append_of_pos hall, hstop, append_nil, hfold, hn, min_eq_left (by omega)]
  exact toInt_of_lt hlt

theorem atoi_twoDigits {n : ℕ} (hn : n < 100) {rest : List Char}
    (hrest : isdigit (charAt rest) = false) : atoi (twoDigits n ++ rest) = n := by
  have hend : intEnd = 2147483648 := rfl
  refine atoi_digits [n / 10 % 10, n % 10] ?_ hrest ?_ (by omega)
  · simp only [mem_cons, not_mem_nil, or_false, forall_eq_or_imp, forall_eq]
    omega
  · simp only [foldl_cons, foldl_nil]
    omega

theorem atoi_fourDigits {n : ℕ} (hn : n < 10000) (rest : List Char)
    (hrest : isdigit (charAt rest) = false) :
    atoi (twoDigits (n / 100) ++ twoDigits n ++ rest) = n := by
  have hend : intEnd = 2147483648 := rfl
  refine atoi_digits [n / 100 / 10 % 10, n / 100 % 10, n / 10 % 10, n % 10] ?_ hrest ?_
    (by omega)
  · simp only [mem_cons, not_mem_nil, or_false, forall_eq_or_imp, forall_eq]
    omega
  · simp only [foldl_cons, foldl_nil]
    omega

theorem iso8601Number_twoDigits (max : ℕ) {s : List Char} {offset n : ℕ} (rest : List Char)
    (hs : s.drop offset = twoDigits n ++ rest) (hrest : isdigit (charAt rest) = false) (hn : n < 100)
    (hmax : n ≤ max) : iso8601Number s offset max = some (n : ℤ) := by
  have hdigit : isdigit (charAt (twoDigits n ++ rest)) = true :=
    (digit_spec (mod_lt (n / 10) (by decide : 10 > 0))).1
  rw [iso8601Number]
  simp only [hs, hdigit, atoi_twoDigits hn hrest]
  rw [if_neg]
  rintro (h | h)
  · exact absurd h (by decide)
  · omega

theorem zbxIso8601Utc_text : zbxIso8601Utc date.text = date.zbxUtcTime := by
  have hmonth := date.month
  have hday := date.mday_le
  obtain ⟨hhour, hmin, hsec⟩ := date.time
  have hstart : isdigit (charAt date.text) = true :=
    (digit_spec (mod_lt (date.year / 100 / 10) (by decide : 10 > 0))).1
  have hmon : iso8601Number date.text 5 12 = some (date.mon : ℤ) :=
    iso8601Number_twoDigits 12 (date.text.drop 7) rfl rfl (by omega) hmonth.2
  have hmday : iso8601Number date.text 8 31 = some (date.mday : ℤ) :=
    iso8601Number_twoDigits 31 (date.text.drop 10) rfl rfl (by omega) hday
  have hhour' : iso8601Number date.text 11 23 = some (date.hour : ℤ) :=
    iso8601Number_twoDigits 23 (date.text.drop 13) rfl rfl (by omega) hhour
  have hmin' : iso8601Number date.text 14 59 = some (date.min : ℤ) :=
    iso8601Number_twoDigits 59 (date.text.drop 16) rfl rfl (by omega) hmin
  have hsec' : iso8601Number date.text 17 59 = some (date.sec : ℤ) :=
    iso8601Number_twoDigits 59 [] rfl rfl (by omega) hsec
  have hyear : atoi date.text = date.year := by
    have hdigits := date.four_digits
    exact atoi_fourDigits (by omega) (date.text.drop 4) rfl
  have hzone : zbxIso8601Timezone (date.text.drop 19) = some 0 := rfl
  have hshape : ¬(isdigit (charAt date.text) = false ∨ date.text.length < 19 ∨
      (charAt (date.text.drop 10) ≠ 'T' ∧ charAt (date.text.drop 10) ≠ ' ') ∨
      charAt (date.text.drop 4) ≠ '-' ∨ charAt (date.text.drop 7) ≠ '-' ∨
      charAt (date.text.drop 13) ≠ ':' ∨ charAt (date.text.drop 16) ≠ ':') := by
    rw [hstart]
    rintro (h | h | h | h | h | h | h)
    · exact absurd h (by decide)
    · exact absurd h (lt_irrefl 19)
    · exact h.1 rfl
    all_goals exact h rfl
  rw [zbxIso8601Utc, if_neg hshape, hmon, hmday, hhour', hmin', hsec', hzone, hyear]
  have hnonneg : (0 : ℤ) ≤ date.year ∧ (0 : ℤ) ≤ date.mon ∧ (0 : ℤ) ≤ date.mday ∧
      (0 : ℤ) ≤ date.hour ∧ (0 : ℤ) ≤ date.min ∧ (0 : ℤ) ≤ date.sec := by omega
  simp only [Option.bind_eq_bind, Option.bind_some, utcTimeInt, if_pos hnonneg, Int.toNat_natCast,
    sub_zero]
  exact Option.bind_fun_some _

end CivilTime

end Zabbix.Interval
