import Zabbix.Trends.CivilTime

/-!
# Trend function periods

What `zbx_trends_parse_range` accepts, and the range it gives for a period and a shift.
-/

namespace Zabbix.Trends

open List Zabbix.Expr Zabbix.Interval

variable {limit len : ℕ} {num : ℤ}

def TimeUnit.letter : TimeUnit → Char
  | .unknown => '\x00'
  | .second => 's'
  | .minute => 'm'
  | .hour => 'h'
  | .day => 'd'
  | .week => 'w'
  | .month => 'M'
  | .year => 'y'

structure Period where
  digits : List Char
  unit : TimeUnit

def Period.count (p : Period) : ℕ :=
  p.digits.foldl (fun value c => value * 10 + (c.toNat - '0'.toNat)) 0

def Period.text (p : Period) : List Char := p.digits ++ [p.unit.letter]

structure Period.Written (p : Period) : Prop where
  digits : p.digits.all isdigit
  unit : p.unit ≠ .unknown

inductive ShiftOp
  | round (unit : TimeUnit)
  | add (period : Period)
  | sub (period : Period)

def ShiftOp.text : ShiftOp → List Char
  | .round unit => ['/', unit.letter]
  | .add period => '+' :: period.text
  | .sub period => '-' :: period.text

def ShiftOp.Written : ShiftOp → Prop
  | .round unit => unit ≠ .unknown
  | .add period => period.Written
  | .sub period => period.Written

def ShiftOp.apply (t : ℤ) : ShiftOp → ℤ
  | .round unit => roundDown t unit
  | .add period => addUnits t period.count period.unit
  | .sub period => addUnits t (-period.count) period.unit

def rangeText (period : Period) (ops : List ShiftOp) : List Char :=
  period.text ++ ':' :: 'n' :: 'o' :: 'w' :: ops.flatMap ShiftOp.text

variable {offset from_ t : ℤ} {text rest : List Char} {period : Period} {ops : List ShiftOp}

def ShiftOp.run (offset : ℤ) (tm : Tm) : ShiftOp → Tm
  | .round unit => zbxTmRoundDown offset tm unit
  | .add period => zbxTmAdd offset tm (toInt period.count) period.unit
  | .sub period => zbxTmSub offset tm (toInt period.count) period.unit

theorem zbxTmStrToUnit_letter (h : zbxTmStrToUnit text ≠ .unknown) :
    text = (zbxTmStrToUnit text).letter :: text.tail := by
  cases text with
  | nil => exact absurd rfl h
  | cons c text =>
    have hhead : charAt (c :: text) = c := rfl
    unfold zbxTmStrToUnit at h ⊢
    rw [hhead] at h ⊢
    split at h <;> first | rfl | exact absurd rfl h

theorem readDigits_eq : ∀ (digits : List Char) {acc value : ℕ},
    readDigits limit acc digits = some value →
      digits.foldl (fun value c => value * 10 + (c.toNat - '0'.toNat)) acc = value
  | [], _, _, h => Option.some_inj.mp h
  | c :: digits, acc, value, h => by
    unfold readDigits at h
    simp only at h
    split_ifs at h
    exact readDigits_eq digits h

theorem zbxIsUintNRange_count {digits : List Char} {value max : ℕ}
    (h : zbxIsUintNRange (digits ++ rest) digits.length 0 max = some value) :
    digits.foldl (fun value c => value * 10 + (c.toNat - '0'.toNat)) 0 = value ∧ value ≤ max := by
  unfold zbxIsUintNRange at h
  rw [take_left] at h
  split_ifs at h with hempty hdigits
  obtain ⟨read, hread, hbounds⟩ := Option.bind_eq_some_iff.mp h
  split_ifs at hbounds with hrange
  obtain rfl := Option.some_inj.mp hbounds
  exact ⟨readDigits_eq digits hread, by omega⟩

variable {unit : TimeUnit}

theorem zbxTmParsePeriod_ok (h : zbxTmParsePeriod text = .ok (len, num, unit)) :
    ∃ period : Period, period.Written ∧ text = period.text ++ text.drop len ∧
      period.text.length = len ∧ num = toInt period.count ∧ unit = period.unit ∧
      period.count < 2 ^ 32 := by
  have htext : text.takeWhile isdigit ++ text.dropWhile isdigit = text := takeWhile_append_dropWhile
  have hdigits : (text.takeWhile isdigit).all isdigit := all_takeWhile
  generalize hd : text.takeWhile isdigit = digits at htext hdigits
  generalize text.dropWhile isdigit = rest at htext
  subst htext
  unfold zbxTmParsePeriod at h
  simp only [hd, drop_left] at h
  cases hrange : zbxIsUintNRange (digits ++ rest) digits.length 0 (2 ^ 32 - 1) with
  | none => rw [hrange] at h; exact nomatch h
  | some value =>
    rw [hrange] at h
    simp only at h
    split_ifs at h with hunit
    obtain ⟨hcount, hmax⟩ := zbxIsUintNRange_count hrange
    have hletter := zbxTmStrToUnit_letter hunit
    simp only [Except.ok.injEq, Prod.mk.injEq] at h
    obtain ⟨rfl, rfl, rfl⟩ := h
    refine ⟨⟨digits, zbxTmStrToUnit rest⟩, ⟨hdigits, hunit⟩, ?_, ?_, ?_, rfl, ?_⟩
    · unfold Period.text
      rw [append_assoc]
      congr 1
      conv_lhs => rw [hletter]
      simp [← drop_drop]
    · simp [Period.text]
    · unfold Period.count
      rw [hcount]
    · unfold Period.count
      rw [hcount]
      omega

theorem advance_append (first : List Char) : advance first.length (first ++ rest) = .ok rest := by
  unfold advance
  rw [if_pos (by simp), drop_left]

theorem advance_one {c : Char} : advance 1 (c :: rest) = .ok rest := advance_append [c]

theorem advance_period (h : zbxTmParsePeriod text = .ok (len, num, unit)) :
    ∃ (period : Period) (rest : List Char), period.Written ∧ text = period.text ++ rest ∧
      advance len text = .ok rest ∧ num = toInt period.count ∧ unit = period.unit ∧
      period.count < 2 ^ 32 := by
  obtain ⟨period, hwritten, htext, hlength, hnum, hunit, hcount⟩ := zbxTmParsePeriod_ok h
  refine ⟨period, text.drop len, hwritten, htext, ?_, hnum, hunit, hcount⟩
  rw [← hlength]
  conv_lhs => rw [htext, ← hlength]
  exact advance_append _

/-- A result is no read past the terminator, and comes from operations that are the text. -/
structure Parsed (offset : ℤ) (p : List Char) (tm : Tm) (result : Except Stop Tm) : Prop where
  inside : result ≠ .error .overread
  ops : ∀ tm', result = .ok tm' → ∃ ops : List ShiftOp, (∀ op ∈ ops, op.Written) ∧
    p = ops.flatMap ShiftOp.text ∧ tm' = ops.foldl (ShiftOp.run offset) tm

namespace Parsed

variable {p : List Char} {tm : Tm} {result : Except Stop Tm}

theorem fail (message : String) (text : List Char) : Parsed offset p tm (fail message text) := by
  refine ⟨?_, fun tm' h => nomatch h⟩
  unfold Trends.fail
  simp

theorem cons (op : ShiftOp) (hop : op.Written) (h : Parsed offset p (op.run offset tm) result) :
    Parsed offset (op.text ++ p) tm result := by
  refine ⟨h.inside, fun tm' htm => ?_⟩
  obtain ⟨ops, hwritten, rfl, rfl⟩ := h.ops tm' htm
  exact ⟨op :: ops, forall_mem_cons.mpr ⟨hop, hwritten⟩, rfl, rfl⟩

end Parsed

theorem parseShift_parsed {minTimeUnit : TimeUnit} :
    ∀ {fuel : ℕ} {p : List Char} {tm : Tm}, '\x00' ∉ p → p.length < fuel →
      Parsed offset p tm (parseShift offset minTimeUnit fuel p tm)
  | 0, _, _, _, hfuel => absurd hfuel (Nat.not_lt_zero _)
  | fuel + 1, [], tm, _, _ =>
    ⟨nofun, fun tm' h => ⟨[], forall_mem_nil _, rfl, (Except.ok.inj h).symm⟩⟩
  | fuel + 1, c :: p, tm, hzero, hfuel => by
    have hc : charAt (c :: p) ≠ '\x00' := fun hc => hzero (mem_cons.mpr (.inl hc.symm))
    have hlen : p.length < fuel := Nat.lt_of_succ_lt_succ hfuel
    unfold parseShift
    rw [if_neg hc]
    by_cases hround : charAt (c :: p) = '/'
    · rw [if_pos hround, advance_one, Except.bind]
      simp only
      split_ifs with hunit hmin
      · exact Parsed.fail _ _
      · exact Parsed.fail _ _
      · have hletter := zbxTmStrToUnit_letter hunit
        generalize zbxTmStrToUnit p = unit at hunit hletter ⊢
        generalize p.tail = rest at hletter
        subst hletter
        rw [advance_one, Except.bind]
        obtain rfl : c = '/' := hround
        have hrest : '\x00' ∉ rest := fun hmem => hzero (mem_cons_of_mem _ (mem_cons_of_mem _ hmem))
        rw [length_cons] at hlen
        exact Parsed.cons (.round unit) hunit
          (parseShift_parsed hrest (Nat.lt_of_succ_lt hlen))
    · rw [if_neg hround]
      by_cases hsign : charAt (c :: p) = '+' ∨ charAt (c :: p) = '-'
      · rw [if_pos hsign, advance_one, Except.bind]
        simp only
        cases hperiod : zbxTmParsePeriod p with
        | error message => exact ⟨by simp, fun tm' h => nomatch h⟩
        | ok parsed =>
          obtain ⟨len, num, unit⟩ := parsed
          obtain ⟨period, rest, hwritten, htext, hadvance, hnum, hunit, -⟩ := advance_period hperiod
          rw [htext] at hzero hlen ⊢
          have hrest : '\x00' ∉ rest := fun hmem =>
            hzero (mem_cons_of_mem _ (mem_append_right _ hmem))
          rw [length_append] at hlen
          simp only [← htext, hadvance, hnum, hunit, Except.bind]
          split_ifs with hmin hplus
          · exact Parsed.fail _ _
          · obtain rfl : c = '+' := hplus
            rw [htext]
            exact Parsed.cons (.add period) hwritten (parseShift_parsed hrest (by omega))
          · obtain rfl : c = '-' := hsign.resolve_left hplus
            rw [htext]
            exact Parsed.cons (.sub period) hwritten (parseShift_parsed hrest (by omega))
      · rw [if_neg hsign]
        exact Parsed.fail _ _

def Period.Taken (period : Period) : Prop :=
  period.count < 2 ^ 32 ∧ toInt period.count ≠ 0 ∧
    toInt (periodHours period.unit * toInt period.count) ≤ 24 * 366

theorem trendsParseTimeshift_parsed (offset from_ : ℤ) (minTimeUnit : TimeUnit) (hzero : '\x00' ∉ text) :
    trendsParseTimeshift offset from_ text minTimeUnit ≠ .error .overread ∧
      ∀ tm, trendsParseTimeshift offset from_ text minTimeUnit = .ok tm →
        ∃ ops : List ShiftOp, (∀ op ∈ ops, op.Written) ∧
          text = 'n' :: 'o' :: 'w' :: ops.flatMap ShiftOp.text ∧
          tm = ops.foldl (ShiftOp.run offset) (localtimeOrZero offset from_) := by
  unfold trendsParseTimeshift
  split_ifs with hnow
  · exact ⟨by simp [fail], fun tm h => nomatch h⟩
  · have hdrop : '\x00' ∉ text.drop 3 := fun hmem => hzero (mem_of_mem_drop hmem)
    have hparsed : Parsed offset (text.drop 3) (localtimeOrZero offset from_)
        (parseShift offset minTimeUnit ((text.drop 3).length + 1) (text.drop 3)
          (localtimeOrZero offset from_)) :=
      parseShift_parsed hdrop (Nat.lt_succ_self _)
    refine ⟨hparsed.inside, fun tm htm => ?_⟩
    obtain ⟨ops, hwritten, hops, rfl⟩ := hparsed.ops tm htm
    refine ⟨ops, hwritten, ?_, rfl⟩
    rw [← take_append_drop 3 text, not_not.mp hnow, hops]
    rfl

theorem zbxTrendsParseRange_cases (offset from_ : ℤ) {param : List Char} (hzero : '\x00' ∉ param) :
    (∃ message, zbxTrendsParseRange offset from_ param = .error (.error message)) ∨
    (∃ period : Period, period.Written ∧ period.Taken ∧ param = period.text ∧
      zbxTrendsParseRange offset from_ param = .error .overread) ∨
    ∃ (period : Period) (ops : List ShiftOp), period.Written ∧ period.Taken ∧
      (∀ op ∈ ops, op.Written) ∧ param = rangeText period ops ∧
      ∃ tm, tm = ops.foldl (ShiftOp.run offset) (localtimeOrZero offset from_) ∧
        zbxTrendsParseRange offset from_ param =
          .ok (mktime offset (zbxTmSub offset tm (toInt period.count) period.unit),
            mktime offset (zbxTmSub offset tm 1 .hour)) := by
  have hfail : ∀ {α : Type} (message : String) (text : List Char),
      ∃ e, (fail message text : Except Stop α) = .error (.error e) := fun _ _ => ⟨_, rfl⟩
  unfold zbxTrendsParseRange
  cases hperiod : zbxTmParsePeriod param with
  | error message => exact .inl ⟨message, rfl⟩
  | ok parsed =>
    obtain ⟨len, num, unit⟩ := parsed
    obtain ⟨period, rest, hwritten, hparam, hadvance, hnum, hunit, hcount⟩ := advance_period hperiod
    simp only [hadvance, Except.bind, hnum, hunit]
    split_ifs with hnext hzeroNum hlarge
    · exact .inl (hfail _ _)
    · exact .inl (hfail _ _)
    · exact .inl (hfail _ _)
    have htaken : period.Taken := ⟨hcount, hzeroNum, Int.not_lt.mp hlarge⟩
    cases rest with
    | nil => exact .inr (.inl ⟨period, hwritten, htaken, by rw [hparam, append_nil], rfl⟩)
    | cons c rest =>
      have hrest : '\x00' ∉ c :: rest := fun hmem => hzero (hparam ▸ mem_append_right _ hmem)
      have hc : c = ':' := by
        have hne : c ≠ '\x00' := fun hc => hrest (mem_cons.mpr (.inl hc.symm))
        exact not_not.mp fun hcolon => hnext ⟨hne, hcolon⟩
      obtain ⟨hinside, hops⟩ := trendsParseTimeshift_parsed offset from_ period.unit
        (fun hmem => hrest (mem_cons_of_mem _ hmem))
      simp only [advance_one]
      cases hshift : trendsParseTimeshift offset from_ rest period.unit with
      | error stop =>
        cases stop with
        | overread => exact absurd hshift hinside
        | error message => exact .inl ⟨message, rfl⟩
      | ok tm =>
        obtain ⟨ops, hwrittenOps, htext, htm⟩ := hops tm hshift
        simp only
        split_ifs
        · exact .inl (hfail _ _)
        · exact .inl (hfail _ _)
        · exact .inl (hfail _ _)
        · refine .inr (.inr ⟨period, ops, hwritten, htaken, hwrittenOps, ?_, tm, htm, rfl⟩)
          rw [hparam, hc, htext]
          rfl

theorem le_foldl_digits : ∀ (digits : List Char) (acc : ℕ),
    acc ≤ digits.foldl (fun value c => value * 10 + (c.toNat - '0'.toNat)) acc
  | [], _ => Nat.le_refl _
  | c :: digits, acc => by
    have hle := le_foldl_digits digits (acc * 10 + (c.toNat - '0'.toNat))
    rw [foldl_cons]
    omega

theorem readDigits_foldl : ∀ (digits : List Char) {acc : ℕ},
    digits.foldl (fun value c => value * 10 + (c.toNat - '0'.toNat)) acc ≤ limit →
      readDigits limit acc digits =
        some (digits.foldl (fun value c => value * 10 + (c.toNat - '0'.toNat)) acc)
  | [], _, _ => rfl
  | c :: digits, acc, h => by
    have hle := le_foldl_digits digits (acc * 10 + (c.toNat - '0'.toNat))
    rw [foldl_cons] at h
    unfold readDigits
    simp only
    rw [if_neg (by omega)]
    exact readDigits_foldl digits h

theorem letter_unit (h : unit ≠ .unknown) :
    isdigit unit.letter = false ∧ zbxTmStrToUnit [unit.letter] = unit := by
  cases unit with
  | unknown => exact absurd rfl h
  | _ => decide

theorem zbxTmParsePeriod_text (hwritten : period.Written) (hpos : period.count ≠ 0)
    (hcount : period.count < 2 ^ 32) :
    zbxTmParsePeriod period.text = .ok (period.text.length, toInt period.count, period.unit) := by
  obtain ⟨hdigit, hunit⟩ := letter_unit hwritten.unit
  have hdigits := hwritten.digits
  rw [all_eq_true] at hdigits
  have htake : period.text.takeWhile isdigit = period.digits := by
    unfold Period.text
    rw [takeWhile_append_of_pos hdigits, takeWhile_cons_of_neg (by simp [hdigit]), append_nil]
  have hempty : period.digits ≠ [] := by
    intro hnil
    apply hpos
    unfold Period.count
    rw [hnil]
    rfl
  have hlength : period.digits.length ≠ 0 := fun hnil => hempty (length_eq_zero_iff.mp hnil)
  have hrange : zbxIsUintNRange period.text period.digits.length 0 (2 ^ 32 - 1) =
      some period.count := by
    have hread : readDigits (2 ^ 64 - 1) 0 period.digits = some period.count :=
      readDigits_foldl _ (by unfold Period.count at hcount; omega)
    unfold zbxIsUintNRange Period.text
    rw [if_neg (by simp [hlength]), take_left, if_pos hwritten.digits, hread]
    exact if_neg (by omega)
  have hdrop : period.text.drop period.digits.length = [period.unit.letter] := drop_left
  unfold zbxTmParsePeriod
  simp only [htake, hrange, hdrop, hunit, if_neg hwritten.unit]
  simp [Period.text]

theorem zbxTrendsParseRange_text (hwritten : period.Written) (htaken : period.Taken) :
    zbxTrendsParseRange offset from_ period.text = .error .overread := by
  obtain ⟨hcount, hnum, hlimit⟩ := htaken
  have hpos : period.count ≠ 0 := by
    intro hzero
    apply hnum
    rw [hzero]
    rfl
  have hadvance : advance period.text.length period.text = .ok [] := by
    unfold advance
    rw [if_pos (Nat.le_refl _), drop_length]
  have hend : ¬(charAt [] ≠ '\x00' ∧ charAt [] ≠ ':') := by decide
  unfold zbxTrendsParseRange
  rw [zbxTmParsePeriod_text hwritten hpos hcount]
  simp only [hadvance, Except.bind]
  rw [if_neg hend, if_neg hnum, if_neg (Int.not_lt.mpr hlimit)]
  rfl

/-- No `int` wraps around in an operation at a time. -/
def ShiftOp.Small (t : ℤ) : ShiftOp → Prop
  | .round _ => True
  | .add period => Trends.Small period.count period.unit ∧
      (period.unit = .month → (civil (t / 86400)).1 % 12 + period.count < 2 ^ 31)
  | .sub period => Trends.Small period.count period.unit

def RegularShift (offset : ℤ) : ℤ → List ShiftOp → Prop
  | t, [] => Regular offset t
  | t, op :: ops => Regular offset t ∧ op.Small t ∧ RegularShift offset (op.apply t) ops

def shifted (t : ℤ) (ops : List ShiftOp) : ℤ := ops.foldl ShiftOp.apply t

theorem RegularShift.regular : ∀ {ops : List ShiftOp} {t : ℤ}, RegularShift offset t ops →
    Regular offset t
  | [], _, h => h
  | _ :: _, _, h => h.1

theorem run_fields {op : ShiftOp} (hsmall : op.Small t) (ht : Regular offset t)
    (hnext : Regular offset (op.apply t)) : op.run offset (fields t) = fields (op.apply t) := by
  cases op with
  | round unit => exact zbxTmRoundDown_eq ht.ne_error hnext
  | add period =>
    obtain ⟨hsmall, hmonth⟩ := hsmall
    rw [ShiftOp.run, toInt_eq (by omega) hsmall.count]
    exact zbxTmAdd_eq (Int.natCast_nonneg _) hsmall hmonth ht.ne_error hnext
  | sub period =>
    have hcount : (period.count : ℤ) < 2 ^ 31 := Small.count hsmall
    rw [ShiftOp.run, toInt_eq (by omega) hcount]
    exact zbxTmSub_eq (Int.natCast_nonneg _) hsmall ht.ne_error hnext

theorem foldl_run : ∀ {ops : List ShiftOp} {t : ℤ}, RegularShift offset t ops →
    ops.foldl (ShiftOp.run offset) (fields t) = fields (shifted t ops) ∧
      Regular offset (shifted t ops)
  | [], _, h => ⟨rfl, h⟩
  | op :: ops, t, ⟨ht, hsmall, h⟩ => by
    rw [foldl_cons, run_fields hsmall ht h.regular]
    exact foldl_run h

structure Period.Sized (period : Period) : Prop where
  hours : period.count * periodHours period.unit ≤ 24 * 366
  seconds : periodHours period.unit = 0 → 3600 ≤ period.count * timeUnitSeconds period.unit ∧
    period.count * timeUnitSeconds period.unit < 2 ^ 31

structure RegularRange (offset from_ : ℤ) (period : Period) (ops : List ShiftOp) : Prop where
  sized : period.Sized
  shift : RegularShift offset (from_ + offset) ops
  start : Regular offset (addUnits (shifted (from_ + offset) ops) (-period.count) period.unit)
  end_ : Regular offset (addUnits (shifted (from_ + offset) ops) (-1) .hour)

theorem Period.Sized.small (h : period.Sized) : Trends.Small period.count period.unit := by
  obtain ⟨hhours, hseconds⟩ := h
  generalize period.unit = unit at hhours hseconds ⊢
  generalize (period.count : ℤ) = n at hhours hseconds ⊢
  constructor
  · cases unit <;> simp [periodHours, timeUnitSeconds] at hhours hseconds <;> omega
  · cases unit <;> simp [periodHours, timeUnitSeconds] at hhours hseconds ⊢ <;> omega

theorem Period.Sized.hour_le (h : period.Sized) (hpos : period.count ≠ 0)
    (hunit : period.unit ≠ .unknown) (hmonth : period.unit ≠ .month) (hyear : period.unit ≠ .year) :
    3600 ≤ period.count * timeUnitSeconds period.unit := by
  obtain ⟨-, hseconds⟩ := h
  have hcount : (1 : ℤ) ≤ period.count := by omega
  generalize period.unit = unit at hseconds hunit hmonth hyear ⊢
  generalize (period.count : ℤ) = n at hseconds hcount ⊢
  cases unit with
  | unknown => exact absurd rfl hunit
  | month => exact absurd rfl hmonth
  | year => exact absurd rfl hyear
  | second => exact (hseconds rfl).1
  | minute => exact (hseconds rfl).1
  | hour =>
    change 3600 ≤ n * 3600
    omega
  | day =>
    change 3600 ≤ n * 86400
    omega
  | week =>
    change 3600 ≤ n * 604800
    omega

theorem Period.Sized.start_le (h : period.Sized) (hpos : period.count ≠ 0)
    (hunit : period.unit ≠ .unknown) (t : ℤ) :
    addUnits t (-period.count) period.unit ≤ addUnits t (-1) .hour := by
  have hend : addUnits t (-1) .hour = t - 3600 := rfl
  rw [hend]
  by_cases hmonth : period.unit = .month
  · have hlt := addMonths_lt (t := t) (k := -(period.count : ℤ)) (by omega)
    rw [hmonth]
    change addMonths t (-period.count) ≤ _
    omega
  · by_cases hyear : period.unit = .year
    · have hlt := addMonths_lt (t := t) (k := 12 * -(period.count : ℤ)) (by omega)
      rw [hyear]
      change addMonths t (12 * -period.count) ≤ _
      omega
    · have hhour := h.hour_le hpos hunit hmonth hyear
      rw [addUnits_seconds hmonth hyear, Int.neg_mul]
      omega

/-- The parser stays in the parameter, and a range that it gives is the one of a period that is not
zero and not too large and of a shift. -/
def RangeMeant (offset from_ : ℤ) (param : List Char) : Prop :=
  zbxTrendsParseRange offset from_ param ≠ .error .overread ∧
  ∀ start end_ : ℤ, zbxTrendsParseRange offset from_ param = .ok (start, end_) →
    ∃ (period : Period) (ops : List ShiftOp), period.Written ∧ (∀ op ∈ ops, op.Written) ∧
      param = rangeText period ops ∧ period.count ≠ 0 ∧
      period.count * periodHours period.unit ≤ 24 * 366 ∧
      end_ = addUnits (shifted (from_ + offset) ops) (-1) .hour - offset ∧
      start = addUnits (shifted (from_ + offset) ops) (-period.count) period.unit - offset ∧
      start ≤ end_

structure RegularParam (offset from_ : ℤ) (param : List Char) : Prop where
  shift : ∀ period : Period, period.Written → period.Taken → param ≠ period.text
  range : ∀ (period : Period) (ops : List ShiftOp), period.Written → period.Taken →
    (∀ op ∈ ops, op.Written) → param = rangeText period ops → RegularRange offset from_ period ops

theorem rangeText_hour (hwritten : period.Written)
    (h : ['1', 'h', ':', 'n', 'o', 'w'] = rangeText period ops) :
    period = ⟨['1'], .hour⟩ ∧ ops = [] := by
  obtain ⟨digits, unit⟩ := period
  obtain ⟨hdigits, hunit⟩ := hwritten
  simp only at hdigits hunit
  unfold rangeText Period.text at h
  match digits with
  | [] => cases unit <;> simp [TimeUnit.letter] at h
  | [d] =>
    have hops : ops = [] := by
      cases ops with
      | nil => rfl
      | cons op ops => cases op <;> simp [ShiftOp.text] at h
    refine ⟨?_, hops⟩
    cases unit <;> simp [TimeUnit.letter] at h ⊢
    exact h.1.symm
  | d :: e :: digits =>
    simp only [cons_append, List.cons.injEq] at h
    simp only [all_cons, Bool.and_eq_true, ← h.2.1] at hdigits
    exact absurd hdigits.2.1 (by decide)

end Zabbix.Trends
