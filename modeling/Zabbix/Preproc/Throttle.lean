import Zabbix.Preproc.Composition

/-!
# Discarding unchanged values with a heartbeat

Runs of values through `item_preproc_throttle_timed_value` with the history carried over, next to
the last value that was passed on.
-/

namespace Zabbix.Preproc

open Eval Interval Stages

variable {D : Type} (fl : Double D) (valueType : ItemValueType) (params : List Char)

def storedAs (value : Variant D) : Variant D :=
  match itemPreprocNumericTypeHint valueType with
  | some hint => (zbxVariantConvert fl value hint).getD value
  | none => ((variantToStr fl value).map .str).getD value

def Timespec.inNanoseconds (ts : Timespec) : ℤ := ts.sec * 1000000000 + ts.ns

/-- The history of the step and the last value that was passed on, with its time. -/
structure Throttling (D : Type) where
  historyValue : Variant D
  historyTs : Timespec
  passed : Option (Variant D × Timespec)

def Throttling.start : Throttling D := ⟨.none, ⟨0, 0⟩, none⟩

def Throttling.timed (s : Throttling D) (input : Variant D × Timespec) : Processed D :=
  itemPreprocThrottleTimedValue fl input.1 input.2 params s.historyValue s.historyTs

def throttleStep (s : Throttling D) (input : Variant D × Timespec) :
    Option (Variant D × Timespec) × Throttling D :=
  let p := s.timed fl params input
  match p.result with
  | .error errmsg => (some (.err errmsg, input.2), ⟨p.historyValue, p.historyTs, none⟩)
  | .ok value =>
    if isNone value then (none, ⟨p.historyValue, p.historyTs, s.passed⟩)
    else (some (value, input.2), ⟨p.historyValue, p.historyTs, some (value, input.2)⟩)

/-- A value is discarded only if it is the one that was passed on last, by less than the period, and
if the step without heartbeat would discard it too. -/
def Throttling.LosesNothing (s : Throttling D) (input : Variant D × Timespec) : Prop :=
  isNone input.1 = false → (throttleStep fl params s input).1 = none →
    ∃ last timeout, s.passed = some last ∧ zbxIsTimeSuffix params params.length = some timeout ∧
      storedAs fl valueType input.1 = storedAs fl valueType last.1 ∧
      input.2.inNanoseconds - last.2.inNanoseconds < timeout * 1000000000 ∧
      (itemPreprocThrottleValue fl valueType input.1 input.2 s.historyValue s.historyTs).result =
        .ok .none

def Throttling.Confuses (s : Throttling D) (input : Variant D × Timespec) : Prop :=
  isNone input.1 = false ∧ zbxVariantCompare fl.toFloating input.1 s.historyValue = .eq ∧
    storedAs fl valueType input.1 ≠ storedAs fl valueType s.historyValue ∧
    ∃ timeout, zbxIsTimeSuffix params params.length = some timeout ∧
      input.2.sec - s.historyTs.sec < timeout

def Throttling.Current (s : Throttling D) : Prop :=
  isNone s.historyValue = true ∨ ∃ last, s.passed = some last ∧ last.2 = s.historyTs ∧
    0 ≤ last.2.ns ∧ storedAs fl valueType last.1 = storedAs fl valueType s.historyValue

variable {fl valueType params} {s : Throttling D} {input : Variant D × Timespec}

theorem compare_none {value previous : Variant D} (hvalue : isNone value = false)
    (hprevious : isNone previous = true) :
    zbxVariantCompare fl.toFloating value previous ≠ .eq := by
  cases previous <;> cases hprevious
  cases value with
  | none => cases hvalue
  | _ => simp [zbxVariantCompare]

theorem throttleStep_cases (hvalue : isNone input.1 = false) :
    (zbxIsTimeSuffix params params.length = none ∧ ∃ errmsg, throttleStep fl params s input =
        (some (.err errmsg, input.2), ⟨.none, s.historyTs, none⟩)) ∨
      (∃ timeout, zbxIsTimeSuffix params params.length = some timeout ∧
        zbxVariantCompare fl.toFloating input.1 s.historyValue = .eq ∧
        input.2.sec - s.historyTs.sec < timeout ∧
        throttleStep fl params s input = (none, ⟨input.1, s.historyTs, s.passed⟩)) ∨
      ((∀ timeout, zbxIsTimeSuffix params params.length = some timeout →
          zbxVariantCompare fl.toFloating input.1 s.historyValue = .eq →
          ¬input.2.sec - s.historyTs.sec < timeout) ∧
        throttleStep fl params s input = (some input, ⟨input.1, input.2, some input⟩)) := by
  rw [throttleStep, Throttling.timed, itemPreprocThrottleTimedValue]
  cases htimeout : zbxIsTimeSuffix params params.length with
  | none => exact Or.inl ⟨rfl, _, rfl⟩
  | some timeout =>
    right
    simp only [hvalue, Bool.false_eq_true, if_false]
    by_cases hsame : zbxVariantCompare fl.toFloating input.1 s.historyValue = .eq ∧
        input.2.sec - s.historyTs.sec < timeout
    · left
      exact ⟨timeout, rfl, hsame.1, hsame.2, by simp [hsame, isNone]⟩
    · right
      refine ⟨?_, ?_⟩
      · intro timeout' htimeout' hcompare hperiod
        rw [← Option.some.inj htimeout'] at hperiod
        exact hsame ⟨hcompare, hperiod⟩
      · simp only [if_neg hsame, hvalue, Bool.false_eq_true, if_false]

theorem throttleStep_none (hvalue : isNone input.1 = true) :
    isNone (throttleStep fl params s input).2.historyValue = true := by
  rw [throttleStep, Throttling.timed, itemPreprocThrottleTimedValue]
  cases zbxIsTimeSuffix params params.length with
  | none => rfl
  | some timeout =>
    obtain ⟨value, ts⟩ := input
    cases value <;> cases hvalue
    simp only
    split_ifs <;> rfl

theorem throttleSame_of_storedAs {value previous : Variant D}
    (hcompare : zbxVariantCompare fl.toFloating value previous = .eq)
    (hstored : storedAs fl valueType value = storedAs fl valueType previous) :
    throttleSame fl valueType value previous = true := by
  unfold throttleSame
  split
  · rename_i text previous htype
    rw [storedAs, storedAs, htype] at hstored
    have htexts : text = previous := by simpa [variantToStr] using hstored
    rw [htexts, beq_self_eq_true]
  · rw [hcompare]
    rfl

theorem Throttling.Current.losesNothing_iff (h : s.Current fl valueType)
    (hns : input.2.ns < 1000000000) :
    s.LosesNothing fl valueType params input ↔ ¬s.Confuses fl valueType params input := by
  constructor
  · intro hloses hconfuses
    obtain ⟨hvalue, hcompare, hother, timeout, htimeout, hperiod⟩ := hconfuses
    have hdiscarded : (throttleStep fl params s input).1 = none := by
      rcases throttleStep_cases hvalue with ⟨hinvalid, errmsg, herror⟩ | ⟨_, -, -, -, hstep⟩ | ⟨hpass, -⟩
      · rw [hinvalid] at htimeout
        cases htimeout
      · rw [hstep]
      · exact absurd hperiod (hpass timeout htimeout hcompare)
    obtain ⟨last, -, hpassed, -, hstored, -, -⟩ := hloses hvalue hdiscarded
    rcases h with hnone | ⟨last', hpassed', -, -, hsame⟩
    · exact compare_none hvalue hnone hcompare
    · rw [hpassed, Option.some.injEq] at hpassed'
      rw [hpassed', hsame] at hstored
      exact hother hstored
  · intro hconfuses hvalue hdiscarded
    rcases throttleStep_cases hvalue with ⟨hinvalid, errmsg, herror⟩ | ⟨timeout, htimeout, hcompare, hperiod, -⟩ |
      ⟨-, hstep⟩
    · rw [herror] at hdiscarded
      cases hdiscarded
    · have hstored : storedAs fl valueType input.1 = storedAs fl valueType s.historyValue := by
        by_contra hother
        exact hconfuses ⟨hvalue, hcompare, hother, timeout, htimeout, hperiod⟩
      rcases h with hnone | ⟨last, hpassed, hts, hlast, hsame⟩
      · exact absurd hcompare (compare_none hvalue hnone)
      · refine ⟨last, timeout, hpassed, htimeout, hstored.trans hsame.symm, ?_, ?_⟩
        · rw [Timespec.inNanoseconds, Timespec.inNanoseconds]
          rw [← hts] at hperiod
          omega
        · rw [itemPreprocThrottleValue, if_pos (throttleSame_of_storedAs hcompare hstored)]
    · rw [hstep] at hdiscarded
      cases hdiscarded

theorem Throttling.Current.step (h : s.Current fl valueType) (hns : 0 ≤ input.2.ns)
    (hconfuses : ¬s.Confuses fl valueType params input) :
    (throttleStep fl params s input).2.Current fl valueType := by
  cases hvalue : isNone input.1 with
  | true => exact Or.inl (throttleStep_none hvalue)
  | false =>
    rcases throttleStep_cases hvalue with ⟨hinvalid, errmsg, herror⟩ |
      ⟨timeout, htimeout, hcompare, hperiod, hstep⟩ | ⟨-, hstep⟩
    · rw [herror]
      exact Or.inl rfl
    · rw [hstep]
      have hstored : storedAs fl valueType input.1 = storedAs fl valueType s.historyValue := by
        by_contra hother
        exact hconfuses ⟨hvalue, hcompare, hother, timeout, htimeout, hperiod⟩
      rcases h with hnone | ⟨last, hpassed, hts, hlast, hsame⟩
      · exact absurd hcompare (compare_none hvalue hnone)
      · exact Or.inr ⟨last, hpassed, hts, hlast, hsame.trans hstored.symm⟩
    · rw [hstep]
      exact Or.inr ⟨input, rfl, rfl, hns, rfl⟩

theorem along_losesNothing_iff {inputs : List (Variant D × Timespec)}
    (hns : ∀ input ∈ inputs, 0 ≤ input.2.ns ∧ input.2.ns < 1000000000)
    (h : s.Current fl valueType) :
    Along (throttleStep fl params) (Throttling.LosesNothing fl valueType params) s inputs ↔
      Along (throttleStep fl params)
        (fun s input => ¬s.Confuses fl valueType params input) s inputs := by
  induction inputs generalizing s with
  | nil => exact Iff.rfl
  | cons input inputs ih =>
    rw [List.forall_mem_cons] at hns
    rw [Along, Along, h.losesNothing_iff hns.1.2]
    constructor
    · rintro ⟨hstep, hrest⟩
      exact ⟨hstep, (ih hns.2 (h.step hns.1.1 hstep)).mp hrest⟩
    · rintro ⟨hstep, hrest⟩
      exact ⟨hstep, (ih hns.2 (h.step hns.1.1 hstep)).mpr hrest⟩

/-- A run loses nothing exactly if it never confuses a value with the one before. -/
theorem throttle_loses_nothing_iff (fl : Double D) (valueType : ItemValueType) (params : List Char)
    (inputs : List (Variant D × Timespec))
    (hns : ∀ input ∈ inputs, 0 ≤ input.2.ns ∧ input.2.ns < 1000000000) :
    Along (throttleStep fl params) (Throttling.LosesNothing fl valueType params) Throttling.start
        inputs ↔
      Along (throttleStep fl params) (fun s input => ¬s.Confuses fl valueType params input)
        Throttling.start inputs :=
  along_losesNothing_iff hns (Or.inl rfl)

theorem throttle_loses_nothing_iff_counter :
    Along (throttleStep wholeDouble ['1', 'm'])
        (Throttling.LosesNothing wholeDouble .uint64 ['1', 'm']) Throttling.start
        [(.ui64 5, ⟨100, 0⟩), (.ui64 5, ⟨130, 1⟩), (.ui64 6, ⟨140, 0⟩)] ↔
      Along (throttleStep wholeDouble ['1', 'm'])
        (fun s input => ¬s.Confuses wholeDouble .uint64 ['1', 'm'] input) Throttling.start
        [(.ui64 5, ⟨100, 0⟩), (.ui64 5, ⟨130, 1⟩), (.ui64 6, ⟨140, 0⟩)] :=
  throttle_loses_nothing_iff wholeDouble .uint64 ['1', 'm']
    [(.ui64 5, ⟨100, 0⟩), (.ui64 5, ⟨130, 1⟩), (.ui64 6, ⟨140, 0⟩)] (by simp)

/-- A text that changes from "01" to "1" is discarded. -/
theorem throttle_loses_text :
    ¬Along (throttleStep wholeDouble ['1', 'm'])
      (Throttling.LosesNothing wholeDouble .text ['1', 'm']) Throttling.start
      [(.str ['0', '1'], ⟨100, 0⟩), (.str ['1'], ⟨101, 0⟩)] := by
  intro h
  obtain ⟨last, timeout, hpassed, -, hstored, -⟩ := h.2.1 rfl (by rfl)
  obtain rfl := Option.some.inj hpassed
  have htexts : ['1'] = ['0', '1'] := Variant.str.inj hstored
  exact absurd htexts (by decide)

end Zabbix.Preproc
