import Zabbix.Preproc.Execute

/-!
# What a step does with its history

The history of a change or a throttling step decides what the step does; the bytecode of a script
only saves compiling it, and other steps have none.
-/

namespace Zabbix.Preproc

open Zabbix.Eval

variable {i : ℕ} {type : PpType} {params : List Char}

section History

variable {D : Type}

def keptHistory (step : PpStep) (value : Variant D) (outcome : StepOutcome D) :
    Variant D × Timespec :=
  if isNone outcome.historyValue = false ∧ value.isErr = false ∧ step.type.hasHistory then
    (outcome.historyValue, outcome.historyTs)
  else (.none, ⟨0, 0⟩)

theorem zbxPpHistoryGet_absent {history : List (StepHistory D)}
    (h : ∀ entry ∈ history, entry.index ≠ i) :
    zbxPpHistoryGet (some history) i = (.none, ⟨0, 0⟩) := by
  have hnone : history.find? (fun entry => decide (entry.index = i)) = none := by
    apply List.find?_eq_none.mpr
    intro entry hentry
    simpa using h entry hentry
  simp [zbxPpHistoryGet, hnone]

theorem ppHistoryAdd_get {history : List (StepHistory D)} (h : ∀ entry ∈ history, entry.index < i)
    (step : PpStep) (value : Variant D) (outcome : StepOutcome D) :
    zbxPpHistoryGet (some (ppHistoryAdd history i step value outcome)) i =
      keptHistory step value outcome := by
  have hnone : history.find? (fun entry => decide (entry.index = i)) = none := by
    apply List.find?_eq_none.mpr
    intro entry hentry
    have := h entry hentry
    simp only [decide_eq_true_eq]
    omega
  simp only [ppHistoryAdd, keptHistory]
  split_ifs with hkept
  · simp [zbxPpHistoryGet, List.find?_append, hnone]
  · simp [zbxPpHistoryGet, hnone]

theorem ppHistoryAdd_get_ne (history : List (StepHistory D)) {j : ℕ} (hne : j ≠ i) (step : PpStep)
    (value : Variant D) (outcome : StepOutcome D) :
    zbxPpHistoryGet (some (ppHistoryAdd history i step value outcome)) j =
      zbxPpHistoryGet (some history) j := by
  simp only [ppHistoryAdd]
  split_ifs with hkept
  · simp [zbxPpHistoryGet, List.find?_append, Ne.symm hne]
  · rfl

theorem ppHistoryAdd_index {history : List (StepHistory D)} (h : ∀ entry ∈ history, entry.index < i)
    (step : PpStep) (value : Variant D) (outcome : StepOutcome D) :
    ∀ entry ∈ ppHistoryAdd history i step value outcome, entry.index < i + 1 := by
  intro entry hentry
  simp only [ppHistoryAdd] at hentry
  split_ifs at hentry
  · rcases List.mem_append.mp hentry with hmem | hmem
    · exact Nat.lt_succ_of_lt (h entry hmem)
    · rw [List.mem_singleton.mp hmem]
      exact Nat.lt_succ_self i
  · exact Nat.lt_succ_of_lt (h entry hentry)

theorem hasHistory_cases (h : type.hasHistory = true) :
    type.hasSerialHistory = true ∨ type = .script := by
  cases type <;> simp_all [PpType.hasHistory, PpType.hasSerialHistory]

theorem hasSerialHistory_hasHistory (h : type.hasSerialHistory = true) :
    type.hasHistory = true := by
  cases type <;> simp_all [PpType.hasHistory, PpType.hasSerialHistory]

end History

section Step

variable {D E : Type} (rt : Runtime D E)

def BytecodeOf (step : PpStep) : Variant D → Prop
  | .none => True
  | .bin code => userMacros rt step = false ∧ rt.esCompile step.params = .ok code
  | _ => False

structure StepAgrees (step : PpStep) (a b : Variant D × Timespec) : Prop where
  serial : step.type.hasSerialHistory = true → a = b
  script : step.type = .script → BytecodeOf rt step a.1 ∧ BytecodeOf rt step b.1

variable {rt}

variable {a b : Variant D × Timespec}

theorem stepAgrees_of_hasHistory {step : PpStep} (h : step.type.hasHistory = false) :
    StepAgrees rt step a b := by
  constructor
  · intro hserial
    rw [hasSerialHistory_hasHistory hserial] at h
    exact absurd h (by decide)
  · intro hscript
    rw [hscript] at h
    exact absurd h (by decide)

theorem stepAgrees_none (step : PpStep) : StepAgrees rt step (.none, ⟨0, 0⟩) (.none, ⟨0, 0⟩) :=
  ⟨fun _ => rfl, fun _ => ⟨trivial, trivial⟩⟩

variable {bytecode : Variant D}

theorem scriptBytecode_eq {step : PpStep} (env : E) (h : BytecodeOf rt step bytecode) :
    scriptBytecode rt (stepParams rt env step) bytecode =
      rt.esCompile (stepParams rt env step) := by
  cases bytecode with
  | none => rfl
  | bin code =>
    obtain ⟨hmacros, hcode⟩ := h
    simp [scriptBytecode, stepParams, hmacros, hcode]
  | str | dbl | ui64 | vector | err => exact h.elim

variable (rt) in
theorem itemPreprocScript_historyTs (env : E) (value : Variant D) (params : List Char)
    (bytecode : Variant D) (ts ts' : Timespec) :
    (itemPreprocScript rt env value params bytecode ts).result =
        (itemPreprocScript rt env value params bytecode ts').result ∧
      (itemPreprocScript rt env value params bytecode ts).historyValue =
        (itemPreprocScript rt env value params bytecode ts').historyValue := by
  unfold itemPreprocScript
  split
  · exact ⟨rfl, rfl⟩
  · exact ⟨rfl, rfl⟩
  · exact ⟨rfl, rfl⟩
  · split <;> exact ⟨rfl, rfl⟩

theorem itemPreprocScript_congr {bytecode' : Variant D} (env : E) (value : Variant D)
    (ts : Timespec) (h : scriptBytecode rt params bytecode = scriptBytecode rt params bytecode') :
    itemPreprocScript rt env value params bytecode ts =
      itemPreprocScript rt env value params bytecode' ts := by
  simp only [itemPreprocScript, h]

variable (rt) in
theorem itemPreprocScript_history (env : E) (value bytecode : Variant D) (params : List Char)
    (ts : Timespec) :
    (itemPreprocScript rt env value params bytecode ts).historyValue = .none ∨
      ∃ code, scriptBytecode rt params bytecode = .ok code ∧
        (itemPreprocScript rt env value params bytecode ts).historyValue = .bin code := by
  unfold itemPreprocScript
  split
  · exact .inl rfl
  · exact .inl rfl
  · exact .inl rfl
  · rename_i code _ _ hcode
    split <;> exact .inr ⟨_, hcode, rfl⟩

section Outcome

variable {env : E} {valueType : ItemValueType} {value : Variant D} {ts : Timespec} {step : PpStep}

variable (rt value) in
theorem ppCheckNotSupportedError_ts (params outputTemplate : List Char) (ts ts' : Timespec) :
    (ppCheckNotSupportedError rt value params outputTemplate ts).result =
      (ppCheckNotSupportedError rt value params outputTemplate ts').result := by
  cases value with
  | err text =>
    simp only [ppCheckNotSupportedError]
    cases rt.checkErrorRegex text params outputTemplate with
    | none => rfl
    | some error => rfl
  | none | str | dbl | ui64 | bin | vector => rfl

theorem ppExecuteStep_plain (h : step.type.hasHistory = false) (a b : Variant D × Timespec) :
    (ppExecuteStep rt env valueType value ts step a.1 a.2).result =
      (ppExecuteStep rt env valueType value ts step b.1 b.2).result := by
  unfold ppExecuteStep
  cases htype : step.type <;> rw [htype] at h
  case validateNotSupported => exact ppCheckNotSupportedError_ts rt value _ _ a.2 b.2
  all_goals first
    | rfl
    | exact absurd h (by decide)

variable (env valueType value ts) in
theorem ppExecuteStep_script (htype : step.type = .script) (ha : BytecodeOf rt step a.1)
    (hb : BytecodeOf rt step b.1) :
    (ppExecuteStep rt env valueType value ts step a.1 a.2).result =
        (ppExecuteStep rt env valueType value ts step b.1 b.2).result ∧
      (ppExecuteStep rt env valueType value ts step a.1 a.2).historyValue =
        (ppExecuteStep rt env valueType value ts step b.1 b.2).historyValue ∧
      BytecodeOf rt step (ppExecuteStep rt env valueType value ts step a.1 a.2).historyValue := by
  have hcode : scriptBytecode rt (stepParams rt env step) a.1 =
      scriptBytecode rt (stepParams rt env step) b.1 :=
    (scriptBytecode_eq env ha).trans (scriptBytecode_eq env hb).symm
  have hts := itemPreprocScript_historyTs rt env value (stepParams rt env step) b.1 a.2 b.2
  simp only [ppExecuteStep, htype, itemPreprocScript_congr env value a.2 hcode]
  cases hmacros : userMacros rt step with
  | true =>
    simp only [if_true, Processed.outcome, hts.1]
    exact ⟨trivial, trivial, trivial⟩
  | false =>
    simp only [Bool.false_eq_true, if_false, Processed.outcome, hts.1, hts.2]
    refine ⟨trivial, trivial, ?_⟩
    rcases itemPreprocScript_history rt env value b.1 (stepParams rt env step) b.2 with
      hnone | ⟨code, hok, hbin⟩
    · rw [hnone]
      exact trivial
    · rw [hbin]
      rw [scriptBytecode_eq env hb, stepParams, hmacros, if_neg Bool.false_ne_true] at hok
      exact ⟨hmacros, hok⟩

variable (env valueType value ts) in
theorem ppExecuteStep_agrees (h : StepAgrees rt step a b) :
    (ppExecuteStep rt env valueType value ts step a.1 a.2).result =
        (ppExecuteStep rt env valueType value ts step b.1 b.2).result ∧
      ∀ out, StepAgrees rt step
        (keptHistory step out (ppExecuteStep rt env valueType value ts step a.1 a.2))
        (keptHistory step out (ppExecuteStep rt env valueType value ts step b.1 b.2)) := by
  cases hhistory : step.type.hasHistory with
  | false => exact ⟨ppExecuteStep_plain hhistory a b, fun _ => stepAgrees_of_hasHistory hhistory⟩
  | true =>
    rcases hasHistory_cases hhistory with hserial | hscript
    · rw [h.serial hserial]
      refine ⟨rfl, fun out => ⟨fun _ => rfl, fun hscript => ?_⟩⟩
      rw [hscript] at hserial
      exact absurd hserial (by decide)
    · obtain ⟨ha, hb⟩ := h.script hscript
      obtain ⟨hresult, hvalue, hcode⟩ := ppExecuteStep_script env valueType value ts hscript ha hb
      refine ⟨hresult, fun out => ⟨fun hserial => ?_, fun _ => ?_⟩⟩
      · rw [hscript] at hserial
        exact absurd hserial (by decide)
      · simp only [keptHistory, ← hvalue]
        split_ifs
        · exact ⟨hcode, hcode⟩
        · exact ⟨trivial, trivial⟩

variable {history : Variant D × Timespec} {fl : Double D} {out : Variant D}

theorem itemPreprocDelta_isErr {opType : PpType}
    (h : (itemPreprocDelta fl valueType value ts opType history.1 history.2).result = .ok out) :
    out.isErr = false := by
  unfold itemPreprocDelta at h
  split at h
  · exact absurd h (by simp)
  · split_ifs at h
    · rw [← Except.ok.inj h]
      rfl
    · split at h
      · exact absurd h (by simp)
      · exact absurd h (by simp)
      · rw [← Except.ok.inj h]
        cases itemPreprocDeltaFloat fl _ ts opType _ history.2 <;> rfl
    · split at h
      · exact absurd h (by simp)
      · exact absurd h (by simp)
      · rw [← Except.ok.inj h]
        cases itemPreprocDeltaUint64 fl _ ts opType _ history.2 <;> rfl

theorem itemPreprocScript_isErr
    (h : (itemPreprocScript rt env value params history.1 history.2).result = .ok out) :
    out.isErr = false := by
  unfold itemPreprocScript at h
  split at h
  · exact absurd h (by simp)
  · exact absurd h (by simp)
  · exact absurd h (by simp)
  · split at h
    · exact absurd h (by simp)
    · rename_i output _
      rw [← Except.ok.inj h]
      cases output <;> rfl

theorem itemPreprocThrottleValue_cases
    (h : (itemPreprocThrottleValue fl valueType value ts history.1 history.2).result = .ok out) :
    out = .none ∨ out = value := by
  unfold itemPreprocThrottleValue at h
  split_ifs at h
  · exact .inl (Except.ok.inj h).symm
  · exact .inr (Except.ok.inj h).symm

theorem itemPreprocThrottleTimedValue_cases
    (h : (itemPreprocThrottleTimedValue fl value ts params history.1 history.2).result = .ok out) :
    out = .none ∨ out = value := by
  unfold itemPreprocThrottleTimedValue at h
  split at h
  · exact absurd h (by simp)
  · simp only at h
    generalize (if isNone value then (0 : ℤ) else ts.sec - history.2.sec) = period at h
    split_ifs at h
    · exact .inl (Except.ok.inj h).symm
    · exact .inr (Except.ok.inj h).symm

theorem ppCheckNotSupportedError_ok {outputTemplate : List Char}
    (h : (ppCheckNotSupportedError rt value params outputTemplate ts).result = .ok out) :
    out = value := by
  unfold ppCheckNotSupportedError at h
  split at h
  · split at h
    · exact absurd h (by simp)
    · exact (Except.ok.inj h).symm
  · exact (Except.ok.inj h).symm

theorem mapError_ok {ε ε' α : Type} {f : ε → ε'} {x : Except ε α} {a : α}
    (h : x.mapError f = .ok a) : x = .ok a := by
  cases x with
  | error e => exact absurd h (by simp [Except.mapError])
  | ok b => exact congrArg Except.ok (Except.ok.inj h)

theorem ppExecuteStep_isErr (hvalue : value.isErr = false)
    (h : (ppExecuteStep rt env valueType value ts step history.1 history.2).result = .ok out) :
    out.isErr = false := by
  have throttled (hout : out = .none ∨ out = value) : out.isErr = false := by
    rcases hout with hout | hout
    · rw [hout]
      rfl
    · rw [hout]
      exact hvalue
  unfold ppExecuteStep at h
  cases htype : step.type <;> simp only [htype] at h
  case deltaValue => exact itemPreprocDelta_isErr (mapError_ok h)
  case deltaSpeed => exact itemPreprocDelta_isErr (mapError_ok h)
  case throttleValue => exact throttled (itemPreprocThrottleValue_cases (mapError_ok h))
  case throttleTimedValue => exact throttled (itemPreprocThrottleTimedValue_cases (mapError_ok h))
  case validateNotSupported => exact throttled (.inr (ppCheckNotSupportedError_ok h))
  case script =>
    split_ifs at h
    · exact itemPreprocScript_isErr (mapError_ok h)
    · exact itemPreprocScript_isErr (mapError_ok h)
  case unknown => exact absurd h (by simp)
  all_goals exact rt.plain_isErr (mapError_ok h)

end Outcome

end Step

end Zabbix.Preproc
