import Zabbix.Preproc.StepHistory

/-!
# Preprocessing as a composition of its steps

An item and the items with one of its steps each process the same values.
-/

namespace Zabbix.Preproc

open List Zabbix.Eval Zabbix.Stages

variable {D E : Type} {rt : Runtime D E}
variable {steps : List PpStep}

section Conditions

variable (rt : Runtime D E) (valueType : ItemValueType) (input : Input D E)
  (historyIn : Option (List (StepHistory D)))

def stepsSucceed : ℕ → List PpStep → Variant D → Bool
  | _, [], _ => true
  | i, step :: steps, value =>
    skipped step value ||
      match (executeAt rt valueType input historyIn i step value).result with
      | .ok out => isNone out || stepsSucceed (i + 1) steps out
      | .error _ => false

def noSerialHistory (i : ℕ) (steps : List PpStep) : Bool :=
  (steps.zipIdx i).all fun p =>
    !p.1.type.hasSerialHistory || (historyIn.getD []).all fun entry => entry.index != p.2

def historyKept : ℕ → List PpStep → Variant D → Bool
  | _, [], _ => true
  | i, step :: steps, value =>
    match (executeAt rt valueType input historyIn i step value).result with
    | .ok out =>
      if isNone out then noSerialHistory historyIn (i + 1) steps
      else historyKept (i + 1) steps out
    | .error _ => true

variable {rt valueType input historyIn}

variable {value : Variant D}

theorem stepsSucceed_cons {i : ℕ} {step : PpStep}
    (h : stepsSucceed rt valueType input historyIn i (step :: steps) value = true)
    (hskip : skipped step value = false) :
    ∃ out, (executeAt rt valueType input historyIn i step value).result = .ok out ∧
      (isNone out = false →
        stepsSucceed rt valueType input historyIn (i + 1) steps out = true) := by
  simp only [stepsSucceed, hskip, Bool.false_or] at h
  split at h
  · rename_i out hout
    refine ⟨out, hout, fun hnone => ?_⟩
    simpa [hnone] using h
  · exact absurd h (by decide)

theorem historyKept_cons {i : ℕ} {step : PpStep} {out : Variant D}
    (h : historyKept rt valueType input historyIn i (step :: steps) value = true)
    (hout : (executeAt rt valueType input historyIn i step value).result = .ok out) :
    (isNone out = true → noSerialHistory historyIn (i + 1) steps = true) ∧
      (isNone out = false → historyKept rt valueType input historyIn (i + 1) steps out = true) := by
  simp only [historyKept, hout] at h
  constructor
  · intro hnone
    simpa [hnone] using h
  · intro hnone
    simpa [hnone] using h

theorem noSerialHistory_cons {i : ℕ} {step : PpStep} :
    noSerialHistory historyIn i (step :: steps) = true ↔
      (step.type.hasSerialHistory = true → ∀ entry ∈ historyIn.getD [], entry.index ≠ i) ∧
        noSerialHistory historyIn (i + 1) steps = true := by
  simp [noSerialHistory, zipIdx_cons, or_iff_not_imp_left]

end Conditions

theorem isNone_of_isErr {value : Variant D} (h : value.isErr = true) : isNone value = false := by
  cases value <;> simp_all [isNone, Variant.isErr]

theorem skipped_of_isErr {step : PpStep} {value : Variant D} (h : value.isErr = false) :
    skipped step value = false := by
  simp [skipped, h]

section Alone

variable (item : PpItemPreproc) {input : Input D E} {step : PpStep}
  {history : Option (List (StepHistory D))}

theorem alone_historyNum (step : PpStep) :
    (item.alone step).historyNum = if step.type.hasHistory then 1 else 0 := by
  simp [PpItemPreproc.historyNum, PpItemPreproc.alone, countP_singleton]

theorem ppProcess_alone_skipped (h : skipped step input.value = true) :
    ppProcess rt (item.alone step) history input = (some input, none) := by
  have herr : input.value.isErr = true := (Bool.and_eq_true_iff.mp h).1
  simp [ppProcess, ppExecute, PpItemPreproc.alone, ppSteps, ppLoop, h, ppReported, ppHistoryOut,
    herr, Input.emit, isNone_of_isErr herr]

theorem ppProcess_alone {out : Variant D} (hskip : skipped step input.value = false)
    (h : (executeAt rt item.valueType input (historyAcquire (item.alone step) history) 0 step
      input.value).result = .ok out) :
    (ppProcess rt (item.alone step) history input).1 = input.emit out ∧
      zbxPpHistoryGet (ppProcess rt (item.alone step) history input).2 0 =
        keptHistory step out (executeAt rt item.valueType input
          (historyAcquire (item.alone step) history) 0 step input.value) := by
  have hsteps : ppSteps rt (item.alone step) (historyAcquire (item.alone step) history) input =
      ppIterate rt item.valueType input (historyAcquire (item.alone step) history) 0 step
        ⟨input.value, [], [], .default, false⟩ := by
    simp [ppSteps, PpItemPreproc.alone, ppLoop, hskip]
  have hprocess : ppProcess rt (item.alone step) history input =
      (input.emit (ppReported rt input (ppSteps rt (item.alone step)
          (historyAcquire (item.alone step) history) input)),
        ppHistoryOut (item.alone step) (ppSteps rt (item.alone step)
          (historyAcquire (item.alone step) history) input)) := rfl
  rw [hprocess, hsteps]
  simp only [ppIterate, h]
  constructor
  · simp only [ppReported]
    rw [if_neg]
    rintro ⟨herr, -, -, hquote⟩
    exact absurd (herr.symm.trans hquote) (by decide)
  · simp only [ppHistoryOut, alone_historyNum]
    cases hhistory : step.type.hasHistory with
    | false => simp [keptHistory, hhistory, zbxPpHistoryGet]
    | true =>
      cases herr : out.isErr with
      | true => simp [keptHistory, herr, zbxPpHistoryGet]
      | false => exact ppHistoryAdd_get (fun _ hentry => absurd hentry not_mem_nil) step out _

theorem ppIterate_ok {valueType : ItemValueType} {i : ℕ} {p : Progress D} {out : Variant D}
    (h : (executeAt rt valueType input history i step p.value).result = .ok out) :
    ppIterate rt valueType input history i step p =
      ⟨out, ppHistoryAdd p.history i step out (executeAt rt valueType input history i step p.value),
        p.results ++ [⟨out, .default, .none⟩], .default, out.isErr⟩ := by
  simp only [ppIterate, h]

theorem stepAgrees_acquire {a : Variant D × Timespec}
    (h : StepAgrees rt step a (zbxPpHistoryGet history 0)) :
    StepAgrees rt step a (zbxPpHistoryGet (historyAcquire (item.alone step) history) 0) := by
  cases hhistory : step.type.hasHistory with
  | false => exact stepAgrees_of_hasHistory hhistory
  | true => simpa [historyAcquire, alone_historyNum, hhistory] using h

end Alone

abbrev Stage (D : Type) := PpStep × Option (List (StepHistory D))

variable (rt) in
def Related (history : Option (List (StepHistory D))) : ℕ → List (Stage D) → Prop
  | _, [] => True
  | i, stage :: rest =>
    StepAgrees rt stage.1 (zbxPpHistoryGet history i) (zbxPpHistoryGet stage.2 0) ∧
      Related history (i + 1) rest

abbrev stages (rt : Runtime D E) (item : PpItemPreproc) :
    List (Stage D) → Input D E → Option (Input D E) × List (Stage D) :=
  chain fun step => ppProcess rt (item.alone step)

theorem related_none (steps : List PpStep) (i : ℕ) :
    Related rt none i (steps.map fun step => (step, none)) := by
  induction steps generalizing i with
  | nil => trivial
  | cons step steps ih => exact ⟨stepAgrees_none step, ih (i + 1)⟩

variable {rest : List (Stage D)}

theorem related_discarded {historyIn : Option (List (StepHistory D))}
    {history : List (StepHistory D)} {i : ℕ} (h : Related rt historyIn i rest)
    (hkept : noSerialHistory historyIn i (rest.map Prod.fst) = true)
    (hindex : ∀ entry ∈ history, entry.index < i) : Related rt (some history) i rest := by
  induction rest generalizing i with
  | nil => trivial
  | cons stage rest ih =>
    have habsent : zbxPpHistoryGet (some history) i = (.none, ⟨0, 0⟩) :=
      zbxPpHistoryGet_absent fun entry hentry => Nat.ne_of_lt (hindex entry hentry)
    obtain ⟨hstage, hrest⟩ := noSerialHistory_cons.mp hkept
    refine ⟨⟨fun hserial => ?_, fun hscript => ⟨?_, (h.1.script hscript).2⟩⟩, ?_⟩
    · rw [habsent, ← h.1.serial hserial]
      exact (zbxPpHistoryGet_absent (hstage hserial)).symm
    · rw [habsent]
      trivial
    · apply ih h.2 hrest
      intro entry hentry
      exact Nat.lt_succ_of_lt (hindex entry hentry)

structure IterateAgrees (rt : Runtime D E) (item : PpItemPreproc) (input : Input D E) (i : ℕ)
    (stage : Stage D) (out : Variant D) (p p' : Progress D) : Prop where
  value : p'.value = out
  noError : out.isErr = false
  passed : (ppProcess rt (item.alone stage.1) stage.2 { input with value := p.value }).1 =
    input.emit out
  related : StepAgrees rt stage.1 (zbxPpHistoryGet (some p'.history) i)
    (zbxPpHistoryGet
      (ppProcess rt (item.alone stage.1) stage.2 { input with value := p.value }).2 0)
  index : ∀ entry ∈ p'.history, entry.index < i + 1
  front : ∀ j < i, zbxPpHistoryGet (some p'.history) j = zbxPpHistoryGet (some p.history) j

variable {stage : Stage D}

theorem ppIterate_agrees {item : PpItemPreproc} {input : Input D E}
    {historyIn : Option (List (StepHistory D))} {i : ℕ} {p : Progress D} {out : Variant D}
    (hhead : StepAgrees rt stage.1 (zbxPpHistoryGet historyIn i) (zbxPpHistoryGet stage.2 0))
    (herr : p.value.isErr = false) (hindex : ∀ entry ∈ p.history, entry.index < i)
    (hout : (executeAt rt item.valueType input historyIn i stage.1 p.value).result = .ok out) :
    IterateAgrees rt item input i stage out p
      (ppIterate rt item.valueType input historyIn i stage.1 p) := by
  obtain ⟨hresult, hagrees⟩ := ppExecuteStep_agrees input.env item.valueType p.value input.ts
    (stepAgrees_acquire item hhead)
  have hskip : skipped stage.1 p.value = false := skipped_of_isErr herr
  have halone : (executeAt rt item.valueType { input with value := p.value }
      (historyAcquire (item.alone stage.1) stage.2) 0 stage.1 p.value).result = .ok out :=
    hresult.symm.trans hout
  obtain ⟨hpassed, hget⟩ := ppProcess_alone item hskip halone
  rw [ppIterate_ok hout]
  refine ⟨rfl, ppExecuteStep_isErr herr hout, hpassed, ?_, ?_, ?_⟩
  · rw [hget, ppHistoryAdd_get hindex]
    exact hagrees out
  · exact ppHistoryAdd_index hindex stage.1 out _
  · intro j hj
    exact ppHistoryAdd_get_ne p.history (Nat.ne_of_lt hj) stage.1 out _

structure LoopAgrees (rt : Runtime D E) (item : PpItemPreproc) (input : Input D E) (i : ℕ)
    (rest : List (Stage D)) (p q : Progress D) : Prop where
  value : (stages rt item rest { input with value := p.value }).1 = input.emit q.value
  noError : q.value.isErr = false
  front : ∀ j < i, zbxPpHistoryGet (some q.history) j = zbxPpHistoryGet (some p.history) j
  related : Related rt (some q.history) i
    (stages rt item rest { input with value := p.value }).2

/-- By induction on the steps. A step sees the same history in both, and its new history is the
entry that the loop adds, which later steps keep. -/
theorem ppLoop_agrees {item : PpItemPreproc} {input : Input D E}
    {historyIn : Option (List (StepHistory D))} {i : ℕ} {p : Progress D}
    (hrelated : Related rt historyIn i rest)
    (hsucceed : stepsSucceed rt item.valueType input historyIn i (rest.map Prod.fst) p.value = true)
    (hkept : historyKept rt item.valueType input historyIn i (rest.map Prod.fst) p.value = true)
    (herr : p.value.isErr = false) (hvalue : rest ≠ [] ∨ isNone p.value = false)
    (hindex : ∀ entry ∈ p.history, entry.index < i) :
    LoopAgrees rt item input i rest p
      (ppLoop rt item.valueType input historyIn i (rest.map Prod.fst) p) := by
  induction rest generalizing i p with
  | nil =>
    refine ⟨?_, herr, fun _ _ => rfl, trivial⟩
    have hpresent : isNone p.value = false := hvalue.resolve_left fun h => h rfl
    simp [stages, chain, ppLoop, Input.emit, hpresent]
  | cons stage rest ih =>
    have hskip : skipped stage.1 p.value = false := skipped_of_isErr herr
    obtain ⟨out, hout, hnext⟩ := stepsSucceed_cons hsucceed hskip
    have hstep := ppIterate_agrees hrelated.1 herr hindex hout
    obtain ⟨hdiscarded, hbehind⟩ := historyKept_cons hkept hout
    simp only [map_cons, ppLoop, hskip]
    generalize ppIterate rt item.valueType input historyIn i stage.1 p = p' at hstep ⊢
    cases hnone : isNone out with
    | true =>
      -- the value is discarded, and the steps behind are not executed in either
      have hchain : stages rt item (stage :: rest) { input with value := p.value } =
          (none, (stage.1, (ppProcess rt (item.alone stage.1) stage.2
            { input with value := p.value }).2) :: rest) := by
        simp [stages, chain, hstep.passed, Input.emit, hnone]
      simp only [Bool.false_eq_true, if_false, hstep.value, hnone, if_true]
      refine ⟨?_, hstep.value ▸ hstep.noError, hstep.front, ?_⟩
      · rw [hchain, hstep.value]
        simp [Input.emit, hnone]
      · rw [hchain]
        exact ⟨hstep.related, related_discarded hrelated.2 (hdiscarded hnone) hstep.index⟩
    | false =>
      have hnext := hnext hnone
      have hbehind := hbehind hnone
      rw [← hstep.value] at hbehind hnext
      have hrest := ih hrelated.2 hnext hbehind (hstep.value ▸ hstep.noError)
        (.inr (hstep.value ▸ hnone)) hstep.index
      have hchain : stages rt item (stage :: rest) { input with value := p.value } =
          ((stages rt item rest { input with value := p'.value }).1,
            (stage.1, (ppProcess rt (item.alone stage.1) stage.2
              { input with value := p.value }).2) ::
                (stages rt item rest { input with value := p'.value }).2) := by
        simp [stages, chain, hstep.passed, Input.emit, hnone, hstep.value]
      simp only [Bool.false_eq_true, if_false, hstep.value, hnone]
      refine ⟨?_, hrest.noError, ?_, ?_⟩
      · rw [hchain]
        exact hrest.value
      · intro j hj
        exact (hrest.front j (Nat.lt_succ_of_lt hj)).trans (hstep.front j hj)
      · rw [hchain]
        refine ⟨?_, hrest.related⟩
        rw [hrest.front i (Nat.lt_succ_self i)]
        exact hstep.related

theorem ppExecuteStep_notSupported {env : E} {valueType : ItemValueType} {value out : Variant D}
    {ts : Timespec} {step : PpStep} {history : Variant D × Timespec}
    (htype : step.type = .validateNotSupported)
    (h : (ppExecuteStep rt env valueType value ts step history.1 history.2).result = .ok out) :
    out = value := by
  simp only [ppExecuteStep, htype] at h
  exact ppCheckNotSupportedError_ok h

theorem stages_skipped {item : PpItemPreproc} {input : Input D E} {i : ℕ}
    (herr : input.value.isErr = true) (h : ∀ stage ∈ rest, stage.1.type ≠ .validateNotSupported) :
    (stages rt item rest input).1 = some input ∧
      Related rt none i (stages rt item rest input).2 := by
  induction rest generalizing i with
  | nil => exact ⟨rfl, trivial⟩
  | cons stage rest ih =>
    have hskip : skipped stage.1 input.value = true := by
      simpa [skipped, herr] using h stage mem_cons_self
    have hpass : ppProcess rt (item.alone stage.1) stage.2 input = (some input, none) :=
      ppProcess_alone_skipped item hskip
    obtain ⟨hvalue, hrelated⟩ := ih (i := i + 1) fun next hnext =>
      h next (mem_cons_of_mem stage hnext)
    simp only [stages, chain, hpass]
    exact ⟨hvalue, stepAgrees_none stage.1, hrelated⟩

theorem ppProcess_notSupported {item : PpItemPreproc} {input : Input D E} {i : ℕ}
    {historyIn : Option (List (StepHistory D))} {out : Variant D}
    (htype : stage.1.type = .validateNotSupported) (herr : input.value.isErr = true)
    (hout : (executeAt rt item.valueType input historyIn i stage.1 input.value).result = .ok out) :
    out = input.value ∧ (ppProcess rt (item.alone stage.1) stage.2 input).1 = some input := by
  have hskip : skipped stage.1 input.value = false := by simp [skipped, htype]
  have hplain : stage.1.type.hasHistory = false := by
    rw [htype]
    rfl
  have hsame : out = input.value := ppExecuteStep_notSupported htype hout
  refine ⟨hsame, ?_⟩
  rw [(ppProcess_alone item hskip ((ppExecuteStep_plain hplain _ _).trans hout)).1, hsame]
  simp [Input.emit, isNone_of_isErr herr]

/-- By induction on the steps: the checks come first, and none of them changes the error. -/
theorem stages_error {item : PpItemPreproc} {input : Input D E}
    {historyIn : Option (List (StepHistory D))} {i : ℕ}
    (hsorted : (rest.map Prod.fst).Pairwise fun step next =>
      next.type = .validateNotSupported → step.type = .validateNotSupported) (hsucceed :
      stepsSucceed rt item.valueType input historyIn i (rest.map Prod.fst) input.value = true)
    (herr : input.value.isErr = true) :
    (stages rt item rest input).1 = some input ∧
      Related rt none i (stages rt item rest input).2 := by
  induction rest generalizing i with
  | nil => exact ⟨rfl, trivial⟩
  | cons stage rest ih =>
    obtain ⟨hfirst, hrest⟩ := pairwise_cons.mp hsorted
    by_cases htype : stage.1.type = .validateNotSupported
    · have hskip : skipped stage.1 input.value = false := by simp [skipped, htype]
      obtain ⟨out, hout, hnext⟩ := stepsSucceed_cons hsucceed hskip
      obtain ⟨hsame, hpass⟩ := ppProcess_notSupported htype herr hout
      have hplain : stage.1.type.hasHistory = false := by
        rw [htype]
        rfl
      rw [hsame] at hnext
      obtain ⟨hvalue, hrelated⟩ := ih hrest (hnext (isNone_of_isErr herr))
      simp only [stages, chain, hpass]
      exact ⟨hvalue, stepAgrees_of_hasHistory hplain, hrelated⟩
    · apply stages_skipped herr
      intro next hnext hnextType
      rcases mem_cons.mp hnext with heq | hmem
      · exact htype (heq ▸ hnextType)
      · exact htype (hfirst next.1 (mem_map_of_mem hmem) hnextType)

theorem ppLoop_error {valueType : ItemValueType} {input : Input D E}
    {historyIn : Option (List (StepHistory D))} {i : ℕ} {p : Progress D}
    (hsucceed : stepsSucceed rt valueType input historyIn i steps p.value = true)
    (herr : p.value.isErr = true) (hquote : p.results.length = 0 ∨ p.quoteError = true) :
    (ppLoop rt valueType input historyIn i steps p).value = p.value ∧
      ((ppLoop rt valueType input historyIn i steps p).results.length = 0 ∨
        (ppLoop rt valueType input historyIn i steps p).quoteError = true) := by
  induction steps generalizing i p with
  | nil => exact ⟨rfl, hquote⟩
  | cons step steps ih =>
    cases hskip : skipped step p.value with
    | true =>
      simp only [ppLoop, hskip, if_true]
      exact ⟨trivial, hquote⟩
    | false =>
      obtain ⟨out, hout, hnext⟩ := stepsSucceed_cons hsucceed hskip
      have htype : step.type = .validateNotSupported := by simpa [skipped, herr] using hskip
      have hsame : out = p.value := ppExecuteStep_notSupported htype hout
      have hnext := hnext (hsame ▸ isNone_of_isErr herr)
      simp only [ppLoop, hskip, Bool.false_eq_true, if_false, ppIterate_ok hout,
        hsame, isNone_of_isErr herr]
      rw [hsame] at hnext
      exact ih hnext herr (.inr herr)

theorem historyNum_eq_zero {item : PpItemPreproc} :
    item.historyNum = 0 ↔ ∀ step ∈ item.steps, step.type.hasHistory = false := by
  simp [PpItemPreproc.historyNum, countP_eq_zero]

theorem related_of_historyNum {history : Option (List (StepHistory D))} {i : ℕ}
    (h : ∀ step ∈ rest.map Prod.fst, step.type.hasHistory = false) :
    Related rt history i rest := by
  induction rest generalizing i with
  | nil => trivial
  | cons stage rest ih =>
    rw [map_cons, forall_mem_cons] at h
    exact ⟨stepAgrees_of_hasHistory h.1, ih h.2⟩

structure Agree (rt : Runtime D E) (item : PpItemPreproc)
    (history : Option (List (StepHistory D))) (rest : List (Stage D)) : Prop where
  steps : rest.map Prod.fst = item.steps
  related : Related rt history 0 rest

def Undisturbed (rt : Runtime D E) (item : PpItemPreproc)
    (history : Option (List (StepHistory D))) (input : Input D E) : Prop :=
  stepsSucceed rt item.valueType input (historyAcquire item history) 0 item.steps input.value =
      true ∧
    historyKept rt item.valueType input (historyAcquire item history) 0 item.steps input.value =
      true

instance (rt : Runtime D E) (item : PpItemPreproc) (history : Option (List (StepHistory D)))
    (input : Input D E) : Decidable (Undisturbed rt item history input) :=
  inferInstanceAs (Decidable (_ ∧ _))

theorem Agree.acquire {item : PpItemPreproc} {history : Option (List (StepHistory D))}
    (h : Agree rt item history rest) :
    Related rt (historyAcquire item history) 0 rest := by
  by_cases hnum : item.historyNum = 0
  · apply related_of_historyNum
    rw [h.steps]
    exact historyNum_eq_zero.mp hnum
  · rw [historyAcquire, if_neg hnum]
    exact h.related

theorem ppProcess_eq (item : PpItemPreproc) (hsteps : item.steps ≠ [])
    (history : Option (List (StepHistory D))) (input : Input D E) :
    ppProcess rt item history input =
      (input.emit (ppReported rt input (ppSteps rt item (historyAcquire item history) input)),
        ppHistoryOut item (ppSteps rt item (historyAcquire item history) input)) := by
  simp [ppProcess, ppExecute, hsteps]

theorem ppProcess_agrees {item : PpItemPreproc} (hsteps : item.steps ≠ [])
    {history : Option (List (StepHistory D))} {input : Input D E} (h : Agree rt item history rest)
    (hok : Undisturbed rt item history input) :
    (ppProcess rt item history input).1 = (stages rt item rest input).1 ∧
      Agree rt item (ppProcess rt item history input).2 (stages rt item rest input).2 := by
  obtain ⟨hsucceed, hkept⟩ := hok
  have hmap : (stages rt item rest input).2.map Prod.fst = item.steps :=
    (chain_map_fst _ rest input).trans h.steps
  have hrest : rest ≠ [] := by
    intro hnil
    rw [← h.steps, hnil] at hsteps
    exact hsteps rfl
  rw [ppProcess_eq item hsteps]
  rw [← h.steps] at hsucceed hkept
  have hloop : ppSteps rt item (historyAcquire item history) input =
      ppLoop rt item.valueType input (historyAcquire item history) 0 (rest.map Prod.fst)
        ⟨input.value, [], [], .default, false⟩ := by
    rw [h.steps]
    rfl
  rw [hloop]
  cases herr : input.value.isErr with
  | true =>
    obtain ⟨hvalue, hquote⟩ := ppLoop_error (p := ⟨input.value, [], [], .default, false⟩)
      hsucceed herr (.inl rfl)
    obtain ⟨hpass, hrelated⟩ := stages_error (h.steps ▸ item.notSupportedFirst) hsucceed herr
    generalize ppLoop rt item.valueType input (historyAcquire item history) 0 (rest.map Prod.fst)
      ⟨input.value, [], [], .default, false⟩ = q at hvalue hquote ⊢
    have hreported : ppReported rt input q = input.value := by
      rw [ppReported, if_neg, hvalue]
      rintro ⟨-, hresults, -, hnot⟩
      rcases hquote with hnone | hyes
      · exact hresults hnone
      · rw [hyes] at hnot
        exact absurd hnot (by decide)
    have hout : ppHistoryOut item q = none := by simp [ppHistoryOut, hvalue, herr]
    rw [hreported, hout, hpass]
    refine ⟨by simp [Input.emit, isNone_of_isErr herr], hmap, hrelated⟩
  | false =>
    have hagrees := ppLoop_agrees (p := ⟨input.value, [], [], .default, false⟩) h.acquire hsucceed
      hkept herr (.inl hrest) (fun _ hentry => absurd hentry not_mem_nil)
    generalize ppLoop rt item.valueType input (historyAcquire item history) 0 (rest.map Prod.fst)
      ⟨input.value, [], [], .default, false⟩ = q at hagrees ⊢
    have hreported : ppReported rt input q = q.value := by simp [ppReported, hagrees.noError]
    rw [hreported]
    refine ⟨hagrees.value.symm, hmap, ?_⟩
    by_cases hnum : item.historyNum = 0
    · apply related_of_historyNum
      rw [hmap]
      exact historyNum_eq_zero.mp hnum
    · have hout : ppHistoryOut item q = some q.history := by
        simp [ppHistoryOut, hnum, hagrees.noError]
      rw [hout]
      exact hagrees.related

theorem emit_present {input output : Input D E} {value : Variant D}
    (h : input.emit value = some output) : isNone output.value = false := by
  unfold Input.emit at h
  split_ifs at h with hnone
  rw [← Option.some.inj h]
  exact eq_false_of_ne_true hnone

theorem pass_filter (item : PpItemPreproc) (history : Option (List (StepHistory D)))
    (inputs : List (Input D E)) :
    (pass (ppProcess rt item) history inputs).filter (fun input => !isNone input.value) =
      pass (ppProcess rt item) history inputs := by
  apply filter_eq_self.mpr
  induction inputs generalizing history with
  | nil => simp [Stages.pass]
  | cons input inputs ih =>
    intro output houtput
    rcases mem_append.mp houtput with hhead | htail
    · have hnone := emit_present (Option.mem_toList.mp hhead)
      rw [hnone]
      rfl
    · exact ih _ output htail

theorem pass_no_steps {item : PpItemPreproc} (hsteps : item.steps = [])
    (history : Option (List (StepHistory D))) (inputs : List (Input D E)) :
    pass (ppProcess rt item) history inputs = inputs.filter fun input => !isNone input.value := by
  induction inputs generalizing history with
  | nil => rfl
  | cons input inputs ih =>
    have hprocess : ppProcess rt item history input = (input.emit input.value, history) := by
      simp [ppProcess, ppExecute, hsteps]
    simp only [Stages.pass, hprocess, ih]
    cases hnone : isNone input.value with
    | true | false => simp [Input.emit, hnone]

theorem stepByStep_eq (item : PpItemPreproc) (inputs : List (Input D E)) :
    stepByStep rt item inputs =
      (pass (stages rt item) (item.steps.map fun step => (step, none)) inputs).filter
        fun input => !isNone input.value := by
  rw [stages, pass_chain, foldl_map]
  rfl

/-- Processing a sequence is passing it through the steps one after another, when no step fails and
nothing is discarded in front of a change or a throttling step that has history. -/
theorem ppRun_eq_stepByStep (rt : Runtime D E) (item : PpItemPreproc) (inputs : List (Input D E))
    (h : Along (ppProcess rt item) (Undisturbed rt item) none inputs) :
    ppRun rt item inputs = stepByStep rt item inputs := by
  rw [stepByStep_eq]
  by_cases hsteps : item.steps = []
  · rw [ppRun, pass_no_steps hsteps, hsteps, map_nil, stages, pass_chain_nil]
  · have hstart : Agree rt item none (item.steps.map fun step => (step, none)) :=
      ⟨by simp [Function.comp_def], related_none item.steps 0⟩
    have hpass : pass (ppProcess rt item) none inputs =
        pass (stages rt item) (item.steps.map fun step => (step, none)) inputs := by
      apply pass_eq (R := Agree rt item) (P := Undisturbed rt item) _ hstart h
      intro history rest input hagree hok
      exact ppProcess_agrees hsteps hagree hok
    rw [← hpass, pass_filter]
    rfl

def wholeDouble : Double ℤ where
  toFloating := wholeNumbers
  le x y := x ≤ y
  truncate x := UInt64.ofNat x.toNat
  ofInt x := x

def historyOnly : Runtime ℤ Unit where
  fl := wholeDouble
  umHandle := false
  expand _ _ text := text
  plain _ _ _ _ _ := .error []
  plain_isErr h := absurd h (by simp)
  checkErrorRegex _ _ _ := none
  esInitEnv _ := none
  esCompile _ := .error []
  esExecute _ _ _ _ := .error []
  formatError _ _ := []

def throttledChange : PpItemPreproc where
  valueType := .uint64
  steps := [⟨.throttleValue, .default, [], []⟩, ⟨.deltaValue, .default, [], []⟩]
  notSupportedFirst := by simp

def counterValues (values : List UInt64) : List (Input ℤ Unit) :=
  values.zipIdx.map fun p => ⟨.ui64 p.1, ⟨p.2 + 1, 0⟩, ()⟩

theorem ppRun_increasing :
    ppRun historyOnly throttledChange (counterValues [1, 2, 4]) =
      stepByStep historyOnly throttledChange (counterValues [1, 2, 4]) :=
  ppRun_eq_stepByStep historyOnly throttledChange (counterValues [1, 2, 4]) (by decide)

/-- The repeated value is discarded, and with it the history of the change behind: the next value
gives no change. -/
theorem ppRun_repeated_ne :
    ¬ ∀ (rt : Runtime ℤ Unit) (item : PpItemPreproc) (inputs : List (Input ℤ Unit)),
      Along (ppProcess rt item) (fun history input => stepsSucceed rt item.valueType input
        (historyAcquire item history) 0 item.steps input.value = true) none inputs →
      ppRun rt item inputs = stepByStep rt item inputs := by
  intro h
  have hsame := h historyOnly throttledChange (counterValues [1, 1, 2]) (by decide)
  have hcode : (ppRun historyOnly throttledChange (counterValues [1, 1, 2])).length = 0 := by
    decide
  have hsteps : (stepByStep historyOnly throttledChange (counterValues [1, 1, 2])).length = 1 := by
    decide
  rw [hsame, hsteps] at hcode
  exact absurd hcode (by decide)

end Zabbix.Preproc
