import Mathlib.Data.List.Infix
import Zabbix.Foundation.Stages
import Zabbix.Interval.Parse
import Zabbix.Preproc.Convert

/-!
# Item preprocessing

`pp_execute` and the preprocessing history of an item. Steps that keep no history are taken from the
runtime, as are user macros, scripts and the texts of errors; what they depend on at the time of a
value is its environment.
-/

namespace Zabbix.Preproc

open Zabbix.Eval Zabbix.Interval Zabbix.Stages

structure Timespec where
  sec : ℤ
  ns : ℤ
  deriving DecidableEq

def zbxTimespecCompare (t1 t2 : Timespec) : ℤ :=
  if t1.sec = t2.sec then t1.ns - t2.ns else t1.sec - t2.sec

inductive PpType
  | multiplier
  | rtrim
  | ltrim
  | trim
  | regsub
  | bool2dec
  | oct2dec
  | hex2dec
  | deltaValue
  | deltaSpeed
  | xpath
  | jsonpath
  | validateRange
  | validateRegex
  | validateNotRegex
  | errorFieldJson
  | errorFieldXml
  | errorFieldRegex
  | throttleValue
  | throttleTimedValue
  | script
  | prometheusPattern
  | prometheusToJson
  | csvToJson
  | strReplace
  | validateNotSupported
  | xmlToJson
  | snmpWalkValue
  | snmpWalkToJson
  | snmpGetValue
  | unknown
  deriving DecidableEq

inductive FailHandler
  | default
  | discardValue
  | setValue
  | setError
  deriving DecidableEq

structure PpStep where
  type : PpType
  errorHandler : FailHandler
  params : List Char
  errorHandlerParams : List Char

def PpType.hasHistory : PpType → Bool
  | .deltaValue | .deltaSpeed | .throttleValue | .throttleTimedValue | .script => true
  | _ => false

def PpType.hasSerialHistory : PpType → Bool
  | .deltaValue | .deltaSpeed | .throttleValue | .throttleTimedValue => true
  | _ => false

/-- `zbx_pp_item_preproc_t`. Configuration sorts the checks for unsupported items to the front. -/
structure PpItemPreproc where
  valueType : ItemValueType
  steps : List PpStep
  notSupportedFirst : steps.Pairwise fun step next =>
    next.type = .validateNotSupported → step.type = .validateNotSupported

def PpItemPreproc.historyNum (item : PpItemPreproc) : ℕ :=
  item.steps.countP fun step => step.type.hasHistory

structure PpResult (D : Type) where
  value : Variant D
  action : FailHandler
  valueRaw : Variant D

structure Runtime (D E : Type) where
  fl : Double D
  /-- Whether there is a handle of the user macro cache. -/
  umHandle : Bool
  /-- `zbx_dc_expand_user_and_func_macros_from_cache`; the flag is for the secure environment. -/
  expand : E → Bool → List Char → List Char
  /-- The steps without history. -/
  plain : E → PpType → ItemValueType → List Char → Variant D → Except (List Char) (Variant D)
  /-- A step that succeeds does not make an error of its value. -/
  plain_isErr : ∀ {env type valueType params value out},
    plain env type valueType params value = .ok out → out.isErr = false
  /-- `item_preproc_check_error_regex`: when it succeeds, with the extracted message. -/
  checkErrorRegex : List Char → List Char → List Char → Option (Option (List Char))
  /-- The error of setting up the environment of scripts. -/
  esInitEnv : E → Option (List Char)
  esCompile : List Char → Except (List Char) (List UInt8)
  esExecute : E → List Char → List UInt8 → List Char → Except (List Char) (Option (List Char))
  /-- `pp_format_error`. -/
  formatError : Variant D → List (PpResult D) → List Char

/-- What an `item_preproc_` function leaves in the value and in the history. -/
structure Processed (D : Type) where
  result : Except (List Char) (Variant D)
  historyValue : Variant D
  historyTs : Timespec

/-- What a step leaves; `.error` holds the value of a step that failed. -/
structure StepOutcome (D : Type) where
  result : Except (Variant D) (Variant D)
  historyValue : Variant D
  historyTs : Timespec
  error : Option (List Char)

def Processed.outcome {D : Type} (p : Processed D) (message : List Char → List Char) :
    StepOutcome D :=
  ⟨p.result.mapError fun errmsg => .err (message errmsg), p.historyValue, p.historyTs, none⟩

def zbxVariantTypeDesc {D : Type} : Variant D → String
  | .dbl _ => "double"
  | .ui64 _ => "uint64"
  | .str _ => "string"
  | .none => "none"
  | .bin _ => "binary"
  | .err _ => "error"
  | .vector _ => "vector"

def isNone {D : Type} : Variant D → Bool
  | .none => true
  | _ => false

def isDbl {D : Type} : Variant D → Bool
  | .dbl _ => true
  | _ => false

section Steps

variable {D : Type} (fl : Double D)

def elapsed (historyTs ts : Timespec) : D :=
  fl.add (fl.ofInt (ts.sec - historyTs.sec))
    (fl.div (fl.ofInt (ts.ns - historyTs.ns)) (fl.ofInt 1000000000))

def itemPreprocDeltaFloat (value : D) (ts : Timespec) (opType : PpType) (historyValue : D)
    (historyTs : Timespec) : Option D :=
  if historyTs.sec = 0 ∨ fl.lt value historyValue then none
  else if opType = .deltaSpeed then
    if 0 ≤ zbxTimespecCompare historyTs ts then none
    else some (fl.div (fl.sub value historyValue) (elapsed fl historyTs ts))
  else some (fl.sub value historyValue)

def itemPreprocDeltaUint64 (value : UInt64) (ts : Timespec) (opType : PpType)
    (historyValue : UInt64) (historyTs : Timespec) : Option UInt64 :=
  if historyTs.sec = 0 ∨ value < historyValue then none
  else if opType = .deltaSpeed then
    if 0 ≤ zbxTimespecCompare historyTs ts then none
    else some (fl.truncate (fl.div (fl.ofUInt64 (value - historyValue)) (elapsed fl historyTs ts)))
  else some (value - historyValue)

def cannotConvert (value : Variant D) (type : String) : List Char :=
  ("cannot convert value from " ++ zbxVariantTypeDesc value ++ " to " ++ type).toList

def itemPreprocDelta (valueType : ItemValueType) (value : Variant D) (ts : Timespec)
    (opType : PpType) (historyValueIn : Variant D) (historyTs : Timespec) : Processed D :=
  match zbxItemPreprocConvertValueToNumeric fl value valueType with
  | .error errmsg => ⟨.error errmsg, .none, historyTs⟩
  | .ok number =>
    if isNone historyValueIn then ⟨.ok .none, number, ts⟩
    else if isDbl number || isDbl historyValueIn then
      match variantToDbl fl.toFloating number, variantToDbl fl.toFloating historyValueIn with
      | none, _ => ⟨.error (cannotConvert number "double"), historyValueIn, historyTs⟩
      | some _, none => ⟨.error (cannotConvert historyValueIn "double"), historyValueIn, historyTs⟩
      | some x, some y =>
        ⟨.ok (((itemPreprocDeltaFloat fl x ts opType y historyTs).map .dbl).getD .none), number, ts⟩
    else
      match variantToUi64 fl number, variantToUi64 fl historyValueIn with
      | none, _ => ⟨.error (cannotConvert number "uint64"), historyValueIn, historyTs⟩
      | some _, none => ⟨.error (cannotConvert historyValueIn "uint64"), historyValueIn, historyTs⟩
      | some x, some y =>
        ⟨.ok (((itemPreprocDeltaUint64 fl x ts opType y historyTs).map .ui64).getD .none), number,
          ts⟩

/-- The test of `item_preproc_throttle_value` for a repeated value. -/
def throttleSame (valueType : ItemValueType) (value historyValueIn : Variant D) : Bool :=
  match itemPreprocNumericTypeHint valueType, value, historyValueIn with
  | none, .str text, .str previous => text == previous
  | _, _, _ => zbxVariantCompare fl.toFloating value historyValueIn == .eq

def itemPreprocThrottleValue (valueType : ItemValueType) (value : Variant D) (ts : Timespec)
    (historyValueIn : Variant D) (historyTs : Timespec) : Processed D :=
  if throttleSame fl valueType value historyValueIn then ⟨.ok .none, value, historyTs⟩
  else ⟨.ok value, value, ts⟩

def itemPreprocThrottleTimedValue (value : Variant D) (ts : Timespec) (params : List Char)
    (historyValueIn : Variant D) (historyTs : Timespec) : Processed D :=
  match zbxIsTimeSuffix params params.length with
  | none => ⟨.error ("invalid time period: ".toList ++ params), .none, historyTs⟩
  | some timeout =>
    let period := if isNone value then 0 else ts.sec - historyTs.sec
    if zbxVariantCompare fl.toFloating value historyValueIn = .eq ∧ period < timeout then
      ⟨.ok .none, value, historyTs⟩
    else ⟨.ok value, value, ts⟩

end Steps

section Execute

variable {D E : Type} (rt : Runtime D E)

def scriptBytecode (params : List Char) (bytecodeIn : Variant D) :
    Except (List Char) (List UInt8) :=
  match bytecodeIn with
  | .bin code => .ok code
  | _ => rt.esCompile params

def itemPreprocScript (env : E) (value : Variant D) (params : List Char) (bytecodeIn : Variant D)
    (historyTs : Timespec) : Processed D :=
  match variantToStr rt.fl value, rt.esInitEnv env, scriptBytecode rt params bytecodeIn with
  | none, _, _ => ⟨.error "cannot convert value to string".toList, .none, historyTs⟩
  | some _, some errmsg, _ => ⟨.error errmsg, .none, historyTs⟩
  | some _, none, .error errmsg => ⟨.error errmsg, .none, historyTs⟩
  | some text, none, .ok code =>
    match rt.esExecute env params code text with
    | .error errmsg => ⟨.error errmsg, .bin code, historyTs⟩
    | .ok output => ⟨.ok ((output.map .str).getD .none), .bin code, historyTs⟩

def ppCheckNotSupportedError (value : Variant D) (params outputTemplate : List Char)
    (historyTs : Timespec) : StepOutcome D :=
  match value with
  | .err text =>
    match rt.checkErrorRegex text params outputTemplate with
    | some error => ⟨.error value, .none, historyTs, error⟩
    | none => ⟨.ok value, .none, historyTs, none⟩
  | _ => ⟨.ok value, .none, historyTs, none⟩

def deltaMessage (desc : String) (errmsg : List Char) : List Char :=
  ("cannot calculate delta (" ++ desc ++ ") for value of type \"none\": ").toList ++ errmsg

def userMacros (step : PpStep) : Bool := rt.umHandle && decide ("\x7b$".toList <:+: step.params)

def stepParams (env : E) (step : PpStep) : List Char :=
  if userMacros rt step then rt.expand env (decide (step.type = .script)) step.params
  else step.params

def ppExecuteStep (env : E) (valueType : ItemValueType) (value : Variant D) (ts : Timespec)
    (step : PpStep) (historyValueIn : Variant D) (historyTs : Timespec) : StepOutcome D :=
  let params := stepParams rt env step
  match step.type with
  | .deltaValue =>
    (itemPreprocDelta rt.fl valueType value ts .deltaValue historyValueIn historyTs).outcome
      (deltaMessage "simple change")
  | .deltaSpeed =>
    (itemPreprocDelta rt.fl valueType value ts .deltaSpeed historyValueIn historyTs).outcome
      (deltaMessage "speed per second")
  | .throttleValue =>
    (itemPreprocThrottleValue rt.fl valueType value ts historyValueIn historyTs).outcome id
  | .throttleTimedValue =>
    (itemPreprocThrottleTimedValue rt.fl value ts params historyValueIn historyTs).outcome id
  | .validateNotSupported =>
    ppCheckNotSupportedError rt value params step.errorHandlerParams historyTs
  | .script =>
    let outcome := (itemPreprocScript rt env value params historyValueIn historyTs).outcome id
    -- bytecode is not kept when there are user macros
    if userMacros rt step then { outcome with historyValue := .none } else outcome
  | .unknown => ⟨.error (.err "unknown preprocessing step".toList), .none, historyTs, none⟩
  | type => ⟨(rt.plain env type valueType params value).mapError .err, .none, historyTs, none⟩

def ppErrorOnFail (env : E) (value : Variant D) (error : Option (List Char)) (step : PpStep) :
    Variant D :=
  let params := error.getD step.errorHandlerParams
  let params := if rt.umHandle then rt.expand env false params else params
  match step.errorHandler with
  | .default => value
  | .discardValue => .none
  | .setValue => .str params
  | .setError => .err params

structure StepHistory (D : Type) where
  index : ℕ
  value : Variant D
  ts : Timespec

def zbxPpHistoryGet (history : Option (List (StepHistory D))) (index : ℕ) : Variant D × Timespec :=
  match (history.getD []).find? (·.index = index) with
  | some entry => (entry.value, entry.ts)
  | none => (.none, ⟨0, 0⟩)

structure Input (D E : Type) where
  value : Variant D
  ts : Timespec
  env : E

structure Progress (D : Type) where
  value : Variant D
  history : List (StepHistory D)
  results : List (PpResult D)
  action : FailHandler
  quoteError : Bool

variable (valueType : ItemValueType) (input : Input D E) (historyIn : Option (List (StepHistory D)))

def executeAt (i : ℕ) (step : PpStep) (value : Variant D) : StepOutcome D :=
  ppExecuteStep rt input.env valueType value input.ts step (zbxPpHistoryGet historyIn i).1
    (zbxPpHistoryGet historyIn i).2

def skipped (step : PpStep) (value : Variant D) : Bool :=
  value.isErr && decide (step.type ≠ .validateNotSupported)

def ppHistoryAdd (history : List (StepHistory D)) (i : ℕ) (step : PpStep) (value : Variant D)
    (outcome : StepOutcome D) : List (StepHistory D) :=
  if isNone outcome.historyValue = false ∧ value.isErr = false ∧ step.type.hasHistory then
    history ++ [⟨i, outcome.historyValue, outcome.historyTs⟩]
  else history

def ppIterate (i : ℕ) (step : PpStep) (p : Progress D) : Progress D :=
  let outcome := executeAt rt valueType input historyIn i step p.value
  match outcome.result with
  | .ok value =>
    { value := value
      history := ppHistoryAdd p.history i step value outcome
      results := p.results ++ [⟨value, .default, .none⟩]
      action := .default
      quoteError := value.isErr }
  | .error valueRaw =>
    let value := ppErrorOnFail rt input.env valueRaw outcome.error step
    { value := value
      history := ppHistoryAdd p.history i step value outcome
      results := p.results ++
        [⟨value, step.errorHandler, if step.errorHandler = .default then .none else valueRaw⟩]
      action := step.errorHandler
      quoteError := false }

def ppLoop : ℕ → List PpStep → Progress D → Progress D
  | _, [], p => p
  | i, step :: steps, p =>
    if skipped step p.value then p
    else
      let p := ppIterate rt valueType input historyIn i step p
      if isNone p.value then p else ppLoop (i + 1) steps p

end Execute

section Item

variable {D E : Type} (rt : Runtime D E) (item : PpItemPreproc)

def ppSteps (historyIn : Option (List (StepHistory D))) (input : Input D E) : Progress D :=
  ppLoop rt item.valueType input historyIn 0 item.steps ⟨input.value, [], [], .default, false⟩

def historyAcquire (history : Option (List (StepHistory D))) : Option (List (StepHistory D)) :=
  if item.historyNum = 0 then none else history

def ppReported (input : Input D E) (p : Progress D) : Variant D :=
  if p.value.isErr ∧ p.results.length ≠ 0 ∧ p.action ≠ .setError ∧ p.quoteError = false then
    .err (rt.formatError input.value p.results)
  else p.value

def ppHistoryOut (p : Progress D) : Option (List (StepHistory D)) :=
  if item.historyNum = 0 ∨ p.value.isErr then none else some p.history

/-- `pp_execute` for a value that is not taken from the cache of a master item: the value, the
history that it leaves and the results of the steps. -/
def ppExecute (history : Option (List (StepHistory D))) (input : Input D E) :
    Variant D × Option (List (StepHistory D)) × List (PpResult D) :=
  if item.steps.length = 0 then (input.value, history, [])
  else
    let p := ppSteps rt item (historyAcquire item history) input
    (ppReported rt input p, ppHistoryOut item p, p.results)

def Input.emit (input : Input D E) (value : Variant D) : Option (Input D E) :=
  if isNone value then none else some { input with value := value }

def ppProcess (history : Option (List (StepHistory D))) (input : Input D E) :
    Option (Input D E) × Option (List (StepHistory D)) :=
  let (value, history, _) := ppExecute rt item history input
  (input.emit value, history)

def ppRun (inputs : List (Input D E)) : List (Input D E) :=
  pass (ppProcess rt item) none inputs

def PpItemPreproc.alone (step : PpStep) : PpItemPreproc :=
  ⟨item.valueType, [step], List.pairwise_singleton _ _⟩

def stepByStep (inputs : List (Input D E)) : List (Input D E) :=
  (item.steps.foldl (fun inputs step => ppRun rt (item.alone step) inputs) inputs).filter
    fun input => !isNone input.value

end Item

end Zabbix.Preproc
