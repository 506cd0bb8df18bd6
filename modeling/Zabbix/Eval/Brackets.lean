import Zabbix.Eval.Progress

/-!
# Parentheses and commas of accepted expressions

The opening parentheses on `ops` are the parentheses still open, and those standing on a
function are the ones of its call.
-/

namespace Zabbix.Eval

open TokenType

variable {op token : Token} {stop : Token → Bool} {ops rest : List Token} {ext : External}
  {ctx ctx' : Context} {pos : ℕ} {nesting nesting' : List Bool}

/-- One token: `nesting` tells for the open parentheses, the innermost first, whether they
are those of a function call. -/
def bracketStep (last : TokenType) (nesting : List Bool) (type : TokenType) : Option (List Bool) :=
  if type = groupOpen then some (last.isFunction :: nesting)
  else if type = groupClose then
    match nesting with
    | [] => none
    | _ :: nesting => some nesting
  else if type = comma then if nesting.head? = some true then some nesting else none
  else some nesting

def brackets : TokenType → List Bool → List TokenType → Option (List Bool)
  | _, nesting, [] => some nesting
  | last, nesting, type :: types =>
    (bracketStep last nesting type).bind fun nesting => brackets type nesting types

def Balanced (types : List TokenType) : Prop := brackets classSeparator [] types = some []

instance (types : List TokenType) : Decidable (Balanced types) :=
  inferInstanceAs (Decidable (_ = _))

def tokenTypes (ext : External) (fuel : ℕ) (expression : List Char) (rules : Rules) :
    List TokenType :=
  (parseSteps ext fuel (initialContext expression rules) 0).map fun step => step.2.type

def innermost (ops : List Token) : List Token := ops.dropWhile fun op => !isGroupOpen op

def Enclosed (step : Context × Token) : Prop :=
  (step.2.type = groupClose → innermost step.1.ops ≠ []) ∧
    (step.2.type = comma → (innermost step.1.ops)[1]?.any (·.type.isFunction) = true)

def onFunction (ops : List Token) : Bool := ops.head?.any (·.type.isFunction)

@[simp] theorem onFunction_cons (op : Token) (ops : List Token) :
    onFunction (op :: ops) = op.type.isFunction := rfl

def nestingOf : List Token → List Bool
  | [] => []
  | op :: ops => if isGroupOpen op then onFunction ops :: nestingOf ops else nestingOf ops

theorem nestingOf_cons_of_not (h : isGroupOpen op = false) (ops : List Token) :
    nestingOf (op :: ops) = nestingOf ops := by
  simp [nestingOf, h]

theorem nestingOf_cons_of_open (h : isGroupOpen op = true) (ops : List Token) :
    nestingOf (op :: ops) = onFunction ops :: nestingOf ops := by
  simp [nestingOf, h]

theorem isGroupOpen_of_isFunction (h : op.type.isFunction = true) : isGroupOpen op = false := by
  unfold isGroupOpen
  revert h
  cases op.type <;> decide

theorem nestingOf_dropWhile (hstop : ∀ op, isGroupOpen op → stop op) (ops : List Token) :
    nestingOf (ops.dropWhile fun op => !stop op) = nestingOf ops := by
  induction ops with
  | nil => rfl
  | cons op ops ih =>
    by_cases h : stop op
    · simp [h]
    · have hopen : isGroupOpen op = false := Bool.eq_false_iff.mpr fun hopen => h (hstop op hopen)
      rw [nestingOf_cons_of_not hopen]
      simpa [h] using ih

theorem innermost_cons_isGroupOpen (h : innermost ops = op :: rest) : isGroupOpen op = true := by
  have hhead := List.head_dropWhile_not (fun op => !isGroupOpen op) (l := ops)
    (by unfold innermost at h; simp [h])
  unfold innermost at h
  simpa [h] using hhead

theorem nestingOf_innermost (ops : List Token) : nestingOf (innermost ops) = nestingOf ops :=
  nestingOf_dropWhile (fun _ h => h) ops

theorem nestingOf_of_innermost (h : innermost ops = op :: rest) :
    nestingOf ops = onFunction rest :: nestingOf rest := by
  rw [← nestingOf_innermost, h, nestingOf_cons_of_open (innermost_cons_isGroupOpen h)]

theorem nestingOf_of_innermost_nil (h : innermost ops = []) : nestingOf ops = [] := by
  rw [← nestingOf_innermost, h]
  rfl

theorem evalAppendOperator_eq_ok (h : evalAppendOperator ext ctx token = .ok ctx') :
    ctx'.ops = ctx.ops ∧ ctx'.lastTokenType = ctx.lastTokenType := by
  unfold evalAppendOperator at h
  dsimp only at h
  split at h
  · obtain ⟨-, -, rfl⟩ := map_eq_ok h
    exact ⟨rfl, rfl⟩
  · cases h
    exact ⟨rfl, rfl⟩

theorem popOps_ops (h : popOps ext stop ops ctx = .ok ctx') :
    ctx'.ops = (ops.dropWhile fun op => !stop op) ∧ ctx'.lastTokenType = ctx.lastTokenType := by
  induction ops generalizing ctx with
  | nil =>
    cases h
    exact ⟨rfl, rfl⟩
  | cons op ops ih =>
    unfold popOps at h
    split at h
    · next hstop =>
      cases h
      simp [hstop]
    · next hstop =>
      obtain ⟨mid, hmid, hrest⟩ := bind_eq_ok h
      obtain ⟨hops, hlast⟩ := ih hrest
      refine ⟨?_, hlast.trans (evalAppendOperator_eq_ok hmid).2⟩
      simp [hops, hstop]

theorem commaStep_ops (h : commaStep ext ctx pos = .ok ctx') : ctx'.ops = innermost ctx.ops := by
  unfold commaStep at h
  dsimp only at h
  split at h
  · cases h
  · split at h
    · split at h
      · cases h
      · exact (popOps_ops h).1
    · split at h
      · cases h
      · exact (popOps_ops h).1

theorem closeFunction_nesting (h : closeFunction ext ctx pos = .ok ctx') :
    nestingOf ctx'.ops = nestingOf ctx.ops := by
  unfold closeFunction at h
  split at h
  · cases h
    rfl
  · next op ops hops =>
    split at h
    · next hfunc =>
      obtain ⟨mid, -, rfl⟩ := map_eq_ok h
      rw [hops, nestingOf_cons_of_not (isGroupOpen_of_isFunction hfunc)]
    · split at h
      · cases h
      · cases h
        rfl

theorem closeStep_nesting (h : closeStep ext ctx pos = .ok ctx') :
    nestingOf ctx'.ops = (nestingOf ctx.ops).tail := by
  unfold closeStep at h
  dsimp only at h
  split at h
  · cases h
  · split at h
    · cases h
    · obtain ⟨mid, hmid, hclose⟩ := bind_eq_ok h
      have hops : mid.ops = innermost ctx.ops := (popOps_ops hmid).1
      have hfunc := closeFunction_nesting hclose
      rw [hfunc]
      show nestingOf mid.ops.tail = _
      rw [hops]
      cases hinner : innermost ctx.ops with
      | nil => simp [nestingOf_of_innermost_nil hinner, nestingOf]
      | cons op rest => simp [nestingOf_of_innermost hinner]

theorem operatorStep_ops (h : operatorStep ext ctx pos token = .ok ctx') :
    ctx'.ops.head? = some token ∧ (isGroupOpen token = false →
      nestingOf ctx'.ops = nestingOf ctx.ops) := by
  unfold operatorStep at h
  dsimp only at h
  split at h
  · cases h
  · split at h
    · cases h
    · obtain ⟨mid, hmid, rfl⟩ := map_eq_ok h
      refine ⟨rfl, fun hopen => ?_⟩
      rw [nestingOf_cons_of_not hopen, (popOps_ops hmid).1]
      exact nestingOf_dropWhile (fun op hop => by simp [hop]) ctx.ops

/-- What holds between two rounds of the loop while every token has been enclosed. -/
structure Tracks (ctx : Context) (nesting : List Bool) : Prop where
  nesting : nesting = nestingOf ctx.ops
  func : ctx.lastTokenType.isFunction = true → onFunction ctx.ops = true
  noFunc : ctx.lastTokenType.beforeOperand = true → onFunction ctx.ops = false

theorem setHistFunction_nesting {ops' : List Token} (h : setHistFunction ops = some ops') :
    nestingOf ops' = nestingOf ops ∧ onFunction ops' = onFunction ops := by
  unfold setHistFunction at h
  split at h
  · next top func rest =>
    split at h
    · next hfunc =>
      cases h
      have hopen := isGroupOpen_of_isFunction hfunc
      have hopen' : isGroupOpen { func with type := histFunction } = false := rfl
      refine ⟨?_, rfl⟩
      by_cases htop : isGroupOpen top
      · rw [nestingOf_cons_of_open htop, nestingOf_cons_of_open htop,
          nestingOf_cons_of_not hopen, nestingOf_cons_of_not hopen']
        rw [onFunction_cons, onFunction_cons, hfunc]
        rfl
      · have htop := Bool.eq_false_iff.mpr htop
        rw [nestingOf_cons_of_not htop, nestingOf_cons_of_not htop,
          nestingOf_cons_of_not hopen, nestingOf_cons_of_not hopen']
    · cases h
  · cases h

theorem Tracks.read (h : Tracks ctx nesting) (hread : Read ctx pos ctx' token) :
    Tracks ctx' nesting := by
  have hops : nestingOf ctx'.ops = nestingOf ctx.ops ∧ onFunction ctx'.ops = onFunction ctx.ops := by
    rcases hread.ops with heq | ⟨-, hhist⟩
    · simp [heq]
    · exact setHistFunction_nesting hhist
  refine ⟨h.nesting.trans hops.1.symm, ?_, ?_⟩
  · rw [hread.last, hops.2]
    exact h.func
  · rw [hread.last, hops.2]
    exact h.noFunc

theorem enclosed_iff (h : Tracks ctx nesting) :
    Enclosed (ctx, token) ↔ (bracketStep ctx.lastTokenType nesting token.type).isSome := by
  have hcases : (innermost ctx.ops = [] ∧ nesting = []) ∨
      ∃ op rest, innermost ctx.ops = op :: rest ∧ nesting = onFunction rest :: nestingOf rest := by
    cases hinner : innermost ctx.ops with
    | nil => exact .inl ⟨rfl, h.nesting.trans (nestingOf_of_innermost_nil hinner)⟩
    | cons op rest => exact .inr ⟨op, rest, rfl, h.nesting.trans (nestingOf_of_innermost hinner)⟩
  unfold Enclosed bracketStep
  rcases hcases with ⟨hinner, rfl⟩ | ⟨op, rest, hinner, rfl⟩
  · cases token.type <;> simp [hinner]
  · cases htype : token.type <;> simp [hinner]
    cases rest <;> simp [onFunction]

theorem onFunction_innermost (ops : List Token) : onFunction (innermost ops) = false := by
  cases h : innermost ops with
  | nil => rfl
  | cons op rest =>
    have hopen := innermost_cons_isGroupOpen h
    rw [onFunction_cons]
    unfold isGroupOpen at hopen
    simp only [decide_eq_true_eq] at hopen
    rw [hopen]
    rfl

theorem Dispatched.tracks {done : Context} (h : Tracks ctx nesting)
    (hbracket : bracketStep ctx.lastTokenType nesting token.type = some nesting')
    (hdone : Dispatched ext ctx pos token done) :
    Tracks { done with lastTokenType := token.type } nesting' := by
  unfold bracketStep at hbracket
  cases hdone with
  | opens htype hlast =>
    simp only [htype, if_true] at hbracket
    cases hbracket
    have hopen : isGroupOpen token = true := by simp [isGroupOpen, htype]
    refine ⟨?_, by simp [htype, isFunction], by simp [htype, isFunction]⟩
    rw [nestingOf_cons_of_open hopen, h.nesting]
    congr 1
    cases hfunc : ctx.lastTokenType.isFunction with
    | true => exact (h.func hfunc).symm
    | false => exact (h.noFunc (by simpa [hfunc] using hlast)).symm
  | func hfunc _ =>
    have hkind : nesting' = nesting ∧ token.type.beforeOperand = false := by
      revert hbracket hfunc
      cases token.type <;> simp [isFunction, beforeOperand, isOperator, isSeparator,
        isOperator1, isOperator2, eq_comm]
    refine ⟨?_, fun _ => hfunc, by simp [hkind.2]⟩
    rw [nestingOf_cons_of_not (isGroupOpen_of_isFunction hfunc), hkind.1, h.nesting]
  | comma htype hcomma =>
    have hops := commaStep_ops hcomma
    simp only [htype, reduceCtorEq, if_false, if_true] at hbracket
    split at hbracket
    · cases hbracket
      refine ⟨?_, by simp [htype, isFunction], fun _ => ?_⟩
      · show nesting = nestingOf done.ops
        rw [hops, nestingOf_innermost, h.nesting]
      · show onFunction done.ops = false
        rw [hops, onFunction_innermost]
    · cases hbracket
  | close htype hclose =>
    have hops := closeStep_nesting hclose
    have hnesting' : nesting' = nesting.tail := by
      cases nesting with
      | nil => simp [htype] at hbracket
      | cons b rest => simpa [htype, eq_comm] using hbracket
    refine ⟨?_, by simp [htype, isFunction], by simp [htype, beforeOperand, isOperator,
      isOperator1, isOperator2, isSeparator]⟩
    show nesting' = nestingOf done.ops
    rw [hops, hnesting', h.nesting]
  | operand hclose hoperand _ =>
    have hkind : nesting' = nesting ∧ token.type.isFunction = false ∧
        token.type.beforeOperand = false := by
      revert hbracket hclose hoperand
      cases token.type <;> simp [isFunction, beforeOperand, isOperator, isSeparator,
        isOperator1, isOperator2, isOperand, isProperty, eq_comm]
    exact ⟨hkind.1.trans h.nesting, by simp [hkind.2.1], by simp [hkind.2.2]⟩
  | operator hoperator hdone =>
    obtain ⟨hhead, hops⟩ := operatorStep_ops hdone
    have hkind : nesting' = nesting ∧ token.type.isFunction = false ∧ isGroupOpen token = false := by
      unfold isGroupOpen
      revert hbracket hoperator
      cases token.type <;> simp [isFunction, isOperator, isOperator1, isOperator2, eq_comm]
    refine ⟨?_, by simp [hkind.2.1], fun _ => ?_⟩
    · show nesting' = nestingOf done.ops
      rw [hops hkind.2.2, hkind.1, h.nesting]
    · show onFunction done.ops = false
      simp [onFunction, hhead, hkind.2.1]

theorem parseStep_tracks {next : Context} (h : Tracks ctx nesting)
    (hstarted : token.type ≠ classSeparator)
    (hbracket : bracketStep ctx.lastTokenType nesting token.type = some nesting')
    (hnext : parseStep ext ctx pos token = .ok next) :
    next.lastTokenType = token.type ∧ Tracks next nesting' := by
  obtain ⟨done, hdone, rfl⟩ := parseStep_cases hstarted hnext
  refine ⟨rfl, ?_⟩
  split at hdone
  · have hstart : Tracks (evalAppendArgNull ctx) nesting := ⟨h.nesting, h.func, h.noFunc⟩
    exact hdone.tracks hstart hbracket
  · exact hdone.tracks h hbracket

theorem Parses.brackets_iff {last : Context} {steps : List (Context × Token)}
    (h : Parses ext ctx pos steps last) (htracks : Tracks ctx nesting)
    (hlast : nestingOf last.ops = []) :
    brackets ctx.lastTokenType nesting (steps.map fun step => step.2.type) = some [] ↔
      ∀ step ∈ steps, Enclosed step := by
  induction h generalizing nesting with
  | finish _ => simp [brackets, htracks.nesting, hlast]
  | @step ctx read next last pos token steps hread hnext _ ih =>
    have htracks := htracks.read hread
    have henclosed : Enclosed (read, token) ↔ _ := enclosed_iff htracks
    rw [hread.last] at henclosed
    simp only [List.map_cons, brackets, List.forall_mem_cons, henclosed]
    cases hbracket : bracketStep ctx.lastTokenType nesting token.type with
    | none => simp
    | some nesting' =>
      rw [← hread.last] at hbracket
      obtain ⟨htype, hnextTracks⟩ := parseStep_tracks htracks hread.started hbracket hnext
      have hrest := ih hnextTracks hlast
      rw [htype] at hrest
      simpa using hrest

theorem parseEnd_ops {stack : List Token} (h : parseEnd ext ctx = .ok stack) :
    nestingOf ctx.ops = [] := by
  unfold parseEnd at h
  split at h
  · cases h
  · split at h
    · cases h
    · obtain ⟨mid, hmid, hend⟩ := bind_eq_ok h
      have hops : mid.ops = innermost ctx.ops := (popOps_ops hmid).1
      split at hend
      · cases hend
      · next hempty =>
        apply nestingOf_of_innermost_nil
        rw [← hops]
        simpa using hempty

def plainText : External where
  tokenParseMacro _ _ := none
  tokenParseUserMacro _ _ := none
  tokenParseLldMacro _ _ := none
  tokenParseNestedMacro _ _ := none
  strtodHuge _ _ := false
  below _ _ := ⟨argNull, 0, ⟨0, 0⟩⟩

end Zabbix.Eval
