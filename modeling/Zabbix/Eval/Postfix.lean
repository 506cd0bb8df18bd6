import Zabbix.Eval.Brackets
import Zabbix.Foundation.Postfix

/-!
# The evaluation stack as a postfix program

`ops` determines how many values the stack must hold when an operand is complete. A comma
outside every function call leaves one value too many behind, an empty group at the bottom
of `ops` one too few; `excess` counts the former minus the latter.
-/

namespace Zabbix.Eval

open List TokenType Zabbix.Postfix

variable {t : TokenType} {x d e : ℤ} {op token : Token} {ops stack ops' : List Token}
  {ext : External} {ctx ctx' done last : Context} {steps : List (Context × Token)}

/-- The number of values a token takes from the evaluation stack; negative for tokens that
cannot be executed. -/
def tokenArity (token : Token) : ℤ :=
  if token.type.isOperator1 then 1
  else if token.type.isOperator2 then 2
  else if token.type.isFunction then token.opt
  else if token.type.isOperand then 0
  else -1

def stopAt (token op : Token) : Bool :=
  token.type.priority < op.type.priority || token.type.isOperator1 || isGroupOpen op

def remaining (step : Context × Token) : List Token :=
  if step.2.type = comma ∨ step.2.type = groupClose then innermost step.1.ops
  else if step.2.type.isOperator then step.1.ops.dropWhile fun op => !stopAt step.2 op
  else step.1.ops

/-- The branch moves all of `ops`, the operator at its bottom included, to the stack. -/
def movesBottom (step : Context × Token) : Bool :=
  step.1.ops ≠ [] && (remaining step).isEmpty

def escapedComma (step : Context × Token) : Bool :=
  step.2.type = comma && !step.1.ops.any (·.type.isFunction)

def emptyGroup (step : Context × Token) : Bool :=
  step.2.type = groupClose && step.1.lastTokenType = groupOpen && step.1.ops.length = 1

def excessChange (step : Context × Token) : ℤ :=
  (if escapedComma step then 1 else 0) - (if emptyGroup step then 1 else 0)

/-- From an excess of `x` on the excess ends at zero, and no operator at the bottom of `ops`
is moved to the stack while the excess is negative. -/
def KeepsExcess : ℤ → List (Context × Token) → Prop
  | x, [] => x = 0
  | x, step :: steps => (movesBottom step → 0 ≤ x) ∧ KeepsExcess (x + excessChange step) steps

inductive Ready (stack : List Token) (x : ℤ) : List Token → ℤ → Prop
  | bottom : Ready stack x [] (1 + x)
  | unary {op : Token} {ops : List Token} {d : ℤ} : op.type.isOperator1 = true →
      Ready stack x ops d → Ready stack x (op :: ops) d
  | binary {op : Token} {ops : List Token} {d : ℤ} : op.type.isOperator2 = true →
      Ready stack x ops d → Ready stack x (op :: ops) (d + 1)
  | group {op : Token} {ops : List Token} {d : ℤ} : op.type = groupOpen →
      Ready stack x ops d → Ready stack x (op :: ops) d
  | call {op func : Token} {ops : List Token} {b d : ℤ} {k : ℕ} : op.type = groupOpen →
      func.type.isFunction = true → func.opt = k → k ≤ stack.length →
      depth tokenArity 0 (stack.take k) = some b → Ready stack x ops (b + 1) → b + 1 ≤ d →
      Ready stack x (op :: func :: ops) d

/-- An excess that the operators on `ops` can bear: it is negative only above a binary one. -/
def Covered (x : ℤ) (ops : List Token) : Prop :=
  0 ≤ x ∨ x = -1 ∧ ops.getLast?.any (·.type.isOperator2) = true

theorem isOperator2_of_isOperator1 (h : t.isOperator1 = true) : t.isOperator2 = false := by
  cases t <;> first | rfl | cases h

theorem isOperator2_of_isFunction (h : t.isFunction = true) : t.isOperator2 = false := by
  cases t <;> first | rfl | cases h

theorem Covered.tail (h : Covered x (op :: ops)) (hne : ops ≠ []) : Covered x ops := by
  rcases h with h | ⟨hx, hlast⟩
  · exact .inl h
  · refine .inr ⟨hx, ?_⟩
    cases ops with
    | nil => exact absurd rfl hne
    | cons op' ops => simpa [getLast?_cons_cons] using hlast

theorem Covered.cons (h : Covered x ops) (op : Token) : Covered x (op :: ops) := by
  rcases h with h | ⟨hx, hlast⟩
  · exact .inl h
  · refine .inr ⟨hx, ?_⟩
    cases ops with
    | nil => simp at hlast
    | cons op' ops => simpa [getLast?_cons_cons] using hlast

theorem Covered.nonneg (h : Covered x [op]) (hop : op.type.isOperator2 = false) : 0 ≤ x := by
  rcases h with h | ⟨-, hlast⟩
  · exact h
  · simp [hop] at hlast

variable (h : Ready stack x ops d)

include h

theorem Ready.append (tokens : List Token) : Ready (stack ++ tokens) x ops d := by
  induction h with
  | bottom => exact .bottom
  | unary hop _ ih => exact .unary hop ih
  | binary hop _ ih => exact .binary hop ih
  | group hop _ ih => exact .group hop ih
  | call hop hfunc hopt hk hdepth _ hle ih =>
    refine .call hop hfunc hopt (hk.trans (by simp)) ?_ ih hle
    rwa [take_append_of_le_length hk]

theorem Ready.shift (hcall : ops.any (·.type.isFunction) = false) (c : ℤ) :
    Ready stack (x + c) ops (d + c) := by
  induction h with
  | bottom =>
    rw [Int.add_assoc]
    exact .bottom
  | unary hop _ ih => exact .unary hop (ih (by simp_all))
  | @binary op ops d hop _ ih =>
    rw [Int.add_right_comm]
    exact .binary hop (ih (by simp_all))
  | group hop _ ih => exact .group hop (ih (by simp_all))
  | call _ hfunc => simp [hfunc] at hcall

theorem Ready.grow (hcall : ops.any (·.type.isFunction) = true) (hle : d ≤ e)
    : Ready stack x ops e := by
  induction h generalizing e with
  | bottom => simp at hcall
  | @unary op ops d hop _ ih =>
    have hfunc : op.type.isFunction = false := by
      revert hop
      cases op.type <;> decide
    exact .unary hop (ih (by simpa [hfunc] using hcall) hle)
  | @binary op ops d hop _ ih =>
    have hfunc : op.type.isFunction = false := by
      revert hop
      cases op.type <;> decide
    rw [show e = e - 1 + 1 by omega]
    exact .binary hop (ih (by simpa [hfunc] using hcall) (by omega))
  | @group op ops d hop _ ih => exact .group hop (ih (by simpa [hop, isFunction] using hcall) hle)
  | call hop hfunc hopt hk hdepth hrest hle' => exact .call hop hfunc hopt hk hdepth hrest (by omega)

theorem Ready.head : onFunction ops = false := by
  cases h with
  | bottom => rfl
  | @unary op ops d hop | @binary op ops d hop =>
    show op.type.isFunction = false
    revert hop
    cases op.type <;> decide
  | @group op ops d hop | @call op func ops b d k hop =>
    show op.type.isFunction = false
    rw [hop]
    rfl

theorem Ready.pos (hcovered : Covered x ops) : 1 ≤ d := by
  induction h with
  | bottom =>
    rcases hcovered with hx | ⟨-, hlast⟩
    · omega
    · simp at hlast
  | @unary op ops d hop hrest ih =>
    by_cases hops : ops = []
    · subst hops
      have hx := hcovered.nonneg (isOperator2_of_isOperator1 hop)
      exact ih (.inl hx)
    · exact ih (hcovered.tail hops)
  | @binary op ops d hop hrest ih =>
    by_cases hops : ops = []
    · subst hops
      cases hrest
      rcases hcovered with hx | ⟨hx, -⟩ <;> omega
    · have := ih (hcovered.tail hops)
      omega
  | @group op ops d hop hrest ih =>
    by_cases hops : ops = []
    · subst hops
      have hx := hcovered.nonneg (by rw [hop]; rfl)
      exact ih (.inl hx)
    · exact ih (hcovered.tail hops)
  | call hop hfunc hopt hk hdepth hrest hle =>
    have := depth_nonneg hdepth (Int.le_refl 0)
    omega

theorem Ready.any_innermost :
    (innermost ops).any (·.type.isFunction) = ops.any (·.type.isFunction) := by
  have hoperator {op : Token} {ops : List Token}
      (hop : op.type.isOperator1 = true ∨ op.type.isOperator2 = true)
      (ih : (innermost ops).any (·.type.isFunction) = ops.any (·.type.isFunction)) :
      (innermost (op :: ops)).any (·.type.isFunction) = (op :: ops).any (·.type.isFunction) := by
    have hkind : isGroupOpen op = false ∧ op.type.isFunction = false := by
      unfold isGroupOpen
      revert hop
      cases op.type <;> decide
    simpa [innermost, hkind.1, hkind.2] using ih
  induction h with
  | bottom => rfl
  | unary hop _ ih => exact hoperator (.inl hop) ih
  | binary hop _ ih => exact hoperator (.inr hop) ih
  | group hop | call hop => simp [innermost, isGroupOpen, hop]

omit h

theorem tokenArity_operator1 (h : token.type.isOperator1 = true) : tokenArity token = 1 := if_pos h

theorem tokenArity_operator2 (h : token.type.isOperator2 = true) : tokenArity token = 2 := by
  unfold tokenArity
  rw [if_neg, if_pos h]
  revert h
  cases token.type <;> decide

theorem tokenArity_function (h : token.type.isFunction = true) : tokenArity token = token.opt := by
  unfold tokenArity
  rw [if_neg, if_neg, if_pos h] <;> revert h <;> cases token.type <;> decide

theorem tokenArity_operand (h : token.type.isOperand = true) : tokenArity token = 0 := by
  unfold tokenArity
  rw [if_neg, if_neg, if_neg, if_pos h] <;> revert h <;> cases token.type <;> decide

theorem countParams_change (h : 0 ≤ tokenArity token) (params : ℤ) :
    (if token.type.isFunction then params - (token.opt - 1)
      else if token.type.isOperand then params + 1
      else if token.type.isOperator2 then params - 1
      else params) = params + (1 - tokenArity token) := by
  unfold tokenArity at h ⊢
  revert h
  cases token.type <;> simp [isFunction, isOperand, isOperator1, isOperator2] <;> omega

theorem countParams_eq_gain {tokens : List Token} (h : ∀ token ∈ tokens, 0 ≤ tokenArity token) :
    countParams tokens = gain tokenArity tokens := by
  have hfold (params : ℤ) : tokens.foldl (fun params token =>
      if token.type.isFunction then params - (token.opt - 1)
      else if token.type.isOperand then params + 1
      else if token.type.isOperator2 then params - 1
      else params) params = params + gain tokenArity tokens := by
    induction tokens generalizing params with
    | nil => simp [gain]
    | cons token tokens ih =>
      have htoken := countParams_change (h token (by simp)) params
      rw [foldl_cons, htoken, ih fun t ht => h t (by simp [ht])]
      simp only [gain, map_cons, sum_cons]
      omega
  simpa [countParams] using hfold 0

theorem arity_nonneg_of_depth (h : depth tokenArity d stack = some e) :
    ∀ token ∈ stack, 0 ≤ tokenArity token := by
  induction stack generalizing d with
  | nil => simp
  | cons token stack ih =>
    obtain ⟨c, hc, hrest⟩ := Option.bind_eq_some_iff.mp h
    simp only [forall_mem_cons]
    exact ⟨(push_eq_some hc).2.1, ih hrest⟩

theorem evalAppendOperator_of_not_function (hrules : ctx.rules.property = false)
    (hfunc : token.type.isFunction = false) :
    evalAppendOperator ext ctx token = .ok { ctx with stack := ctx.stack ++ [token] } := by
  simp [evalAppendOperator, hrules, hfunc]

/-- Moving operators keeps `ops` ready, or takes a value that is not there with an operator
at the bottom of `ops`. -/
def Moved (x : ℤ) (ops : List Token) (ctx' : Context) : Prop :=
  if x < 0 ∧ ops ≠ [] ∧ ctx'.ops = [] then depth tokenArity 0 ctx'.stack = none
  else ∃ d, depth tokenArity 0 ctx'.stack = some d ∧ Ready ctx'.stack x ctx'.ops d ∧
    (ops ≠ [] → ctx'.ops ≠ [] → Covered x ctx'.ops)

theorem Moved.cons (h : Moved x ops ctx') (hbottom : ops = [] → 0 ≤ x) (op : Token) :
    Moved x (op :: ops) ctx' := by
  unfold Moved at h ⊢
  by_cases hops : ops = []
  · have hx := hbottom hops
    rw [if_neg (by omega)] at h ⊢
    obtain ⟨d, hdepth, hready, -⟩ := h
    exact ⟨d, hdepth, hready, fun _ _ => .inl hx⟩
  · simpa [hops] using h

theorem popOps_moved {stop : Token → Bool} (hstop : ∀ op, isGroupOpen op → stop op)
    (hrules : ctx.rules.property = false) (hdepth : depth tokenArity 0 ctx.stack = some d)
    (hready : Ready ctx.stack x ops d) (hcovered : ops ≠ [] → Covered x ops)
    (h : popOps ext stop ops ctx = .ok ctx') : Moved x ops ctx' := by
  induction ops generalizing ctx d with
  | nil =>
    cases h
    simpa [Moved] using ⟨d, hdepth, hready⟩
  | cons op ops ih =>
    have hcovered := hcovered (by simp)
    unfold popOps at h
    split at h
    · cases h
      simpa [Moved] using ⟨d, hdepth, hready, hcovered⟩
    · next hnot =>
      have hopen : op.type ≠ groupOpen := fun heq => hnot (hstop op (by simp [isGroupOpen, heq]))
      obtain ⟨mid, hmid, hrest⟩ := bind_eq_ok h
      rw [evalAppendOperator_of_not_function hrules hready.head] at hmid
      cases hmid
      cases hready with
      | group hgroup | call hgroup => exact absurd hgroup hopen
      | unary hop hready =>
        have hpos := (Ready.unary hop hready).pos hcovered
        have harity := tokenArity_operator1 hop
        have hdepth' := depth_append_one_of_some (a := op) hdepth (by omega) (by omega)
        rw [harity, Int.sub_add_cancel] at hdepth'
        have hmoved := ih (by exact hrules) (by exact hdepth') (by exact hready.append [op])
          hcovered.tail hrest
        exact hmoved.cons (fun hnil => by
          subst hnil
          exact hcovered.nonneg (isOperator2_of_isOperator1 hop)) op
      | @binary _ _ d hop hready =>
        have harity := tokenArity_operator2 hop
        by_cases hpos : 1 ≤ d
        · have hdepth' := depth_append_one_of_some (a := op) hdepth (by omega) (by omega)
          rw [harity, show d + 1 - 2 + 1 = d by omega] at hdepth'
          have hmoved := ih (by exact hrules) (by exact hdepth') (by exact hready.append [op])
            hcovered.tail hrest
          exact hmoved.cons (fun hnil => by
            subst hnil
            cases hready
            omega) op
        · -- the left operand is missing, so this is the operator at the bottom
          have hnil : ops = [] := by
            by_contra hne
            exact hpos (hready.pos (hcovered.tail hne))
          subst hnil
          cases hready
          cases hrest
          have hnone := depth_append_one_of_lt (a := op) hdepth (by omega)
          unfold Moved
          rw [if_pos ⟨by omega, by simp, rfl⟩]
          exact hnone

theorem evalAppendOperator_of_function {func : Token} {b : ℤ} {k : ℕ}
    (hrules : ctx.rules.property = false) (hfunc : func.type.isFunction = true)
    (hopt : func.opt = k) (hdepth : depth tokenArity 0 ctx.stack = some d)
    (hbefore : depth tokenArity 0 (ctx.stack.take k) = some b) (hle : b ≤ d)
    (h : evalAppendOperator ext ctx func = .ok ctx') :
    ∃ token, ctx' = { ctx with stack := ctx.stack ++ [token] } ∧
      depth tokenArity 0 (ctx.stack ++ [token]) = some (b + 1) := by
  have hsplit := take_append_drop k ctx.stack
  have harity := arity_nonneg_of_depth hdepth
  have hparams : countParams (ctx.stack.drop k) = d - b := by
    rw [countParams_eq_gain fun t ht => harity t (mem_of_mem_drop ht)]
    exact gain_of_depth_append hbefore (hsplit.symm ▸ hdepth)
  unfold evalAppendOperator at h
  simp only [hfunc, if_true, hopt, Int.toNat_natCast, hparams, hrules, Bool.false_eq_true,
    if_false, Except.ok.injEq] at h
  refine ⟨_, h.symm, ?_⟩
  have htoken : tokenArity { func with opt := d - b } = d - b := tokenArity_function hfunc
  have hb := depth_nonneg hbefore (Int.le_refl 0)
  rw [depth_append_one_of_some hdepth (by omega) (by omega), htoken]
  congr 1
  omega

inductive Awaits (ctx : Context) (x d : ℤ) : Prop
  | operator : ctx.lastTokenType.isOperand = true → Ready ctx.stack x ctx.ops d → Awaits ctx x d
  | operand : ctx.lastTokenType.beforeOperand = true → Ready ctx.stack x ctx.ops (d + 1) →
      Awaits ctx x d
  | opens {func : Token} {ops : List Token} : ctx.lastTokenType.isFunction = true →
      ctx.ops = func :: ops → func.type.isFunction = true → func.opt = ctx.stack.length →
      Ready ctx.stack x ops (d + 1) → Awaits ctx x d

structure Good (ctx : Context) (x : ℤ) : Prop where
  rules : ctx.rules.property = false
  awaits : ∃ d, depth tokenArity 0 ctx.stack = some d ∧ Awaits ctx x d
  covered : Covered x ctx.ops ∨ x = -1 ∧ ctx.ops = [] ∧ ctx.lastTokenType = groupClose
  start : ctx.lastTokenType = classSeparator → ctx.ops = [] ∧ ctx.stack = []
  group : ctx.lastTokenType = groupOpen → ctx.ops.head?.any isGroupOpen = true
  operator : ctx.lastTokenType.isOperator = true → ctx.ops.head?.any isGroupOpen = false

theorem Good.covered_of_ne (h : Good ctx x) (hlast : ctx.lastTokenType ≠ groupClose) :
    Covered x ctx.ops := by
  rcases h.covered with hcovered | ⟨-, -, hclose⟩
  · exact hcovered
  · exact absurd hclose hlast

theorem Good.covered_of_cons (h : Good ctx x) (hops : ctx.ops ≠ []) : Covered x ctx.ops := by
  rcases h.covered with hcovered | ⟨-, hnil, -⟩
  · exact hcovered
  · exact absurd hnil hops

/-- The context after a round: good, or an operator at the bottom of `ops` missed a value. -/
def Advances (step : Context × Token) (x : ℤ) (done : Context) : Prop :=
  if movesBottom step = true ∧ x < 0 then depth tokenArity 0 done.stack = none
  else Good { done with lastTokenType := step.2.type } (x + excessChange step)

theorem ne_groupClose_of_beforeOperand (h : t.beforeOperand = true) : t ≠ groupClose := by
  rintro rfl
  cases h

theorem Good.operandDepth (h : Good ctx x) (hlast : ctx.lastTokenType.beforeOperand = true) :
    ∃ d, depth tokenArity 0 ctx.stack = some d ∧ Ready ctx.stack x ctx.ops (d + 1) := by
  obtain ⟨d, hdepth, hawaits⟩ := h.awaits
  refine ⟨d, hdepth, ?_⟩
  cases hawaits with
  | operand _ hready => exact hready
  | operator hoperand _ =>
    exfalso
    revert hlast hoperand
    cases ctx.lastTokenType <;> decide
  | opens hfunc _ _ _ _ =>
    exfalso
    revert hlast hfunc
    cases ctx.lastTokenType <;> decide

theorem Good.operatorDepth (h : Good ctx x) (hlast : ctx.lastTokenType.isOperand = true) :
    ∃ d, depth tokenArity 0 ctx.stack = some d ∧ Ready ctx.stack x ctx.ops d := by
  obtain ⟨d, hdepth, hawaits⟩ := h.awaits
  refine ⟨d, hdepth, ?_⟩
  cases hawaits with
  | operator _ hready => exact hready
  | operand hbefore _ =>
    exfalso
    revert hlast hbefore
    cases ctx.lastTokenType <;> decide
  | opens hfunc _ _ _ _ =>
    exfalso
    revert hlast hfunc
    cases ctx.lastTokenType <;> decide

theorem still (ctx : Context) (hcomma : token.type ≠ comma) (hclose : token.type ≠ groupClose)
    (hoperator : token.type.isOperator = false) :
    movesBottom (ctx, token) = false ∧ excessChange (ctx, token) = 0 := by
  constructor
  · simp only [movesBottom, remaining, hcomma, hclose, hoperator]
    cases ctx.ops <;> simp
  · simp [excessChange, escapedComma, emptyGroup, hcomma, hclose]

theorem opens_advances (h : Good ctx x) (htype : token.type = groupOpen)
    (hlast : ctx.lastTokenType.beforeOperand = true ∨ ctx.lastTokenType.isFunction = true) :
    Advances (ctx, token) x { ctx with ops := token :: ctx.ops } := by
  obtain ⟨hmoves, hchange⟩ := still ctx (by simp [htype] : token.type ≠ comma)
    (by simp [htype])
    (by rw [htype]; rfl)
  have hnotClose : ctx.lastTokenType ≠ groupClose := by
    rintro heq
    rw [heq] at hlast
    rcases hlast with h | h <;> cases h
  unfold Advances
  rw [if_neg (by simp [hmoves]), hchange, Int.add_zero]
  refine ⟨h.rules, ?_, .inl ((h.covered_of_ne hnotClose).cons token), by simp [htype],
    by simp [htype, isGroupOpen], by simp [htype, isOperator, isOperator1, isOperator2]⟩
  obtain ⟨d, hdepth, hawaits⟩ := h.awaits
  refine ⟨d, hdepth, .operand (by simp [htype, beforeOperand, isSeparator]) ?_⟩
  cases hawaits with
  | operator hoperand _ =>
    exfalso
    revert hlast hoperand
    cases ctx.lastTokenType <;> decide
  | operand _ hready => exact .group htype hready
  | opens _ hops hfunc hopt hready =>
    show Ready ctx.stack x (token :: ctx.ops) (d + 1)
    rw [hops]
    exact .call htype hfunc hopt (Nat.le_refl _) (by simpa using hdepth) hready (Int.le_refl _)

theorem func_advances (h : Good ctx x) (hfunc : token.type.isFunction = true)
    (hopt : token.opt = ctx.stack.length) (hlast : ctx.lastTokenType.beforeOperand = true) :
    Advances (ctx, token) x { ctx with ops := token :: ctx.ops } := by
  have hkind : token.type ≠ comma ∧ token.type ≠ groupClose ∧ token.type ≠ groupOpen ∧
      token.type ≠ classSeparator ∧ token.type.isOperator = false := by
    revert hfunc
    cases token.type <;> decide
  obtain ⟨hcomma, hclose, hopen, hstart, hoperator⟩ := hkind
  obtain ⟨hmoves, hchange⟩ := still ctx hcomma hclose hoperator
  have hcovered := h.covered_of_ne (ne_groupClose_of_beforeOperand hlast)
  obtain ⟨d, hdepth, hready⟩ := h.operandDepth hlast
  unfold Advances
  rw [if_neg (by simp [hmoves]), hchange, Int.add_zero]
  exact ⟨h.rules, ⟨d, hdepth, .opens hfunc rfl hfunc hopt hready⟩, .inl (hcovered.cons token),
    by simp [hstart], by simp [hopen], by simp [hoperator]⟩

theorem operand_advances (h : Good ctx x) (hclose : token.type ≠ groupClose)
    (hoperand : token.type.isOperand = true) (hlast : ctx.lastTokenType.beforeOperand = true) :
    Advances (ctx, token) x { ctx with stack := ctx.stack ++ [token] } := by
  have hkind : token.type ≠ comma ∧ token.type ≠ groupOpen ∧
      token.type ≠ classSeparator ∧ token.type.isOperator = false := by
    revert hoperand
    cases token.type <;> decide
  obtain ⟨hcomma, hopen, hstart, hoperator⟩ := hkind
  obtain ⟨hmoves, hchange⟩ := still ctx hcomma hclose hoperator
  have hcovered := h.covered_of_ne (ne_groupClose_of_beforeOperand hlast)
  obtain ⟨d, hdepth, hready⟩ := h.operandDepth hlast
  have harity := tokenArity_operand hoperand
  have hd := depth_nonneg hdepth (Int.le_refl 0)
  have hdepth' := depth_append_one_of_some (a := token) hdepth (by omega) (by omega)
  rw [harity, Int.sub_zero] at hdepth'
  unfold Advances
  rw [if_neg (by simp [hmoves]), hchange, Int.add_zero]
  exact ⟨h.rules, ⟨d + 1, hdepth', .operator hoperand (hready.append [token])⟩, .inl hcovered,
    by simp [hstart], by simp [hopen], by simp [hoperator]⟩

theorem Good.not_property (h : Good ctx x) : ctx.lastTokenType.isProperty = false := by
  obtain ⟨d, -, hawaits⟩ := h.awaits
  cases hawaits with
  | operator hlast _ | operand hlast _ | opens hlast _ _ _ _ =>
    revert hlast
    cases ctx.lastTokenType <;> decide

theorem Moved.advances {mid : Context} (hmoved : Moved x ctx.ops mid)
    (hops : mid.ops = remaining (ctx, token))
    (hnone : depth tokenArity 0 mid.stack = none → depth tokenArity 0 done.stack = none)
    (hgood : ∀ d, depth tokenArity 0 mid.stack = some d → Ready mid.stack x mid.ops d →
      (ctx.ops ≠ [] → mid.ops = [] → 0 ≤ x) →
      (ctx.ops ≠ [] → mid.ops ≠ [] → Covered x mid.ops) →
      Good { done with lastTokenType := token.type } (x + excessChange (ctx, token))) :
    Advances (ctx, token) x done := by
  have hbottom : movesBottom (ctx, token) = true ↔ ctx.ops ≠ [] ∧ mid.ops = [] := by
    simp [movesBottom, hops]
  unfold Moved at hmoved
  unfold Advances
  by_cases hmissed : x < 0 ∧ ctx.ops ≠ [] ∧ mid.ops = []
  · rw [if_pos hmissed] at hmoved
    rw [if_pos ⟨hbottom.mpr hmissed.2, hmissed.1⟩]
    exact hnone hmoved
  · rw [if_neg hmissed] at hmoved
    rw [if_neg fun hmoves => hmissed ⟨hmoves.2, hbottom.mp hmoves.1⟩]
    obtain ⟨d, hdepth, hready, hcovered⟩ := hmoved
    refine hgood d hdepth hready (fun hne hnil => ?_) hcovered
    by_contra hneg
    exact hmissed ⟨by omega, hne, hnil⟩

theorem operator_advances {pos : ℕ} (h : Good ctx x) (hoperator : token.type.isOperator = true)
    (hdone : operatorStep ext ctx pos token = .ok done) : Advances (ctx, token) x done := by
  have hkind : token.type ≠ comma ∧ token.type ≠ groupClose ∧ token.type ≠ groupOpen ∧
      token.type ≠ classSeparator ∧ token.type.beforeOperand = true := by
    revert hoperator
    cases token.type <;> decide
  obtain ⟨hcomma, hclose, hopen, hstart, hbefore⟩ := hkind
  have hchange : excessChange (ctx, token) = 0 := by
    simp [excessChange, escapedComma, emptyGroup, hcomma, hclose]
  have hremaining : remaining (ctx, token) = ctx.ops.dropWhile fun op => !stopAt token op := by
    simp [remaining, hcomma, hclose, hoperator]
  unfold operatorStep at hdone
  dsimp only at hdone
  split at hdone
  · cases hdone
  · next hbinary =>
    split at hdone
    · cases hdone
    · next hunary =>
      obtain ⟨mid, hmid, rfl⟩ := map_eq_ok hdone
      have hops := (popOps_ops hmid).1
      -- an operand for a unary operator is still to come, those of a binary one are there
      by_cases hfirst : token.type.isOperator1 = true
      · have hlast : ctx.lastTokenType.beforeOperand = true := by simpa [hfirst] using hunary
        obtain ⟨d, hdepth, hready⟩ := h.operandDepth hlast
        have hcovered := h.covered_of_ne (ne_groupClose_of_beforeOperand hlast)
        have hsame : mid = ctx := by
          cases hctx : ctx.ops with
          | nil =>
            rw [hctx] at hmid
            cases hmid
            rw [← hctx]
          | cons op ops =>
            rw [hctx] at hmid
            simp only [popOps, hfirst, Bool.or_true, Bool.true_or, if_true] at hmid
            cases hmid
            rw [← hctx]
        subst hsame
        have hstay : movesBottom (mid, token) = false := by
          simp only [movesBottom, hremaining]
          cases mid.ops <;> simp [stopAt, hfirst]
        unfold Advances
        rw [if_neg (by simp [hstay]), hchange, Int.add_zero]
        exact ⟨h.rules, ⟨d, hdepth, .operand hbefore (.unary hfirst hready)⟩,
          .inl (hcovered.cons token), by simp [hstart], by simp [hopen],
          fun _ => by simpa [isGroupOpen] using hopen⟩
      · have hsecond : token.type.isOperator2 = true := by
          simpa [isOperator, hfirst] using hoperator
        have hlast : ctx.lastTokenType.isOperand = true := by
          simpa [hsecond, beforeOperator, h.not_property] using hbinary
        obtain ⟨d, hdepth, hready⟩ := h.operatorDepth hlast
        have hmoved := popOps_moved (fun op hop => by simp [hop]) h.rules hdepth hready
          h.covered_of_cons hmid
        refine hmoved.advances (hops.trans hremaining.symm) id ?_
        intro e hedepth heready hbottom hcovered
        rw [hchange, Int.add_zero]
        refine ⟨?_, ⟨e, hedepth, .operand hbefore (.binary hsecond heready)⟩, .inl ?_,
          by simp [hstart], by simp [hopen], fun _ => by simpa [isGroupOpen] using hopen⟩
        · rw [(popOps_extends hmid).rules]
          exact h.rules
        · -- an operator pushed on an empty `ops` is the new one at the bottom
          show Covered x (token :: mid.ops)
          by_cases hmidops : mid.ops = []
          · by_cases hctxops : ctx.ops = []
            · rcases h.covered with hcov | ⟨hx, -, -⟩
              · rw [hctxops] at hcov
                rw [hmidops]
                exact hcov.cons token
              · exact .inr ⟨hx, by simp [hmidops, hsecond]⟩
            · exact .inl (hbottom hctxops hmidops)
          · by_cases hctxops : ctx.ops = []
            · rw [hctxops] at hops
              exact absurd hops hmidops
            · exact (hcovered hctxops hmidops).cons token

theorem appendArgNull_depth (hdepth : depth tokenArity 0 ctx.stack = some d)
    (hready : Ready ctx.stack x ctx.ops (d + 1)) :
    depth tokenArity 0 (evalAppendArgNull ctx).stack = some (d + 1) ∧
      Ready (evalAppendArgNull ctx).stack x (evalAppendArgNull ctx).ops (d + 1) := by
  have hd := depth_nonneg hdepth (Int.le_refl 0)
  have harity : tokenArity ⟨argNull, 0, ⟨0, 0⟩⟩ = 0 := rfl
  have hdepth' := depth_append_one_of_some (a := ⟨argNull, 0, ⟨0, 0⟩⟩) hdepth (by omega) (by omega)
  rw [harity, Int.sub_zero] at hdepth'
  exact ⟨hdepth', hready.append _⟩

theorem commaStep_cases {pos : ℕ} (h : Good ctx x) (hdone : commaStep ext ctx pos = .ok done) :
    ctx.ops ≠ [] ∧ ∃ start d, start.rules = ctx.rules ∧ start.ops = ctx.ops ∧
      depth tokenArity 0 start.stack = some d ∧ Ready start.stack x ctx.ops d ∧
      popOps ext isGroupOpen ctx.ops start = .ok done := by
  unfold commaStep at hdone
  dsimp only at hdone
  split at hdone
  · cases hdone
  · next hlast =>
    split at hdone
    · next hseparator =>
      have hbefore : ctx.lastTokenType.beforeOperand = true := by simp [beforeOperand, hseparator]
      obtain ⟨d, hdepth, hready⟩ := h.operandDepth hbefore
      obtain ⟨hdepth', hready'⟩ := appendArgNull_depth hdepth hready
      split at hdone
      · cases hdone
      · next hops => exact ⟨hops, evalAppendArgNull ctx, d + 1, rfl, rfl, hdepth', hready', hdone⟩
    · next hseparator =>
      have hoperand : ctx.lastTokenType.isOperand = true := by simpa [hseparator] using hlast
      obtain ⟨d, hdepth, hready⟩ := h.operatorDepth hoperand
      split at hdone
      · cases hdone
      · next hops => exact ⟨hops, ctx, d, rfl, rfl, hdepth, hready, hdone⟩

theorem comma_advances {pos : ℕ} (h : Good ctx x) (htype : token.type = comma)
    (hdone : commaStep ext ctx pos = .ok done) :
    Advances (ctx, token) x done := by
  obtain ⟨hne, start, d, hrules, -, hdepth, hready, hpop⟩ := commaStep_cases h hdone
  have hops := (popOps_ops hpop).1
  have hremaining : remaining (ctx, token) = innermost ctx.ops := by simp [remaining, htype]
  have hchange : excessChange (ctx, token) = if ctx.ops.any (·.type.isFunction) then 0 else 1 := by
    cases hany : ctx.ops.any (·.type.isFunction) <;>
      simp [excessChange, escapedComma, emptyGroup, htype, hany]
  have hmoved := popOps_moved (fun _ hop => hop) (hrules.symm ▸ h.rules) hdepth hready
    (fun hne => h.covered_of_cons hne) hpop
  refine hmoved.advances (hops.trans hremaining.symm) id ?_
  intro e hedepth heready hbottom hcovered
  have hany : done.ops.any (·.type.isFunction) = ctx.ops.any (·.type.isFunction) := by
    rw [hops]
    exact hready.any_innermost
  have hawaits : Ready done.stack (x + excessChange (ctx, token)) done.ops (e + 1) := by
    rw [hchange]
    split
    · next hfunc => simpa using heready.grow (hany.trans hfunc) (by omega)
    · next hfunc => exact heready.shift (hany.trans (Bool.eq_false_iff.mpr hfunc)) 1
  have hchangeNonneg : 0 ≤ excessChange (ctx, token) := by
    rw [hchange]
    split <;> omega
  refine ⟨?_, ⟨e, hedepth, .operand (by simp [htype, beforeOperand, isSeparator]) hawaits⟩, .inl ?_,
    by simp [htype], by simp [htype], by simp [htype, isOperator, isOperator1, isOperator2]⟩
  · rw [(popOps_extends hpop).rules, hrules]
    exact h.rules
  · show Covered (x + excessChange (ctx, token)) done.ops
    by_cases hdoneops : done.ops = []
    · have hx := hbottom hne hdoneops
      exact .inl (by omega)
    · rcases hcovered hne hdoneops with hx | ⟨hx, hlast⟩
      · exact .inl (by omega)
      · rcases Int.le_iff_lt_or_eq.mp hchangeNonneg with hlt | heq
        · exact .inl (by omega)
        · exact .inr ⟨by omega, hlast⟩

theorem closeFunction_cases {pos : ℕ} (h : closeFunction ext ctx pos = .ok done) :
    (onFunction ctx.ops = false ∧ done = ctx ∧ (ctx.ops = [] ∨ ctx.lastTokenType ≠ groupOpen)) ∨
      ∃ func ops appended, ctx.ops = func :: ops ∧ func.type.isFunction = true ∧
        evalAppendOperator ext ctx func = .ok appended ∧ done = { appended with ops } := by
  unfold closeFunction at h
  split at h
  · next hops =>
    cases h
    exact .inl ⟨by simp [hops, onFunction], rfl, .inl hops⟩
  · next func ops hops =>
    split at h
    · next hfunc =>
      obtain ⟨appended, happended, rfl⟩ := map_eq_ok h
      exact .inr ⟨func, ops, appended, hops, hfunc, happended, rfl⟩
    · next hfunc =>
      split at h
      · cases h
      · next hlast =>
        cases h
        exact .inl ⟨by simpa [hops] using hfunc, rfl, .inr hlast⟩

theorem closeFunction_depth_none {pos : ℕ} (h : closeFunction ext ctx pos = .ok done)
    (hnone : depth tokenArity 0 ctx.stack = none) :
    depth tokenArity 0 done.stack = none := by
  rcases closeFunction_cases h with ⟨-, rfl, -⟩ | ⟨func, ops, appended, -, -, happended, rfl⟩
  · exact hnone
  · unfold evalAppendOperator at happended
    dsimp only at happended
    split at happended
    · obtain ⟨-, -, rfl⟩ := map_eq_ok happended
      exact depth_append_of_none hnone _
    · cases happended
      exact depth_append_of_none hnone _

theorem closeFunction_ready {pos : ℕ} (hrules : ctx.rules.property = false)
    (hdepth : depth tokenArity 0 ctx.stack = some e) (hops : ctx.ops = ops)
    (hready : Ready ctx.stack x (op :: ops) e) (hopen : op.type = groupOpen)
    (h : closeFunction ext ctx pos = .ok done) :
    done.rules = ctx.rules ∧ (∃ f, depth tokenArity 0 done.stack = some f ∧
      Ready done.stack x done.ops f) ∧ (Covered x (op :: ops) → Covered x done.ops) := by
  cases hready with
  | unary hop _ | binary hop _ =>
    rw [hopen] at hop
    cases hop
  | group _ hrest =>
    rcases closeFunction_cases h with ⟨-, rfl, -⟩ | ⟨func, rest, -, hcons, hfunc, -, -⟩
    · refine ⟨rfl, ⟨e, hdepth, hops ▸ hrest⟩, fun hcovered => ?_⟩
      by_cases hnil : ops = []
      · subst hnil
        exact .inl (hcovered.nonneg (by rw [hopen]; rfl))
      · exact hops ▸ hcovered.tail hnil
    · have hhead := hrest.head
      rw [← hops, hcons, onFunction_cons, hfunc] at hhead
      cases hhead
  | @call _ func rest b _ k _ hfunc hopt hk hbefore hrest hle =>
    rcases closeFunction_cases h with ⟨hhead, -, -⟩ | ⟨func', rest', appended, hcons, -, happ, rfl⟩
    · rw [hops, onFunction_cons, hfunc] at hhead
      cases hhead
    · rw [hops] at hcons
      cases hcons
      obtain ⟨token, rfl, htoken⟩ :=
        evalAppendOperator_of_function hrules hfunc hopt hdepth hbefore (by omega) happ
      refine ⟨rfl, ⟨b + 1, htoken, hrest.append [token]⟩, fun hcovered => ?_⟩
      have hcall : Covered x (func :: rest) := hcovered.tail (by simp)
      by_cases hnil : rest = []
      · subst hnil
        exact .inl (hcall.nonneg (isOperator2_of_isFunction hfunc))
      · exact hcall.tail hnil

def closeStart (ctx : Context) : Context :=
  if ctx.lastTokenType = comma then evalAppendArgNull ctx else ctx

theorem closeStart_same (ctx : Context) : (closeStart ctx).rules = ctx.rules ∧
    (closeStart ctx).ops = ctx.ops ∧ (closeStart ctx).lastTokenType = ctx.lastTokenType := by
  unfold closeStart
  split <;> exact ⟨rfl, rfl, rfl⟩

theorem Good.second (h : Good ctx x)
    (hlast : ctx.lastTokenType.isOperator = true ∨ ctx.lastTokenType.isFunction = true) :
    (ctx.ops[1]?.any fun op => op.type = function) = false := by
  have hfunction {op : Token} (hop : op.type.isFunction = false) : op.type ≠ function := by
    intro heq
    rw [heq] at hop
    cases hop
  obtain ⟨d, -, hawaits⟩ := h.awaits
  cases hawaits with
  | operator hoperand _ =>
    exfalso
    revert hlast hoperand
    cases ctx.lastTokenType <;> decide
  | operand hbefore hready =>
    have hoperator : ctx.lastTokenType.isOperator = true := by
      revert hlast hbefore
      cases ctx.lastTokenType <;> decide
    have hgroup := h.operator hoperator
    cases hops : ctx.ops with
    | nil => rfl
    | cons op rest =>
      rw [hops] at hready hgroup
      have hrest : onFunction rest = false := by
        generalize d + 1 = e at hready
        cases hready with
        | unary _ hrest | binary _ hrest | group _ hrest => exact hrest.head
        | call hop => simp [isGroupOpen, hop] at hgroup
      cases rest with
      | nil => rfl
      | cons op' rest => simpa using hfunction hrest
  | @opens func ops _ hops _ _ hready =>
    have hhead := hready.head
    rw [hops]
    cases ops with
    | nil => rfl
    | cons op rest => simpa using hfunction hhead

theorem closeStep_cases {pos : ℕ} (h : Good ctx x)
    (hdone : closeStep ext (closeStart ctx) pos = .ok done) :
    ctx.ops ≠ [] ∧ (∃ mid, popOps ext isGroupOpen ctx.ops (closeStart ctx) = .ok mid ∧
      closeFunction ext { mid with ops := mid.ops.tail } pos = .ok done) ∧
    (ctx.lastTokenType = groupOpen ∨ ctx.lastTokenType ≠ groupOpen ∧
      ∃ d, depth tokenArity 0 (closeStart ctx).stack = some d ∧
        Ready (closeStart ctx).stack x ctx.ops d) := by
  obtain ⟨-, hops, hlast⟩ := closeStart_same ctx
  unfold closeStep at hdone
  dsimp only at hdone
  rw [hops, hlast] at hdone
  split at hdone
  · cases hdone
  · next hallowed =>
    split at hdone
    · cases hdone
    · next hne =>
      refine ⟨hne, bind_eq_ok hdone, ?_⟩
      have hkind : ctx.lastTokenType = groupOpen ∨ ctx.lastTokenType = comma ∨
          ctx.lastTokenType.isOperand = true := by
        have hstart : ctx.lastTokenType ≠ classSeparator := fun heq => hne (h.start heq).1
        have hproperty := h.not_property
        have hsecond := h.second
        revert hallowed hstart hproperty hsecond
        cases ctx.lastTokenType <;> simp_all [isOperand, isSeparator, isOperator, isOperator1,
          isOperator2, isFunction, isProperty]
      rcases hkind with hopen | hcomma | hoperand
      · exact .inl hopen
      · refine .inr ⟨by simp [hcomma], ?_⟩
        obtain ⟨d, hdepth, hready⟩ := h.operandDepth (by simp [hcomma, beforeOperand, isSeparator])
        rw [closeStart, if_pos hcomma]
        exact ⟨d + 1, appendArgNull_depth hdepth hready⟩
      · have hnot : ctx.lastTokenType ≠ comma ∧ ctx.lastTokenType ≠ groupOpen := by
          revert hoperand
          cases ctx.lastTokenType <;> decide
        rw [closeStart, if_neg hnot.1]
        exact .inr ⟨hnot.2, h.operatorDepth hoperand⟩

theorem closeEmpty_advances {pos : ℕ} (h : Good ctx x) (htype : token.type = groupClose)
    (hlast : ctx.lastTokenType = groupOpen)
    (hdone : closeFunction ext { ctx with ops := ctx.ops.tail } pos = .ok done) :
    Advances (ctx, token) x done := by
  have hgroup := h.group hlast
  have hcovered := h.covered_of_ne (by simp [hlast])
  obtain ⟨d, hdepth, hready⟩ := h.operandDepth (by simp [hlast, beforeOperand, isSeparator])
  obtain ⟨op, ops, hops, hopen⟩ : ∃ op ops, ctx.ops = op :: ops ∧ isGroupOpen op = true := by
    cases hops : ctx.ops with
    | nil => simp [hops] at hgroup
    | cons op ops => exact ⟨op, ops, rfl, by simpa [hops] using hgroup⟩
  have hstay : movesBottom (ctx, token) = false := by
    simp [movesBottom, remaining, htype, hops, innermost, hopen]
  have hopenType : op.type = groupOpen := by simpa [isGroupOpen] using hopen
  have htail : ctx.ops.tail = ops := by rw [hops]; rfl
  rw [htail] at hdone
  rw [hops] at hready hcovered
  unfold Advances
  rw [if_neg (by simp [hstay])]
  generalize he : d + 1 = e at hready
  cases hready with
  | unary hop _ | binary hop _ =>
    rw [hopenType] at hop
    cases hop
  | group _ hrest =>
    -- `()` with nothing below it on `ops`
    rcases closeFunction_cases hdone with ⟨-, rfl, hempty⟩ | ⟨func, rest, -, hcons, hfunc, -, -⟩
    · obtain rfl : ops = [] := by
        rcases hempty with hempty | hne
        · exact hempty
        · exact absurd hlast hne
      have hchange : excessChange (ctx, token) = -1 := by
        simp [excessChange, escapedComma, emptyGroup, htype, hlast, hops]
      have hx := hcovered.nonneg (by rw [hopenType]; rfl)
      cases hrest
      rw [hchange]
      refine ⟨h.rules, ⟨d, hdepth, .operator (by simp [htype, isOperand]) ?_⟩, ?_,
        by simp [htype], by simp [htype], by simp [htype, isOperator, isOperator1, isOperator2]⟩
      · rw [show d = 1 + (x + -1) by omega]
        exact .bottom
      · by_cases hzero : x = 0
        · exact .inr ⟨by omega, rfl, htype⟩
        · exact .inl (.inl (by omega))
    · have hhead := hrest.head
      have hcons : ops = func :: rest := hcons
      rw [hcons, onFunction_cons, hfunc] at hhead
      cases hhead
  | @call _ func rest b _ k _ hfunc hopt hk hbefore hrest hle =>
    -- a call without arguments
    have hchange : excessChange (ctx, token) = 0 := by
      simp [excessChange, escapedComma, emptyGroup, htype, hops]
    rcases closeFunction_cases hdone with ⟨hhead, -, -⟩ | ⟨func', rest', appended, hcons, -, happ, rfl⟩
    · rw [onFunction_cons, hfunc] at hhead
      cases hhead
    · cases hcons
      obtain ⟨appendedToken, rfl, hdepth'⟩ :=
        evalAppendOperator_of_function (by exact h.rules) hfunc hopt (by exact hdepth)
          (by exact hbefore) (by omega) happ
      rw [hchange, Int.add_zero]
      refine ⟨h.rules, ⟨b + 1, hdepth', .operator (by simp [htype, isOperand])
        (hrest.append [appendedToken])⟩, .inl ?_, by simp [htype], by simp [htype],
        by simp [htype, isOperator, isOperator1, isOperator2]⟩
      show Covered x rest
      have hcall : Covered x (func :: rest) := hcovered.tail (by simp)
      by_cases hnil : rest = []
      · subst hnil
        exact .inl (hcall.nonneg (isOperator2_of_isFunction hfunc))
      · exact hcall.tail hnil

theorem close_advances {pos : ℕ} (h : Good ctx x) (htype : token.type = groupClose)
    (hdone : closeStep ext (closeStart ctx) pos = .ok done) : Advances (ctx, token) x done := by
  obtain ⟨hne, ⟨mid, hpop, hclose⟩, hkind⟩ := closeStep_cases h hdone
  rcases hkind with hlast | ⟨hlast, d, hdepth, hready⟩
  · have hstart : closeStart ctx = ctx := if_neg (by simp [hlast])
    have hmid : mid = ctx := by
      have hgroup := h.group hlast
      rw [hstart] at hpop
      cases hops : ctx.ops with
      | nil => simp [hops] at hgroup
      | cons op ops =>
        rw [hops] at hpop
        have hopen : isGroupOpen op = true := by simpa [hops] using hgroup
        rw [popOps, if_pos hopen] at hpop
        cases hpop
        rw [← hops]
    subst hmid
    exact closeEmpty_advances h htype hlast hclose
  · obtain ⟨hrules, -, -⟩ := closeStart_same ctx
    have hops : mid.ops = innermost ctx.ops := (popOps_ops hpop).1
    have hremaining : remaining (ctx, token) = innermost ctx.ops := by simp [remaining, htype]
    have hchange : excessChange (ctx, token) = 0 := by
      simp [excessChange, escapedComma, emptyGroup, htype, hlast]
    have hmidRules : mid.rules.property = false := by
      rw [(popOps_extends hpop).rules, hrules]
      exact h.rules
    have hmoved := popOps_moved (fun _ hop => hop) (by rw [hrules]; exact h.rules) hdepth hready
      h.covered_of_cons hpop
    refine hmoved.advances (hops.trans hremaining.symm)
      (fun hnone => closeFunction_depth_none hclose hnone) ?_
    intro e hedepth heready hbottom hcovered
    rw [hchange, Int.add_zero]
    have hgood (hdoneRules : done.rules = mid.rules) {f : ℤ}
        (hf : depth tokenArity 0 done.stack = some f) (hfready : Ready done.stack x done.ops f)
        (hfcovered : Covered x done.ops) : Good { done with lastTokenType := token.type } x :=
      ⟨by rw [hdoneRules]; exact hmidRules, ⟨f, hf, .operator (by simp [htype, isOperand]) hfready⟩,
        .inl hfcovered, by simp [htype], by simp [htype],
        by simp [htype, isOperator, isOperator1, isOperator2]⟩
    cases hmidops : mid.ops with
    | nil =>
      -- no opening parenthesis is left
      rw [hmidops] at hclose
      cases hclose
      rw [hmidops] at heready
      exact hgood rfl hedepth heready (.inl (hbottom hne hmidops))
    | cons op ops =>
      have hopen : op.type = groupOpen := by
        simpa [isGroupOpen] using innermost_cons_isGroupOpen (hops.symm.trans hmidops)
      rw [hmidops] at heready hclose
      obtain ⟨hdoneRules, ⟨f, hf, hfready⟩, hfcovered⟩ :=
        closeFunction_ready (by exact hmidRules) (by exact hedepth) (by rfl) (by exact heready)
          hopen hclose
      have hmidCovered := hcovered hne (by simp [hmidops])
      rw [hmidops] at hmidCovered
      exact hgood hdoneRules hf hfready (hfcovered hmidCovered)

theorem advances_of_dispatched {read : Context} {pos start : ℕ} (h : Good read x)
    (hread : Read ctx start read token) (hdone : Dispatched ext
      (if token.type = groupClose ∧ read.lastTokenType = comma then evalAppendArgNull read
        else read) pos token done) : Advances (read, token) x done := by
  have hproperty : token.type.isProperty = false := by
    cases hprop : token.type.isProperty with
    | false => rfl
    | true =>
      have hrules := hread.property hprop
      rw [← hread.rules, h.rules] at hrules
      cases hrules
  by_cases htype : token.type = groupClose
  · have hstart : (if token.type = groupClose ∧ read.lastTokenType = comma then
        evalAppendArgNull read else read) = closeStart read := by
      simp [htype, closeStart]
    rw [hstart] at hdone
    cases hdone with
    | close _ hclose => exact close_advances h htype hclose
    | opens hopen | comma hopen => rw [htype] at hopen; cases hopen
    | func hfunc | operator hfunc => rw [htype] at hfunc; cases hfunc
    | operand hclose => exact absurd htype hclose
  · rw [if_neg fun hand => htype hand.1] at hdone
    cases hdone with
    | opens hopen hlast => exact opens_advances h hopen hlast
    | func hfunc hlast =>
      refine func_advances h hfunc ?_ hlast
      rw [hread.stack]
      exact (hread.func hfunc).2.1
    | comma hcomma hdone => exact comma_advances h hcomma hdone
    | close hclose _ => exact absurd hclose htype
    | operand hclose hoperand hlast =>
      exact operand_advances h hclose (by simpa [hproperty] using hoperand) hlast
    | operator hoperator hdone => exact operator_advances h hoperator hdone

theorem Ready.setHistFunction (h : Ready stack x ops d) (hset : setHistFunction ops = some ops') :
    Ready stack x ops' d := by
  unfold Eval.setHistFunction at hset
  split at hset
  · next top func rest =>
    split at hset
    · next hfunc =>
      cases hset
      cases h with
      | unary _ hrest | binary _ hrest | group _ hrest =>
        have hhead := hrest.head
        rw [onFunction_cons, hfunc] at hhead
        cases hhead
      | call hop _ hopt hk hbefore hrest hle => exact .call hop rfl hopt hk hbefore hrest hle
    · cases hset
  · cases hset

theorem setHistFunction_frame (h : setHistFunction ops = some ops') :
    ops'.head? = ops.head? ∧ ∀ x, Covered x ops → Covered x ops' := by
  unfold setHistFunction at h
  split at h
  · next top func rest =>
    split at h
    · next hfunc =>
      cases h
      refine ⟨rfl, fun x hcovered => ?_⟩
      have hcall := hcovered.tail (by simp)
      by_cases hnil : rest = []
      · subst hnil
        exact .inl (hcall.nonneg (isOperator2_of_isFunction hfunc))
      · exact ((hcall.tail hnil).cons _).cons _
    · cases h
  · cases h

theorem Good.read {read : Context} {pos : ℕ} (h : Good ctx x) (hread : Read ctx pos read token) :
    Good read x := by
  obtain ⟨d, hdepth, hawaits⟩ := h.awaits
  rcases hread.ops with hops | ⟨hlast, hset⟩
  · refine ⟨by rw [hread.rules]; exact h.rules, ⟨d, by rw [hread.stack]; exact hdepth, ?_⟩,
      by rw [hops, hread.last]; exact h.covered, by rw [hops, hread.last, hread.stack]; exact h.start,
      by rw [hops, hread.last]; exact h.group, by rw [hops, hread.last]; exact h.operator⟩
    cases hawaits with
    | operator hlast hready =>
      exact .operator (hread.last ▸ hlast) (by rw [hread.stack, hops]; exact hready)
    | operand hlast hready =>
      exact .operand (hread.last ▸ hlast) (by rw [hread.stack, hops]; exact hready)
    | opens hlast hcons hfunc hopt hready =>
      exact .opens (hread.last ▸ hlast) (hops.trans hcons) hfunc (by rw [hread.stack]; exact hopt)
        (by rw [hread.stack]; exact hready)
  · -- the first argument of a call is an item query
    obtain ⟨hhead, hcovered⟩ := setHistFunction_frame hset
    have hlast' : read.lastTokenType = groupOpen := hread.last.trans hlast
    have hbefore : ctx.lastTokenType.beforeOperand = true := by
      simp [hlast, beforeOperand, isSeparator]
    obtain ⟨d, hdepth, hready⟩ := h.operandDepth hbefore
    refine ⟨by rw [hread.rules]; exact h.rules, ⟨d, by rw [hread.stack]; exact hdepth, ?_⟩,
      .inl (hcovered x (h.covered_of_ne (by simp [hlast]))), by simp [hlast'],
      fun _ => by rw [hhead]; exact h.group hlast,
      by simp [hlast', isOperator, isOperator1, isOperator2]⟩
    refine .operand (hread.last ▸ hbefore) ?_
    rw [hread.stack]
    exact hready.setHistFunction hset

theorem Good.initial {expression : List Char} {rules : Rules} (h : rules.property = false) :
    Good (initialContext expression rules) 0 :=
  ⟨h, ⟨0, rfl, .operand rfl .bottom⟩, .inl (.inl (Int.le_refl 0)), fun _ => ⟨rfl, rfl⟩,
    by simp [initialContext], by simp [initialContext, isOperator, isOperator1, isOperator2]⟩

theorem depth_none_of_prefix {stack' : List Token} (h : stack <+: stack')
    (hnone : depth tokenArity 0 stack = none) : depth tokenArity 0 stack' = none := by
  obtain ⟨tokens, rfl⟩ := h
  exact depth_append_of_none hnone tokens

theorem Parses.prefix_stack {pos : ℕ} (h : Parses ext ctx pos steps last) :
    ctx.stack <+: last.stack := by
  induction h with
  | finish _ => exact prefix_rfl
  | step hread hnext _ ih =>
    rw [← hread.stack]
    exact (parseStep_extends hread.started hnext).stack.trans ih

theorem parseEnd_cases (h : parseEnd ext ctx = .ok stack) :
    ctx.lastTokenType.isOperator = false ∧ ctx.lastTokenType ≠ comma ∧ stack ≠ [] ∧
      ∃ mid, popOps ext isGroupOpen ctx.ops ctx = .ok mid ∧ mid.ops = [] ∧ mid.stack = stack := by
  unfold parseEnd at h
  split at h
  · cases h
  · next hoperator =>
    split at h
    · cases h
    · next hcomma =>
      obtain ⟨mid, hmid, hend⟩ := bind_eq_ok h
      split at hend
      · cases hend
      · next hops =>
        refine ⟨by simpa using hoperator, hcomma, ?_⟩
        have hops : mid.ops = [] := by simpa using hops
        split at hend
        · cases hend
        · next hstack =>
          split at hend
          · cases hend
          · cases hend
            exact ⟨by simp [hstack], mid, hmid, hops, rfl⟩
        · next hne _ =>
          cases hend
          exact ⟨hne, mid, hmid, hops, rfl⟩

theorem Good.valid_iff (h : Good ctx x) (hfunc : ctx.lastTokenType.isFunction = false)
    (hend : parseEnd ext ctx = .ok stack) : Valid tokenArity stack ↔ x = 0 := by
  obtain ⟨hoperator, hcomma, hstack, mid, hpop, hmidops, rfl⟩ := parseEnd_cases hend
  have hops : innermost ctx.ops = [] := (popOps_ops hpop).1.symm.trans hmidops
  have hlast : ctx.lastTokenType.isOperand = true := by
    have hgroup : ctx.lastTokenType ≠ groupOpen := by
      intro heq
      have hhead := h.group heq
      cases hctx : ctx.ops with
      | nil => simp [hctx] at hhead
      | cons op rest =>
        have hopen : isGroupOpen op = true := by simpa [hctx] using hhead
        simp [hctx, innermost, hopen] at hops
    have hstart : ctx.lastTokenType ≠ classSeparator := by
      intro heq
      obtain ⟨hctxops, hctxstack⟩ := h.start heq
      rw [hctxops] at hpop
      cases hpop
      exact hstack hctxstack
    have hproperty := h.not_property
    revert hfunc hoperator hcomma hgroup hstart hproperty
    cases ctx.lastTokenType <;> simp [isFunction, isOperator, isOperator1, isOperator2,
      isProperty, isOperand]
  obtain ⟨d, hdepth, hready⟩ := h.operatorDepth hlast
  have hmoved := popOps_moved (fun _ hop => hop) h.rules hdepth hready h.covered_of_cons hpop
  unfold Moved at hmoved
  unfold Valid
  split at hmoved
  · next hmissed =>
    rw [hmoved]
    simp only [reduceCtorEq, false_iff]
    omega
  · obtain ⟨e, hedepth, heready, -⟩ := hmoved
    rw [hmidops] at heready
    cases heready
    rw [hedepth, Option.some.injEq]
    omega

theorem Parses.valid_iff {pos : ℕ} (h : Parses ext ctx pos steps last) (hgood : Good ctx x)
    (hopen : ctx.lastTokenType.isFunction = true → ctx.at pos = '(')
    (hend : parseEnd ext last = .ok stack) : Valid tokenArity stack ↔ KeepsExcess x steps := by
  induction h generalizing x with
  | @finish ctx pos hfinish =>
    have hfunc : ctx.lastTokenType.isFunction = false := by
      by_contra hfunc
      have hat := hopen (by simpa using hfunc)
      rcases hfinish with hlength | hnone
      · simp [Context.at, drop_eq_nil_of_le hlength, Expr.charAt] at hat
      · exact evalParseToken_of_open hat hnone
    exact hgood.valid_iff hfunc hend
  | @step ctx read next last pos token steps hread hnext hrest ih =>
    obtain ⟨done, hdone, rfl⟩ := parseStep_cases hread.started hnext
    have hadvances := advances_of_dispatched (hgood.read hread) hread hdone
    unfold Advances at hadvances
    simp only [KeepsExcess]
    split at hadvances
    · -- an operator at the bottom of `ops` missed a value
      next hmissed =>
      have hlast := depth_none_of_prefix hrest.prefix_stack hadvances
      obtain ⟨-, -, -, mid, hpop, -, rfl⟩ := parseEnd_cases hend
      have hnone := depth_none_of_prefix (popOps_extends hpop).stack hlast
      unfold Valid
      rw [hnone]
      simp only [reduceCtorEq, false_iff]
      intro hkeeps
      have hx := hkeeps.1 hmissed.1
      omega
    · next hkeeps =>
      have hnextOpen : token.type.isFunction = true →
          Context.at { done with lastTokenType := token.type } (token.loc.r + 1) = '(' := by
        intro hfunc
        have hexpression : done.expression = ctx.expression :=
          (parseStep_extends hread.started hnext).expression.trans hread.expression
        unfold Context.at
        rw [hexpression]
        exact (hread.func hfunc).2.2
      rw [ih hadvances hnextOpen hend]
      constructor
      · intro hsteps
        exact ⟨fun hmoves => by
          by_contra hneg
          exact hkeeps ⟨hmoves, by omega⟩, hsteps⟩
      · exact fun hsteps => hsteps.2
end Zabbix.Eval
