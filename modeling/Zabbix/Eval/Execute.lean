import Mathlib.Algebra.Group.Nat.Defs
import Zabbix.Eval.Variant
import Zabbix.Foundation.Except
import Zabbix.Eval.Lexer

/-!
# Evaluating a token stack

`eval_execute`. Operators work on the output stack; an operand that carries an error passes through
them, and `and` and `or` ignore it when the other operand decides the result. What a function call
does is a parameter.
-/

namespace Zabbix.Eval

open Expr TokenType

variable {expression : List Char}

inductive StackType
  | parsed (type : TokenType)
  | nop
  | tagExpression
  deriving DecidableEq

structure EvalToken (D : Type) where
  type : StackType
  opt : ℤ
  loc : Strloc
  value : Variant D

/-- `processError` is the rule `ZBX_EVAL_PROCESS_ERROR`. -/
structure ExecContext (D : Type) where
  expression : List Char
  processError : Bool
  stack : List (EvalToken D)

section Execute

variable {D : Type} (fl : Floating D)

def Floating.ofBool (b : Bool) : D := if b then fl.one else fl.zero

def operandError (side : List Char) (value : Variant D) (tail : String) (expression : List Char)
    (pos : ℕ) : String :=
  quoted (String.ofList (side ++ ['"'] ++ zbxVariantValueDesc fl value ++ ['"']) ++ tail) expression
    pos

def unaryOperand (expression : List Char) (token : EvalToken D) (right : Variant D) :
    Except String (Variant D) :=
  if right.isErr then .ok right
  else
    match variantToDbl fl right with
    | none => .error (operandError fl "unary operator operand ".toList right
        " is not a numeric value at" expression token.loc.l)
    | some x =>
      let value : Option D := match token.type with
        | .parsed opMinus => some (fl.neg x)
        | .parsed opNot => some (fl.ofBool (fl.equal x fl.zero))
        | _ => none
      match value with
      | none => .error (quoted "unknown unary operator at" expression token.loc.l)
      | some value =>
        if fl.regular value then .ok (.dbl value)
        else .error (quoted "calculation resulted in NaN or Infinity at" expression token.loc.l)

def evalExecuteOpUnary (expression : List Char) (token : EvalToken D) :
    List (Variant D) → Except String (List (Variant D))
  | [] => .error (quoted "unary operator requires one operand at" expression token.loc.l)
  | right :: output => (unaryOperand fl expression token right).map fun value => value :: output

def evalExecuteOpLogicErr (type : StackType) (value : Variant D) : Option D :=
  if value.isErr then none
  else
    (variantToDbl fl value).bind fun x =>
      match type with
      | .parsed opAnd => if fl.equal x fl.zero then some fl.zero else none
      | .parsed opOr => if fl.equal x fl.zero then none else some fl.one
      | _ => none

/-- The operators of `eval_execute_op_binary` on two numbers, `none` for a division by zero. -/
def binaryValue (type : StackType) (x y : D) : Option D :=
  match type with
  | .parsed opAnd => some (fl.ofBool (!(fl.equal x fl.zero || fl.equal y fl.zero)))
  | .parsed opOr => some (fl.ofBool (!fl.equal x fl.zero || !fl.equal y fl.zero))
  | .parsed opLt => some (fl.ofBool (compareDbl fl x y = .lt))
  | .parsed opLe => some (fl.ofBool (compareDbl fl x y ≠ .gt))
  | .parsed opGt => some (fl.ofBool (compareDbl fl x y = .gt))
  | .parsed opGe => some (fl.ofBool (compareDbl fl x y ≠ .lt))
  | .parsed opAdd => some (fl.add x y)
  | .parsed opSub => some (fl.sub x y)
  | .parsed opMul => some (fl.mul x y)
  | .parsed opDiv => if fl.equal y fl.zero then none else some (fl.div x y)
  | _ => some fl.zero

def binaryOperands (expression : List Char) (token : EvalToken D) (left right : Variant D) :
    Except String D :=
  if token.type = .parsed opEq ∨ token.type = .parsed opNe then
    if left.isVector ∨ right.isVector then
      .error (quoted "vector cannot be used with comparison operator at" expression token.loc.l)
    else
      let equal := evalVariantCompare fl left right = .eq
      .ok (fl.ofBool (if token.type = .parsed opEq then equal else !equal))
  else
    match variantToDbl fl left, variantToDbl fl right with
    | none, _ => .error (operandError fl "left operand ".toList left
        " is not a numeric value for operator at" expression token.loc.l)
    | _, none => .error (operandError fl "right operand ".toList right
        " is not a numeric value for operator at" expression token.loc.l)
    | some x, some y =>
      match binaryValue fl token.type x y with
      | none => .error (quoted "division by zero at" expression token.loc.l)
      | some value =>
        if token.type = .parsed opAnd ∨ token.type = .parsed opOr ∨ fl.regular value then .ok value
        else .error (quoted "calculation resulted in NaN or Infinity at" expression token.loc.l)

def binaryOperand (expression : List Char) (token : EvalToken D) (left right : Variant D) :
    Except String (Variant D) :=
  if left.isErr then .ok (((evalExecuteOpLogicErr fl token.type right).map Variant.dbl).getD left)
  else if right.isErr then
    .ok (((evalExecuteOpLogicErr fl token.type left).map Variant.dbl).getD right)
  else (binaryOperands fl expression token left right).map Variant.dbl

def evalExecuteOpBinary (expression : List Char) (token : EvalToken D) :
    List (Variant D) → Except String (List (Variant D))
  | right :: left :: output =>
    (binaryOperand fl expression token left right).map fun value => value :: output
  | _ => .error (quoted "binary operator requires two operands at" expression token.loc.l)

def unescape : List Char → List Char
  | '\\' :: c :: rest => c :: unescape rest
  | ['\\'] => ['"']
  | c :: rest => c :: unescape rest
  | [] => []

/-- `zbx_is_uint64_n` on the whole of `text`. -/
def zbxIsUint64 (text : List Char) : Option UInt64 :=
  if text ≠ [] ∧ text.all isdigit then
    let value := text.foldl (fun n c => 10 * n + (c.toNat - '0'.toNat)) 0
    if value < 2 ^ 64 then some (UInt64.ofNat value) else none
  else none

/-- What `eval_execute_push_value` reads from the expression for a token without a value. -/
def literalValue (expression : List Char) (token : EvalToken D) : Variant D :=
  let text := (expression.drop token.loc.l).take (token.loc.r - token.loc.l + 1)
  if token.type = .parsed varNum then
    match zbxIsUint64 text with
    | some value => .ui64 value
    | none => .dbl (fl.mul (fl.atof (expression.drop token.loc.l))
        (fl.ofUInt64 (suffix2factor (charAt (expression.drop token.loc.r)))))
  else if token.type = .parsed varStr then .str (unescape text.tail.dropLast)
  else .str text

def evalExecutePushValue (ctx : ExecContext D) (token : EvalToken D) (output : List (Variant D)) :
    Except String (List (Variant D)) :=
  match token.value with
  | .none => .ok (literalValue fl ctx.expression token :: output)
  | .err message =>
    if ctx.processError then .ok (.err message :: output) else .error (String.ofList message)
  | value =>
    if token.type = .parsed varUsermacro then
      .ok ((variantConvertSuffixedNum fl value).getD value :: output)
    else .ok (value :: output)

abbrev Functions (D : Type) := EvalToken D → List (Variant D) → Except String (List (Variant D))

def executeToken (functions : Functions D) (ctx : ExecContext D) (token : EvalToken D)
    (output : List (Variant D)) : Except String (List (Variant D)) :=
  match token.type with
  | .nop => .ok output
  | .tagExpression => .error (quoted "unknown token at" ctx.expression token.loc.l)
  | .parsed type =>
    if type.isOperator1 then evalExecuteOpUnary fl ctx.expression token output
    else if type.isOperator2 then evalExecuteOpBinary fl ctx.expression token output
    else
      match type with
      | varNum | varStr | varMacro | varUsermacro | argQuery | argPeriod =>
        evalExecutePushValue fl ctx token output
      | argNull => .ok (.none :: output)
      | function | histFunction => functions token output
      | functionid =>
        match token.value with
        | .none => .error "trigger history functions must be pre-calculated"
        | _ => evalExecutePushValue fl ctx token output
      | _ => .error (quoted "unknown token at" ctx.expression token.loc.l)

def executeTokens (functions : Functions D) (ctx : ExecContext D) :
    List (EvalToken D) → List (Variant D) → Except String (List (Variant D))
  | [], output => .ok output
  | token :: tokens, output =>
    (executeToken fl functions ctx token output).bind fun output =>
      executeTokens functions ctx tokens output

def executeError (message : String) : String :=
  if ('a' ≤ charAt message.toList ∧ charAt message.toList ≤ 'z') then
    "Cannot evaluate expression: " ++ message
  else message

def evalExecute (functions : Functions D) (ctx : ExecContext D) : Except String (Variant D) :=
  match executeTokens fl functions ctx ctx.stack [] with
  | .error message => .error (executeError message)
  | .ok [.err message] => .error (executeError (String.ofList message))
  | .ok [value] => .ok value
  | .ok _ => .error (executeError "output stack after expression execution must contain one value")

end Execute

section Masking

variable {D : Type} {fl : Floating D} {functions : Functions D} {ctx : ExecContext D}
  {token token' : EvalToken D} {a b x y : Variant D} {s t s' t' : List (Variant D)}

def Masks (a b : Variant D) : Prop := a.isErr = true ∨ a = b

theorem Masks.eq (h : Masks a b) (ha : a.isErr = false) : a = b := by
  rcases h with herr | heq
  · rw [ha] at herr
    cases herr
  · exact heq

theorem evalExecuteOpUnary_masks (hs : List.Forall₂ Masks s t)
    (hs' : evalExecuteOpUnary fl expression token s = .ok s')
    (ht' : evalExecuteOpUnary fl expression token t = .ok t') : List.Forall₂ Masks s' t' := by
  cases hs with
  | nil => cases hs'
  | @cons a b s t hab hst =>
    obtain ⟨v, hv, rfl⟩ := map_eq_ok hs'
    obtain ⟨w, hw, rfl⟩ := map_eq_ok ht'
    refine .cons ?_ hst
    by_cases ha : a.isErr = true
    · unfold unaryOperand at hv
      rw [if_pos ha] at hv
      obtain rfl := Except.ok.inj hv
      exact .inl ha
    · obtain rfl := hab.eq (by simpa using ha)
      rw [hv] at hw
      exact .inr (Except.ok.inj hw)

variable {d : D}

theorem logicErr_cases {type : StackType} (h : evalExecuteOpLogicErr fl type x = some d) :
    x.isErr = false ∧ ∃ n, variantToDbl fl x = some n ∧
      ((type = .parsed opAnd ∧ fl.equal n fl.zero = true ∧ d = fl.zero) ∨
        (type = .parsed opOr ∧ fl.equal n fl.zero = false ∧ d = fl.one)) := by
  unfold evalExecuteOpLogicErr at h
  split at h
  · cases h
  · next hx =>
    obtain ⟨n, hn, hd⟩ := Option.bind_eq_some_iff.mp h
    refine ⟨by simpa using hx, n, hn, ?_⟩
    split at hd
    · split at hd
      · next hzero => exact .inl ⟨rfl, hzero, (Option.some.inj hd).symm⟩
      · cases hd
    · split at hd
      · cases hd
      · next hzero => exact .inr ⟨rfl, by simpa using hzero, (Option.some.inj hd).symm⟩
    · cases hd

variable {v : D}

theorem binaryOperands_logic (htype : token.type = .parsed opAnd ∨ token.type = .parsed opOr)
    (h : binaryOperands fl expression token a b = .ok v) :
    ∃ m n, variantToDbl fl a = some m ∧ variantToDbl fl b = some n ∧
      binaryValue fl token.type m n = some v := by
  unfold binaryOperands at h
  rw [if_neg (by rcases htype with htype | htype <;> simp [htype])] at h
  split at h
  · cases h
  · cases h
  · next m n hm hn =>
    refine ⟨m, n, hm, hn, ?_⟩
    split at h
    · cases h
    · next value hvalue =>
      split at h
      · obtain rfl := Except.ok.inj h
        exact hvalue
      · cases h

theorem logicErr_right (hd : evalExecuteOpLogicErr fl token.type x = some d)
    (hv : binaryOperands fl expression token a x = .ok v) : v = d := by
  obtain ⟨-, n, hn, hcases⟩ := logicErr_cases hd
  obtain ⟨m, n', -, hn', hvalue⟩ := binaryOperands_logic (hcases.imp And.left And.left) hv
  obtain rfl : n = n' := Option.some.inj (hn.symm.trans hn')
  rcases hcases with ⟨htype, hzero, rfl⟩ | ⟨htype, hzero, rfl⟩
  all_goals
    rw [htype] at hvalue
    simpa [binaryValue, hzero, Floating.ofBool] using hvalue.symm

theorem logicErr_left (hd : evalExecuteOpLogicErr fl token.type x = some d)
    (hv : binaryOperands fl expression token x a = .ok v) : v = d := by
  obtain ⟨-, n, hn, hcases⟩ := logicErr_cases hd
  obtain ⟨n', m, hn', -, hvalue⟩ := binaryOperands_logic (hcases.imp And.left And.left) hv
  obtain rfl : n = n' := Option.some.inj (hn.symm.trans hn')
  rcases hcases with ⟨htype, hzero, rfl⟩ | ⟨htype, hzero, rfl⟩
  all_goals
    rw [htype] at hvalue
    simpa [binaryValue, hzero, Floating.ofBool] using hvalue.symm

theorem binaryOperand_masks {v w : Variant D} (hab : Masks a b) (hxy : Masks x y)
    (hv : binaryOperand fl expression token a x = .ok v)
    (hw : binaryOperand fl expression token b y = .ok w) : Masks v w := by
  by_cases ha : a.isErr = true
  · -- the left operand is unknown
    unfold binaryOperand at hv
    rw [if_pos ha] at hv
    obtain rfl := Except.ok.inj hv
    cases hd : evalExecuteOpLogicErr fl token.type x with
    | none => exact .inl ha
    | some d =>
      have hx := (logicErr_cases hd).1
      obtain rfl := hxy.eq hx
      refine .inr ?_
      unfold binaryOperand at hw
      split at hw
      · rw [hd] at hw
        exact Except.ok.inj hw
      · rw [if_neg (by simp [hx])] at hw
        obtain ⟨n, hn, rfl⟩ := map_eq_ok hw
        rw [logicErr_right hd hn]
        rfl
  · obtain rfl := hab.eq (by simpa using ha)
    by_cases hx : x.isErr = true
    · -- only the right operand is unknown
      unfold binaryOperand at hv
      rw [if_neg ha, if_pos hx] at hv
      obtain rfl := Except.ok.inj hv
      cases hd : evalExecuteOpLogicErr fl token.type a with
      | none => exact .inl hx
      | some d =>
        refine .inr ?_
        unfold binaryOperand at hw
        rw [if_neg ha] at hw
        split at hw
        · rw [hd] at hw
          exact Except.ok.inj hw
        · obtain ⟨n, hn, rfl⟩ := map_eq_ok hw
          rw [logicErr_left hd hn]
          rfl
    · obtain rfl := hxy.eq (by simpa using hx)
      rw [hv] at hw
      exact .inr (Except.ok.inj hw)

theorem evalExecuteOpBinary_masks (hs : List.Forall₂ Masks s t)
    (hs' : evalExecuteOpBinary fl expression token s = .ok s')
    (ht' : evalExecuteOpBinary fl expression token t = .ok t') : List.Forall₂ Masks s' t' := by
  rcases hs with _ | ⟨hxy, _ | ⟨hab, hst⟩⟩
  · cases hs'
  · cases hs'
  · obtain ⟨v, hv, rfl⟩ := map_eq_ok hs'
    obtain ⟨w, hw, rfl⟩ := map_eq_ok ht'
    exact .cons (binaryOperand_masks hab hxy hv hw) hst

def EvalToken.Masks (token token' : EvalToken D) : Prop :=
  token' = token ∨ token.value.isErr = true ∧ ∃ value, token' = { token with value }

def EvalToken.IsCalculation (token : EvalToken D) : Prop :=
  ∃ type, token.type = .parsed type ∧ type.isFunction = false

theorem push_eq_cons {r : List (Variant D)} (h : evalExecutePushValue fl ctx token s = .ok r) :
    ∃ v, r = v :: s ∧ ∀ t, evalExecutePushValue fl ctx token t = .ok (v :: t) := by
  unfold evalExecutePushValue at h ⊢
  split at h
  · exact ⟨_, (Except.ok.inj h).symm, fun _ => rfl⟩
  · split at h
    · next hprocess => exact ⟨_, (Except.ok.inj h).symm, fun _ => if_pos hprocess⟩
    · cases h
  · split at h
    · next htype => exact ⟨_, (Except.ok.inj h).symm, fun _ => if_pos htype⟩
    · next htype => exact ⟨_, (Except.ok.inj h).symm, fun _ => if_neg htype⟩

theorem evalExecutePushValue_masks (htokens : token.Masks token') (hs : List.Forall₂ Masks s t)
    (hs' : evalExecutePushValue fl ctx token s = .ok s')
    (ht' : evalExecutePushValue fl ctx token' t = .ok t') : List.Forall₂ Masks s' t' := by
  obtain ⟨v, rfl, hv⟩ := push_eq_cons hs'
  obtain ⟨w, rfl, hw⟩ := push_eq_cons ht'
  refine .cons ?_ hs
  rcases htokens with rfl | ⟨herr, -⟩
  · have heq := (hv t).symm.trans ht'
    exact .inr (List.cons.inj (Except.ok.inj heq)).1
  · cases hvalue : token.value with
    | err message =>
      unfold evalExecutePushValue at hs'
      rw [hvalue] at hs'
      dsimp only at hs'
      split at hs'
      · obtain ⟨rfl, -⟩ := List.cons.inj (Except.ok.inj hs')
        exact .inl rfl
      · cases hs'
    | _ =>
      rw [hvalue] at herr
      cases herr

theorem executeToken_masks (hcalc : token.IsCalculation) (htokens : token.Masks token')
    (hs : List.Forall₂ Masks s t) (hs' : executeToken fl functions ctx token s = .ok s')
    (ht' : executeToken fl functions ctx token' t = .ok t') : List.Forall₂ Masks s' t' := by
  obtain ⟨type, htype, hfunction⟩ := hcalc
  have htype' : token'.type = .parsed type := by
    rcases htokens with rfl | ⟨-, value, rfl⟩ <;> exact htype
  unfold executeToken at hs' ht'
  rw [htype] at hs'
  rw [htype'] at ht'
  dsimp only at hs' ht'
  split at hs'
  · next hoperator =>
    rw [if_pos hoperator] at ht'
    refine evalExecuteOpUnary_masks hs hs' ?_
    rcases htokens with rfl | ⟨-, value, rfl⟩ <;> exact ht'
  · next hunary =>
    rw [if_neg hunary] at ht'
    split at hs'
    · next hoperator =>
      rw [if_pos hoperator] at ht'
      refine evalExecuteOpBinary_masks hs hs' ?_
      rcases htokens with rfl | ⟨-, value, rfl⟩ <;> exact ht'
    · next hbinary =>
      rw [if_neg hbinary] at ht'
      cases type with
      | varNum | varStr | varMacro | varUsermacro | argQuery | argPeriod =>
        exact evalExecutePushValue_masks htokens hs hs' ht'
      | argNull =>
        obtain rfl := Except.ok.inj hs'
        obtain rfl := Except.ok.inj ht'
        exact .cons (.inr rfl) hs
      | functionid =>
        dsimp only at hs' ht'
        split at hs'
        · cases hs'
        · split at ht'
          · cases ht'
          · exact evalExecutePushValue_masks htokens hs hs' ht'
      | function | histFunction => cases hfunction
      | _ => cases hs'

theorem executeTokens_masks {tokens tokens' : List (EvalToken D)}
    (hcalc : ∀ token ∈ tokens, token.IsCalculation)
    (htokens : List.Forall₂ EvalToken.Masks tokens tokens') (hs : List.Forall₂ Masks s t)
    (hs' : executeTokens fl functions ctx tokens s = .ok s')
    (ht' : executeTokens fl functions ctx tokens' t = .ok t') : List.Forall₂ Masks s' t' := by
  induction htokens generalizing s t with
  | nil =>
    obtain rfl := Except.ok.inj hs'
    obtain rfl := Except.ok.inj ht'
    exact hs
  | @cons token token' tokens tokens' htoken _ ih =>
    unfold executeTokens at hs' ht'
    cases hp : executeToken fl functions ctx token s with
    | error => rw [hp] at hs'; cases hs'
    | ok p =>
      cases hq : executeToken fl functions ctx token' t with
      | error => rw [hq] at ht'; cases ht'
      | ok q =>
        rw [hp] at hs'
        rw [hq] at ht'
        have hpq := executeToken_masks (hcalc token (List.mem_cons_self ..)) htoken hs hp hq
        exact ih (fun u hu => hcalc u (List.mem_cons_of_mem _ hu)) hpq hs' ht'

theorem executeTokens_stack (ctx : ExecContext D) (stack tokens : List (EvalToken D))
    (s : List (Variant D)) : executeTokens fl functions { ctx with stack } tokens s =
      executeTokens fl functions ctx tokens s := by
  induction tokens generalizing s with
  | nil => rfl
  | cons token tokens ih =>
    unfold executeTokens
    congr 1
    funext output
    exact ih output

theorem evalExecute_eq_ok {v : Variant D} (h : evalExecute fl functions ctx = .ok v) :
    executeTokens fl functions ctx ctx.stack [] = .ok [v] ∧ v.isErr = false := by
  unfold evalExecute at h
  split at h
  · cases h
  · cases h
  · next value hvalue hrun =>
    obtain rfl := Except.ok.inj h
    refine ⟨hrun, ?_⟩
    cases value with
    | err message => exact absurd rfl (hvalue message)
    | _ => rfl
  · cases h

end Masking

/-- A value calculated although operands are unknown is the value for whatever they are. -/
theorem evalExecute_masked {D : Type} (fl : Floating D) (functions : Functions D)
    (expression : List Char) (processError : Bool) {tokens tokens' : List (EvalToken D)}
    (hcalc : ∀ token ∈ tokens, token.IsCalculation)
    (htokens : List.Forall₂ EvalToken.Masks tokens tokens') {v v' : Variant D}
    (h : evalExecute fl functions ⟨expression, processError, tokens⟩ = .ok v)
    (h' : evalExecute fl functions ⟨expression, processError, tokens'⟩ = .ok v') : v' = v := by
  obtain ⟨hrun, hv⟩ := evalExecute_eq_ok h
  obtain ⟨hrun', -⟩ := evalExecute_eq_ok h'
  rw [show executeTokens fl functions ⟨expression, processError, tokens'⟩ tokens' [] =
    executeTokens fl functions ⟨expression, processError, tokens⟩ tokens' [] from
      executeTokens_stack ⟨expression, processError, tokens⟩ tokens' tokens' []] at hrun'
  cases executeTokens_masks hcalc htokens .nil hrun hrun' with
  | cons hmasks => exact (hmasks.eq hv).symm

def wholeNumbers : Floating ℤ where
  zero := 0
  one := 1
  neg x := -x
  add x y := x + y
  sub x y := x - y
  mul x y := x * y
  div x y := x / y
  ofUInt64 n := n.toNat
  equal x y := x = y
  lt x y := x < y
  regular _ := true
  isDouble text := (zbxIsUint64 text).map fun n => n.toNat
  atof text := (text.takeWhile isdigit).foldl (fun n c => 10 * n + (c.toNat - '0'.toNat)) 0
  desc x := (toString x).toList

/-- The tokens of `{1} and {2}` with a value for each of the two functions. -/
def andTokens (left right : Variant ℤ) : List (EvalToken ℤ) :=
  [⟨.parsed functionid, 0, ⟨0, 2⟩, left⟩, ⟨.parsed functionid, 1, ⟨8, 10⟩, right⟩,
    ⟨.parsed opAnd, 0, ⟨4, 6⟩, .none⟩]

theorem andTokens_calculation (left right : Variant ℤ) :
    ∀ token ∈ andTokens left right, token.IsCalculation := by
  intro token htoken
  simp only [andTokens, List.mem_cons, List.not_mem_nil, or_false] at htoken
  rcases htoken with rfl | rfl | rfl <;> exact ⟨_, rfl, rfl⟩

theorem andTokens_masks (left left' right : Variant ℤ) (h : left.isErr = true) :
    List.Forall₂ EvalToken.Masks (andTokens left right) (andTokens left' right) :=
  .cons (.inr ⟨h, left', rfl⟩) (.cons (.inl rfl) (.cons (.inl rfl) .nil))

theorem evalExecute_masked_and :
    ∃ v v', evalExecute wholeNumbers (fun _ _ => .error "Unknown function")
        ⟨"{1} and {2}".toList, true, andTokens (.err "no data".toList) (.ui64 0)⟩ = .ok v ∧
      evalExecute wholeNumbers (fun _ _ => .error "Unknown function")
        ⟨"{1} and {2}".toList, true, andTokens (.ui64 5) (.ui64 0)⟩ = .ok v' ∧ v' = v := by
  have hmasks := andTokens_masks (.err "no data".toList) (.ui64 5) (.ui64 0) rfl
  refine ⟨.dbl 0, .dbl 0, rfl, rfl, ?_⟩
  exact evalExecute_masked wholeNumbers (fun _ _ => .error "Unknown function")
    "{1} and {2}".toList true (andTokens_calculation _ _) hmasks rfl rfl

end Zabbix.Eval
