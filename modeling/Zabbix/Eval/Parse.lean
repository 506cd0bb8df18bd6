import Zabbix.Eval.Lexer

/-!
# Parsing an expression into postfix order

`eval_parse_expression`: the tokens of an expression are moved to the evaluation stack,
operators and functions wait in `ops` until their operands are complete.
-/

namespace Zabbix.Eval

open TokenType

/-- The arguments that `eval_append_operator` counts: what the tokens of the stack behind the
function name leave there. -/
def countParams (tokens : List Token) : ℤ :=
  tokens.foldl (fun params token =>
    if token.type.isFunction then params - (token.opt - 1)
    else if token.type.isOperand then params + 1
    else if token.type.isOperator2 then params - 1
    else params) 0

/-- The checks of `eval_append_operator` on a property and the value it is compared with. -/
def checkProperty (ext : External) (ctx : Context) (token : Token) : Except String Unit :=
  let last := ctx.fromTop ext 1
  let second := ctx.fromTop ext 2
  let compared (prop value : Token) : Except String Unit :=
    if value.type ≠ varStr ∧ value.type ≠ varUsermacro ∧ value.type ≠ varLldmacro then
      .error (quoted "invalid value type compared with property at" ctx.expression prop.loc.l)
    else if token.type ≠ opEq ∧ token.type ≠ opNe then
      .error (quoted "invalid operator used with property at" ctx.expression prop.loc.l)
    else .ok ()
  if last.type.isProperty then
    if ctx.stack.length < 2 then
      .error (quoted "missing comparison string for property at" ctx.expression last.loc.l)
    else if !second.type.isOperand then
      .error (quoted "property must be compared with a constant value at" ctx.expression
        last.loc.l)
    else compared last second
  else if last.type.isOperand ∧ token.type.isOperator2 ∧ second.type.isProperty then
    compared second last
  else .ok ()

def evalAppendOperator (ext : External) (ctx : Context) (token : Token) : Except String Context :=
  let token :=
    if token.type.isFunction then
      { token with opt := countParams (ctx.stack.drop token.opt.toNat) }
    else token
  let appended := { ctx with stack := ctx.stack ++ [token] }
  if ctx.rules.property then (checkProperty ext ctx token).map fun _ => appended
  else .ok appended

def evalAppendOperand (ctx : Context) (token : Token) : Except String Context :=
  let appended := { ctx with stack := ctx.stack ++ [token] }
  let constant (prop : Token) : Except String Context :=
    .error (quoted "property must be compared with a constant value at" ctx.expression prop.loc.l)
  if !ctx.lastTokenType.beforeOperand then
    .error (quoted "operand following another operand at" ctx.expression token.loc.l)
  else if ctx.rules.property then
    -- the operands and properties on top of the stack, and the lowest property among them
    let top := ctx.stack.reverse.takeWhile fun t => t.type.isProperty || t.type.isOperand
    match (top.filter (·.type.isProperty)).getLast? with
    | some prop =>
      if token.type.isProperty ∨ 2 < top.length + 1 then constant prop else .ok appended
    | none => if token.type.isProperty ∧ 2 < top.length + 1 then constant token else .ok appended
  else .ok appended

def evalAppendArgNull (ctx : Context) : Context :=
  { ctx with stack := ctx.stack ++ [⟨argNull, 0, ⟨0, 0⟩⟩] }

/-- The loops that move tokens from `ops` to the stack until `stop` holds of the top. -/
def popOps (ext : External) (stop : Token → Bool) : List Token → Context → Except String Context
  | [], ctx => .ok { ctx with ops := [] }
  | op :: ops, ctx =>
    if stop op then .ok { ctx with ops := op :: ops }
    else (evalAppendOperator ext ctx op).bind (popOps ext stop ops)

def isGroupOpen (token : Token) : Bool := token.type = groupOpen

def commaStep (ext : External) (ctx : Context) (pos : ℕ) : Except String Context :=
  if !ctx.lastTokenType.isOperand && !ctx.lastTokenType.isSeparator then
    .error (quoted "comma must follow an operand or separator at" ctx.expression pos)
  else
    let ctx := if ctx.lastTokenType.isSeparator then evalAppendArgNull ctx else ctx
    -- `optoken` stays `NULL` when there is nothing to pop
    if ctx.ops = [] then
      .error ("missing function argument separator for comma at\"" ++
        textFrom ctx.expression pos ++ "\"")
    else popOps ext isGroupOpen ctx.ops ctx

def closeFunction (ext : External) (ctx : Context) (pos : ℕ) : Except String Context :=
  match ctx.ops with
  | [] => .ok ctx
  | op :: ops =>
    if op.type.isFunction then (evalAppendOperator ext ctx op).map fun ctx => { ctx with ops }
    else if ctx.lastTokenType = groupOpen then
      .error (quoted "parenthesis cannot close empty group at" ctx.expression pos)
    else .ok ctx

def closeStep (ext : External) (ctx : Context) (pos : ℕ) : Except String Context :=
  let last := ctx.lastTokenType
  if !(last.isOperand || last.isProperty || last.isSeparator) &&
      !(ctx.ops[1]?.any fun op => op.type = function) then
    .error (quoted "right parenthesis must follow an operand or left parenthesis at"
      ctx.expression pos)
  else if ctx.ops = [] then
    .error (quoted "missing left parenthesis for right parenthesis at" ctx.expression pos)
  else
    (popOps ext isGroupOpen ctx.ops ctx).bind fun ctx =>
      closeFunction ext { ctx with ops := ctx.ops.tail } pos

def operatorStep (ext : External) (ctx : Context) (pos : ℕ) (token : Token) :
    Except String Context :=
  if token.type.isOperator2 && !ctx.lastTokenType.beforeOperator then
    .error (quoted "binary operator must be used after operand at" ctx.expression pos)
  else if token.type.isOperator1 && !ctx.lastTokenType.beforeOperand then
    .error (quoted "unary operator cannot follow an operand at" ctx.expression pos)
  else
    let stop (op : Token) : Bool :=
      token.type.priority < op.type.priority || token.type.isOperator1 || isGroupOpen op
    (popOps ext stop ctx.ops ctx).map fun ctx => { ctx with ops := token :: ctx.ops }

def dispatchToken (ext : External) (ctx : Context) (pos : ℕ) (token : Token) :
    Except String Context :=
  let push : Context := { ctx with ops := token :: ctx.ops }
  if token.type = groupOpen then
    if !(ctx.lastTokenType.beforeOperand || ctx.lastTokenType.isFunction) then
      .error (quoted "opening parenthesis must follow operator or function at" ctx.expression pos)
    else .ok push
  else if token.type.isFunction then
    if !ctx.lastTokenType.beforeOperand then
      .error (quoted "function must follow operand or unary operator at" ctx.expression pos)
    else .ok push
  else if token.type = comma then commaStep ext ctx pos
  else if token.type = groupClose then closeStep ext ctx pos
  else if token.type.isOperand || token.type.isProperty then evalAppendOperand ctx token
  else if token.type.isOperator then operatorStep ext ctx pos token
  else .ok ctx

def parseStep (ext : External) (ctx : Context) (pos : ℕ) (token : Token) : Except String Context :=
  if 0x7fffffff < token.loc.r then .error "too long expression"
  else if ctx.lastTokenType = argQuery ∧ token.type ≠ comma ∧ token.type ≠ groupClose then
    .error (quoted "invalid expression following query token at" ctx.expression pos)
  else
    let ctx :=
      if token.type = groupClose ∧ ctx.lastTokenType = comma then evalAppendArgNull ctx else ctx
    (dispatchToken ext ctx pos token).map fun ctx => { ctx with lastTokenType := token.type }

/-- The loop of `eval_parse_expression`; `none` when it does not end within `fuel` tokens. -/
def parseLoop (ext : External) : ℕ → Context → ℕ → Option (Except String Context)
  | 0, _, _ => none
  | fuel + 1, ctx, pos =>
    if ctx.expression.length ≤ pos then some (.ok ctx)
    else
      match evalParseToken ext ctx pos with
      | .error error => some (.error error)
      | .ok none => some (.ok ctx)
      | .ok (some (ctx, token)) =>
        match parseStep ext ctx pos token with
        | .error error => some (.error error)
        | .ok ctx => parseLoop ext fuel ctx (token.loc.r + 1)

def parseEnd (ext : External) (ctx : Context) : Except String (List Token) :=
  if ctx.lastTokenType.isOperator then .error "expression ends with operator"
  else if ctx.lastTokenType = comma then .error "expression ends with comma"
  else
    (popOps ext isGroupOpen ctx.ops ctx).bind fun ctx =>
      if ctx.ops ≠ [] then
        .error ("mismatched () brackets in expression: " ++ String.ofList ctx.expression)
      else
        match ctx.stack with
        | [] => .error "empty expression"
        | [prop] =>
          if ctx.rules.property && prop.type.isProperty then
            .error (quoted "missing comparison string for property at" ctx.expression prop.loc.l)
          else .ok ctx.stack
        | _ => .ok ctx.stack

def initialContext (expression : List Char) (rules : Rules) : Context :=
  ⟨expression, rules, classSeparator, 0, 0, [], []⟩

def evalParseExpression (ext : External) (fuel : ℕ) (expression : List Char) (rules : Rules) :
    Option (Except String (List Token)) :=
  (parseLoop ext fuel (initialContext expression rules) 0).map (·.bind (parseEnd ext))

end Zabbix.Eval
