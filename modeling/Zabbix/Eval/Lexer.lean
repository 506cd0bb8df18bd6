import Zabbix.Eval.Token

/-!
# Reading one token of an expression

`eval_parse_token` and the functions it calls.
-/

namespace Zabbix.Eval

open Zabbix.Expr TokenType

def textFrom (text : List Char) (pos : ℕ) : String := String.ofList (text.drop pos)

def quoted (message : String) (text : List Char) (pos : ℕ) : String :=
  message ++ " \"" ++ textFrom text pos ++ "\""

def Context.at (ctx : Context) (pos : ℕ) : Char := charAt (ctx.expression.drop pos)

def evalGetWhitespaceLen (ctx : Context) (pos : ℕ) : ℕ :=
  ((ctx.expression.drop pos).takeWhile isspace).length

def evalUpdateConstVariable (ctx : Context) (token : Token) : Context × Token :=
  if ctx.rules.constIndex = true ∧ ctx.ops.any (·.type.isFunction) = false then
    ({ ctx with constIndex := ctx.constIndex + 1 }, { token with opt := ctx.constIndex })
  else (ctx, token)

def tokenParseObjectid (text : List Char) (pos : ℕ) : Option ℕ :=
  let digits := (text.drop (pos + 1)).takeWhile isdigit
  if digits ≠ [] ∧ charAt (text.drop (pos + 1 + digits.length)) = '}' then
    some (digits.length + 1)
  else none

def evalParseFunctionid (ctx : Context) (pos : ℕ) : Option (Context × Token) :=
  (tokenParseObjectid ctx.expression pos).map fun len =>
    ({ ctx with functionidIndex := ctx.functionidIndex + 1 },
      ⟨functionid, ctx.functionidIndex, ⟨pos, pos + len⟩⟩)

def evalParseMacro (ext : External) (ctx : Context) (pos : ℕ) : Option (MacroType × ℕ) :=
  let builtin :=
    if ctx.rules.parseMacro = true then ext.tokenParseMacro ctx.expression pos else none
  let user :=
    if ctx.rules.usermacro = true ∧ ctx.at (pos + 1) = '$' then
      ext.tokenParseUserMacro ctx.expression pos
    else none
  let lld :=
    if ctx.rules.lldmacro = true ∧ ctx.at (pos + 1) = '#' then
      ext.tokenParseLldMacro ctx.expression pos
    else none
  let nested :=
    if ctx.at (pos + 1) = '{' then ext.tokenParseNestedMacro ctx.expression pos else none
  builtin <|> user <|> lld <|> nested

/-- `eval_parse_number` and the number part of `eval_parse_number_token`: the length of the
number at `pos`, a leading minus included. -/
def evalParseNumber (ext : External) (ctx : Context) (pos : ℕ) : Option ℕ :=
  let offset := if ctx.at pos = '-' then 1 else 0
  (zbxSuffixedNumberParse (ctx.expression.drop (pos + offset))).bind fun n =>
    let len := n + offset
    if ext.strtodHuge (ctx.expression.drop pos) (ctx.at (pos + len - 1)) then none else some len

def evalIsCompoundNumberChar (c : Char) (pos : ℕ) : Bool :=
  isdigit c || c = '.' || c = '{' || ((c = 'e' || c = 'E') && pos ≠ 0)

def constantMacroType : MacroType → Option TokenType
  | .builtinMacro | .funcMacro | .simpleMacro => some varMacro
  | .userFuncMacro | .userMacro => some varUsermacro
  | .lldMacro | .lldFuncMacro => some varLldmacro
  | .other => none

def constantLoop (ext : External) (ctx : Context) (pos : ℕ) :
    ℕ → ℕ → Option TokenType → Bool → Option TokenType × ℕ
  | 0, offset, type, _ => (type, offset)
  | fuel + 1, offset, type, afterNumber =>
    let next (offset : ℕ) (type : Option TokenType) (afterNumber : Bool) :=
      if ctx.rules.compoundConst = true then constantLoop ext ctx pos fuel offset type afterNumber
      else (type, offset)
    if ctx.at offset = '{' then
      match evalParseMacro ext ctx offset with
      | none => (type, offset)
      | some (kind, len) =>
        let type := if offset = pos then constantMacroType kind <|> type else some varNum
        let offset := offset + len + 1
        if ctx.at offset ∈ zbxUnitSymbols then (some varNum, offset + 1)
        else next offset type false
    else
      match if afterNumber then none else evalParseNumber ext ctx offset with
      | some len => next (offset + len) (some varNum) true
      | none =>
        if evalIsCompoundNumberChar (ctx.at offset) (offset - pos) then
          next (offset + 1) type afterNumber
        else (type, offset)

def evalParseConstant (ext : External) (ctx : Context) (pos : ℕ) :
    Except String (Context × Token) :=
  match constantLoop ext ctx pos (ctx.expression.length + 1) pos none false with
  | (none, _) => .error (quoted "invalid token starting with" ctx.expression pos)
  | (some type, offset) =>
    if type = varNum ∧ ctx.rules.varNum = false then
      .error (quoted "invalid token starting with" ctx.expression pos)
    else
      let token : Token := ⟨type, 0, ⟨pos, offset - 1⟩⟩
      if type = varNum ∨ type = varUsermacro then .ok (evalUpdateConstVariable ctx token)
      else .ok (ctx, token)

def evalParseCharacterToken (pos : ℕ) (type : TokenType) : Token := ⟨type, 0, ⟨pos, pos⟩⟩

def evalParseLessCharacterToken (ctx : Context) (pos : ℕ) : Option Token :=
  if ctx.rules.compareEq = true ∧ ctx.at (pos + 1) = '>' then some ⟨opNe, 0, ⟨pos, pos + 1⟩⟩
  else if ctx.rules.compareSort = false then none
  else if ctx.at (pos + 1) ≠ '=' then some (evalParseCharacterToken pos opLt)
  else some ⟨opLe, 0, ⟨pos, pos + 1⟩⟩

def evalParseGreaterCharacterToken (ctx : Context) (pos : ℕ) : Token :=
  if ctx.at (pos + 1) = '=' then ⟨opGe, 0, ⟨pos, pos + 1⟩⟩ else evalParseCharacterToken pos opGt

/-- The loop of `eval_parse_string_token` from `pos` on: the position of the closing quote; an error
has that of an invalid escape. -/
def stringEnd (compat : Bool) (pos : ℕ) : List Char → Except (Option ℕ) ℕ
  | [] => .error none
  | '"' :: _ => .ok pos
  | '\\' :: rest =>
    if compat = false ∧ charAt rest ≠ '"' ∧ charAt rest ≠ '\\' then .error (some pos)
    else if compat = true ∧ charAt rest ≠ '"' then stringEnd compat (pos + 1) rest
    else
      match rest with
      | [] => .error none
      | _ :: rest => stringEnd compat (pos + 2) rest
  | _ :: rest => stringEnd compat (pos + 1) rest

def evalParseStringToken (ctx : Context) (pos : ℕ) : Except String (Context × Token) :=
  match stringEnd ctx.rules.strV64Compat (pos + 1) (ctx.expression.drop (pos + 1)) with
  | .ok r => .ok (evalUpdateConstVariable ctx ⟨varStr, 0, ⟨pos, r⟩⟩)
  | .error none => .error (quoted "unterminated string at" ctx.expression pos)
  | .error (some escape) =>
    .error (quoted "invalid escape sequence in string starting with" ctx.expression escape)

def evalParseNumberToken (ext : External) (ctx : Context) (pos : ℕ) : Option (Context × Token) :=
  (evalParseNumber ext ctx pos).map fun len =>
    evalUpdateConstVariable ctx ⟨varNum, 0, ⟨pos, pos + len - 1⟩⟩

/-- The keyword at `pos`: `and`, `or` or `not`, followed by whitespace or a parenthesis. -/
def evalParseLogicToken (ctx : Context) (pos : ℕ) : Option Token :=
  let text := ctx.expression.drop pos
  let keyword :=
    if ['a', 'n', 'd'] <+: text then some (opAnd, 3)
    else if ['o', 'r'] <+: text then some (opOr, 2)
    else if ['n', 'o', 't'] <+: text then some (opNot, 3)
    else none
  keyword.bind fun (type, len) =>
    if ctx.at (pos + len) = '(' ∨ isspace (ctx.at (pos + len)) = true then
      some ⟨type, 0, ⟨pos, pos + len - 1⟩⟩
    else none

def isFunctionChar (c : Char) : Bool := isalpha c || c = '_' || isdigit c

def evalParseFunctionToken (ctx : Context) (pos : ℕ) : Option Token :=
  let len := ((ctx.expression.drop pos).takeWhile isFunctionChar).length
  if ctx.at (pos + len) = '(' then some ⟨function, ctx.stack.length, ⟨pos, pos + len - 1⟩⟩
  else none

/-- The loop of `eval_parse_query_filter` behind the opening bracket: the text after the closing
one. The flags tell where in a quoted string it is. -/
def queryFilterEnd : Bool → Bool → List Char → Option (List Char)
  | _, _, [] => none
  | true, true, _ :: rest => queryFilterEnd true false rest
  | true, false, c :: rest =>
    if c = '"' then queryFilterEnd false false rest
    else queryFilterEnd true (c = '\\') rest
  | false, _, c :: rest =>
    if c = ']' then some rest
    else queryFilterEnd (c = '"') false rest

def queryMacroLen (name text : List Char) : ℕ :=
  if name <+: text then
    let rest := text.drop name.length
    if charAt rest = '}' then name.length + 1
    else if isdigit (charAt rest) = true ∧ charAt rest.tail = '}' then name.length + 2
    else 0
  else 0

def evalParseQuery (str : List Char) : ℕ :=
  let host := str.tail
  let key :=
    if charAt host = '*' then host.tail
    else if charAt host = '{' then host.drop (queryMacroLen "\x7bHOST.HOST".toList host)
    else if charAt host ≠ '/' then host.dropWhile zbxIsHostnameChar
    else host
  if charAt key ≠ '/' then 0
  else
    let key := key.tail
    let rest :=
      if charAt key = '*' then some key.tail
      else if charAt key = '{' then some (key.drop (queryMacroLen "\x7bITEM.KEY".toList key))
      else zbxParseKey key
    let rest := rest.bind fun rest =>
      if charAt rest ≠ '?' then some rest
      else if charAt rest.tail ≠ '[' then none
      else queryFilterEnd false false (rest.drop 2)
    match rest with
    | none => 0
    | some rest => str.length - rest.length

def evalParseQueryToken (ctx : Context) (pos : ℕ) : Except String Token :=
  let len := evalParseQuery (ctx.expression.drop pos)
  if len = 0 then .error (quoted "invalid item query starting at" ctx.expression pos)
  else .ok ⟨argQuery, 0, ⟨pos, pos + len - 1⟩⟩

def periodEnd (ext : External) (ctx : Context) : ℕ → ℕ → Option ℕ
  | 0, _ => none
  | fuel + 1, offset =>
    let c := ctx.at offset
    if ctx.expression.length ≤ offset then none
    else if c = '{' ∧ ctx.rules.compoundConst = true then
      match evalParseMacro ext ctx offset with
      | some (_, len) => periodEnd ext ctx fuel (offset + len + 1)
      | none => periodEnd ext ctx fuel (offset + 1)
    else if c = ',' ∨ c = ')' ∨ isspace c = true then some offset
    else periodEnd ext ctx fuel (offset + 1)

def evalParsePeriodToken (ext : External) (ctx : Context) (pos : ℕ) : Except String Token :=
  match periodEnd ext ctx (ctx.expression.length + 1) pos with
  | some offset => .ok ⟨argPeriod, 0, ⟨pos, offset - 1⟩⟩
  | none => .error (quoted "unterminated function at" ctx.expression pos)

def evalParsePropertyToken (ctx : Context) (pos : ℕ) : Option Token :=
  let text := ctx.expression.drop pos
  if ctx.rules.propTag = true ∧ ['t', 'a', 'g'] <+: text then some ⟨propTag, 0, ⟨pos, pos + 2⟩⟩
  else if ctx.rules.propGroup = true ∧ ['g', 'r', 'o', 'u', 'p'] <+: text then
    some ⟨propGroup, 0, ⟨pos, pos + 4⟩⟩
  else none

/-- `ctx->stack.values[ctx->stack.values_num - n]`, also below the start of the stack. -/
def Context.fromTop (ext : External) (ctx : Context) (n : ℕ) : Token :=
  if n ≤ ctx.stack.length then (ctx.stack.reverse[n - 1]?).getD (ext.below ctx n)
  else ext.below ctx (n - ctx.stack.length)

def Context.afterQuery (ext : External) (ctx : Context) : Bool :=
  ctx.lastTokenType = comma && (ctx.fromTop ext 1).type = argQuery

/-- The token below the top of `ops` becomes a history function. -/
def setHistFunction : List Token → Option (List Token)
  | top :: func :: ops =>
    if func.type.isFunction then some (top :: { func with type := histFunction } :: ops) else none
  | _ => none

/-- The default branch of `eval_parse_token`; `skip` is the number of blanks before `pos`. -/
def evalParseWord (ctx : Context) (skip pos : ℕ) : Option Token :=
  let logic :=
    if ctx.rules.logic = true ∧
        (skip ≠ 0 ∨ ctx.lastTokenType.isSeparator = true ∨ ctx.lastTokenType = groupClose) then
      evalParseLogicToken ctx pos
    else none
  let func := if ctx.rules.functionName = true then evalParseFunctionToken ctx pos else none
  let prop := if ctx.rules.property = true then evalParsePropertyToken ctx pos else none
  if isalpha (ctx.at pos) then logic <|> func <|> prop else none

def evalParseTokenAt (ext : External) (ctx : Context) (skip pos : ℕ) :
    Except String (Option (Context × Token)) :=
  let invalid : Except String (Option (Context × Token)) :=
    .error (quoted "invalid token starting with" ctx.expression pos)
  let plain (token : Token) : Except String (Option (Context × Token)) := .ok (some (ctx, token))
  let character (allowed : Bool) (type : TokenType) :=
    if allowed then plain (evalParseCharacterToken pos type) else invalid
  let period := (evalParsePeriodToken ext ctx pos).bind plain
  match ctx.at pos with
  | '{' =>
    if ctx.afterQuery ext then period
    else
      match if ctx.rules.functionid then evalParseFunctionid ctx pos else none with
      | some result => .ok (some result)
      | none => (evalParseConstant ext ctx pos).map some
  | '+' => character ctx.rules.math opAdd
  | '-' =>
    let number :=
      if (ctx.rules.varNum || ctx.rules.varStr) && !ctx.lastTokenType.isOperand then
        evalParseNumberToken ext ctx pos
      else none
    match number with
    | some result => .ok (some result)
    | none => character ctx.rules.math (if ctx.lastTokenType.isOperand then opSub else opMinus)
  | '/' =>
    if ctx.lastTokenType = groupOpen ∧ ctx.rules.itemQuery = true then
      match setHistFunction ctx.ops with
      | none => .error (quoted "item query must be first argument of a historical function at"
          ctx.expression pos)
      | some ops => (evalParseQueryToken ctx pos).map fun token => some ({ ctx with ops }, token)
    else character ctx.rules.math opDiv
  | '*' => character ctx.rules.math opMul
  | '<' =>
    if ctx.rules.compareEq || ctx.rules.compareSort then
      match evalParseLessCharacterToken ctx pos with
      | some token => plain token
      | none => invalid
    else invalid
  | '>' => if ctx.rules.compareSort then plain (evalParseGreaterCharacterToken ctx pos) else invalid
  | '=' => character ctx.rules.compareEq opEq
  | '(' => character ctx.rules.group groupOpen
  | ')' => character ctx.rules.group groupClose
  | '"' => if ctx.rules.varStr then (evalParseStringToken ctx pos).map some else invalid
  | '#' => if ctx.afterQuery ext then period else invalid
  | ',' => character ctx.rules.functionArgs comma
  | '\x00' => .ok none
  | c =>
    if isdigit c = true ∧ ctx.stack ≠ [] ∧ ctx.afterQuery ext = true then period
    else if isdigit c = true ∨ c = '.' then
      if ctx.rules.varNum then (evalParseConstant ext ctx pos).map some else invalid
    else
      match evalParseWord ctx skip pos with
      | some token => plain token
      | none => invalid

def evalParseToken (ext : External) (ctx : Context) (pos : ℕ) :
    Except String (Option (Context × Token)) :=
  evalParseTokenAt ext ctx (evalGetWhitespaceLen ctx pos) (pos + evalGetWhitespaceLen ctx pos)

end Zabbix.Eval
