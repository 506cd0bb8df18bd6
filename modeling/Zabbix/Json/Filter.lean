import Zabbix.Json.Jsonpath

/-!
# The parser of filter expressions

`jsonpath_parse_expression` with the functions it reads tokens by.
-/

namespace Zabbix.JsonPath

open Zabbix.Expr Zabbix.Json

def jsonpathNext (pnext : List Char) : Except String (List Char) :=
  let dot := charAt pnext = '.'
  let next := if dot then pnext.tail else pnext
  if dot ∧ charAt next = '\x00' then jsonpathError pnext
  else if dot ∧ charAt next ≠ '[' then
    if next.takeWhile isNameChar = [] then jsonpathError pnext
    else .ok (next.dropWhile isNameChar)
  else if charAt next ≠ '[' then jsonpathError pnext
  else
    let next := skipWhitespace next.tail
    let close :=
      if isdigit (charAt next) then some (skipWhitespace (next.dropWhile isdigit))
      else if charAt next ≠ '\'' ∧ charAt next ≠ '"' then none
      else
        let stop := next.tail.dropWhile (· ≠ charAt next)
        if stop = [] then none else some (skipWhitespace stop.tail)
    match close with
    | none => jsonpathError pnext
    | some close => if charAt close ≠ ']' then jsonpathError pnext else .ok close.tail

def pathLoop : ℕ → List Char → Except String (List Char)
  | 0, ptr => .ok ptr
  | fuel + 1, ptr =>
    if charAt ptr = '[' ∨ charAt ptr = '.' then (jsonpathNext ptr).bind (pathLoop fuel)
    else .ok ptr

def jsonpathParsePath (start : List Char) : Option ℕ :=
  match pathLoop start.length start.tail with
  | .ok ptr => some (start.length - ptr.length)
  | .error _ => none

def substringLoop (quotes : Char) : List Char → Option (List Char)
  | [] => none
  | c :: ptr =>
    if c = quotes then some (c :: ptr)
    else if c = '\\' then
      match ptr with
      | [] => none
      | d :: ptr => if d = quotes ∨ d = '\\' then substringLoop quotes ptr else none
    else substringLoop quotes ptr

def jsonpathParseSubstring (start : List Char) : Option ℕ :=
  (substringLoop (charAt start) start.tail).map fun ptr => start.length - ptr.length + 1

section

-- `strtod`: the length of the number it reads and whether that is out of range
variable (strtod : List Char → ℕ × Bool)

def jsonpathParseNumber (start : List Char) : Option ℕ :=
  let sign := if charAt start = '-' ∨ charAt start = '+' then 1 else 0
  (zbxNumberParse (start.drop sign)).bind fun size =>
    let (stop, huge) := strtod start
    if sign + size ≠ stop ∨ huge then none else some (sign + size)

def tokenAt (ptr : List Char) (prevGroup : TokenGroup) : Option (TokenType × ℕ) :=
  let number :=
    if charAt ptr = '-' ∨ isdigit (charAt ptr) then
      (jsonpathParseNumber strtod ptr).map fun len => (TokenType.constNum, len)
    else none
  match charAt ptr with
  | '(' => some (.parenLeft, 1)
  | ')' => some (.parenRight, 1)
  | '+' => some (.opPlus, 1)
  | '-' => if prevGroup = .operand then some (.opMinus, 1) else number
  | '/' => some (.opDiv, 1)
  | '*' => some (.opMult, 1)
  | '!' => if charAt ptr.tail = '=' then some (.opNe, 2) else some (.opNot, 1)
  | '=' =>
    if charAt ptr.tail = '=' then some (.opEq, 2)
    else if charAt ptr.tail = '~' then some (.opRegexp, 2)
    else none
  | '<' => if charAt ptr.tail = '=' then some (.opLe, 2) else some (.opLt, 1)
  | '>' => if charAt ptr.tail = '=' then some (.opGe, 2) else some (.opGt, 1)
  | '|' => if charAt ptr.tail = '|' then some (.opOr, 2) else none
  | '&' => if charAt ptr.tail = '&' then some (.opAnd, 2) else none
  | '@' => (jsonpathParsePath ptr).map fun len => (.pathRelative, len)
  | '$' => (jsonpathParsePath ptr).map fun len => (.pathAbsolute, len)
  | '\'' | '"' => (jsonpathParseSubstring ptr).map fun len => (.constStr, len)
  | _ => number

def jsonpathExpressionNextToken (prevGroup : TokenGroup) (ptr : List Char) :
    Except String (TokenType × List Char × List Char) :=
  let ptr := skipWhitespace ptr
  match tokenAt strtod ptr prevGroup with
  | some (type, len) => .ok (type, ptr.take len, ptr.drop len)
  | none => jsonpathError ptr

end

def pathStep (segment : Segment) : Option PathStep :=
  match segment.data with
  | .matchNames [name] => some (.name name)
  | .matchIndexes [index] => some (.index index)
  | _ => none

/-- `jsonpath_create_token_jsonpath`. A path in an expression has no expression of its own:
`jsonpath_parse_path` goes over names and indexes only. -/
def jsonpathCreateTokenJsonpath (text : List Char) : Except String (List PathStep) :=
  let path := if charAt text = '@' then '$' :: text.tail else text
  (compileWith (fun _ ptr => jsonpathError ptr) path).bind fun path =>
    if !path.definite then
      .error ("only simple path are supported in jsonpath expression: \"" ++ String.ofList text ++
        "\"")
    else if path.segments.getLast?.any (·.data.isFunction) then
      .error ("functions are not supported in jsonpath expression: \"" ++ String.ofList text ++ "\"")
    else .ok (path.segments.filterMap pathStep)

def jsonpathCreateToken (type : TokenType) (text : List Char) : Except String Token :=
  match type with
  | .constStr => .ok { type := type, text := jsonpathUnquote text.tail.dropLast, path := [] }
  | .pathAbsolute | .pathRelative =>
    (jsonpathCreateTokenJsonpath text).map fun path => { type := type, text := text, path := path }
  | .constNum => .ok { type := type, text := text, path := [] }
  | _ => .ok { type := type, text := [], path := [] }

structure ParseState where
  nesting : ℕ
  operators : List Token
  output : List Token
  prevGroup : TokenGroup

/-- Operators and operands go to the output until one binds less than `precedence`. -/
def popOperators (precedence : ℕ) : List Token → List Token → List Token × List Token
  | [], output => ([], output)
  | optoken :: operators, output =>
    if precedence < jsonpathTokenPrecedence optoken.type ∨ optoken.type = .parenLeft then
      (optoken :: operators, output)
    else popOperators precedence operators (output ++ [optoken])

def popParen : List Token → List Token → Option (List Token × List Token)
  | [], _ => none
  | optoken :: operators, output =>
    if optoken.type = .parenLeft then some (operators, output)
    else popParen operators (output ++ [optoken])

/-- What one token leads to: the parser goes on, or the expression is at its end. -/
inductive Outcome
  | more (state : ParseState)
  | finished (state : ParseState)

def parseToken (state : ParseState) (type : TokenType) (text ptr : List Char) :
    Except String Outcome :=
  match jsonpathTokenGroup type with
  | .operand =>
    if state.prevGroup = .operand then jsonpathError ptr
    else
      (jsonpathCreateToken type text).map fun token =>
        .more { state with
          operators := token :: state.operators
          prevGroup := .operand }
  | .operator2 =>
    if state.prevGroup ≠ .operand then jsonpathError ptr
    else
      let (operators, output) :=
        popOperators (jsonpathTokenPrecedence type) state.operators state.output
      (jsonpathCreateToken type text).map fun token =>
        .more { state with
          operators := token :: operators
          output := output
          prevGroup := .operator2 }
  | .operator1 =>
    if state.prevGroup = .operand then jsonpathError ptr
    else
      let (operators, output) :=
        popOperators (jsonpathTokenPrecedence type) state.operators state.output
      (jsonpathCreateToken type text).map fun token =>
        .more { state with
          operators := token :: operators
          output := output
          prevGroup := .operator1 }
  | .none =>
    if type = .parenLeft then
      (jsonpathCreateToken type text).map fun token =>
        .more { state with
          nesting := state.nesting + 1
          operators := token :: state.operators
          prevGroup := .none }
    else if state.prevGroup ≠ .operand then jsonpathError ptr
    else if state.nesting - 1 = 0 then .ok (.finished { state with nesting := 0 })
    else
      match popParen state.operators state.output with
      | none => jsonpathError ptr
      | some (operators, output) =>
        .ok (.more
          { nesting := state.nesting - 1
            operators := operators
            output := output
            prevGroup := .operand })

section

variable (strtod : List Char → ℕ × Bool)

def expressionLoop : ℕ → ParseState → List Char → Except String (ParseState × List Char)
  | 0, _, ptr => jsonpathError ptr
  | fuel + 1, state, ptr =>
    (jsonpathExpressionNextToken strtod state.prevGroup ptr).bind fun (type, text, next) =>
      (parseToken state type text (skipWhitespace ptr)).bind fun
        | .more state => expressionLoop fuel state next
        | .finished state => .ok (state, next)

def flushOperators (expression : List Char) : List Token → List Token → Except String (List Token)
  | [], output => .ok output
  | optoken :: operators, output =>
    if optoken.type = .parenLeft then
      .error ("mismatched () brackets in expression: " ++ String.ofList expression)
    else flushOperators expression operators (output ++ [optoken])

/-- `jsonpath_parse_expression` up to the index: the tokens in postfix notation and the pointer
behind the expression. -/
def parseExpressionTokens (expression : List Char) : Except String (List Token × List Char) :=
  if charAt expression ≠ '(' then jsonpathError expression
  else
    let state : ParseState := { nesting := 1, operators := [], output := [], prevGroup := .none }
    (expressionLoop strtod expression.length state expression.tail).bind fun (state, next) =>
      (flushOperators expression state.operators state.output).map fun output => (output, next)

end

inductive IndexValueType
  | const
  | value
  | path
  | pathOp
  deriving DecidableEq

structure IndexValue where
  type : IndexValueType
  indexToken : Option Token
  valueToken : Option Token

def indexBinary (type : TokenType) (left right : IndexValue) : IndexValue :=
  match type with
  | .opEq =>
    if (left.type = .path ∨ right.type = .path) ∧ (left.type = .const ∨ right.type = .const) then
      if right.type = .const then
        { left with
          type := .pathOp
          valueToken := right.valueToken }
      else
        { left with
          type := .pathOp
          indexToken := right.indexToken }
    else { left with type := .value }
  | .opAnd =>
    let left := if left.type = .path then { left with type := .value } else left
    let right := if right.type = .path then { right with type := .value } else right
    if left.type = .pathOp ∧ right.type = .pathOp then left
    else if (left.type = .pathOp ∨ right.type = .pathOp) ∧
        (left.type = .value ∨ right.type = .value) then
      if left.type ≠ .pathOp then right else left
    else { left with type := .value }
  | _ => { type := .value, indexToken := none, valueToken := none }

def indexLoop : List IndexValue → List Token → Option (List IndexValue)
  | stack, [] => some stack
  | stack, token :: tokens =>
    match token.type with
    | .opNot =>
      match stack with
      | [] => none
      | _ :: stack =>
        indexLoop ({ type := .value, indexToken := none, valueToken := none } :: stack) tokens
    | .pathRelative =>
      indexLoop ({ type := .path, indexToken := some token, valueToken := none } :: stack) tokens
    | .pathAbsolute =>
      indexLoop ({ type := .value, indexToken := none, valueToken := none } :: stack) tokens
    | .constStr | .constNum =>
      indexLoop ({ type := .const, indexToken := none, valueToken := some token } :: stack) tokens
    | type =>
      match stack with
      | right :: left :: stack => indexLoop (indexBinary type left right :: stack) tokens
      | _ => none

def jsonpathExpressionPrepareIndex (tokens : List Token) : Expression :=
  match indexLoop [] tokens with
  | some [top] =>
    if top.type = .pathOp then
      { tokens := tokens, indexToken := top.indexToken, valueToken := top.valueToken }
    else { tokens := tokens, indexToken := none, valueToken := none }
  | _ => { tokens := tokens, indexToken := none, valueToken := none }

def jsonpathParseExpression (strtod : List Char → ℕ × Bool) (definite : Bool)
    (expression : List Char) : Except String (Expression × List Char) :=
  (parseExpressionTokens strtod expression).map fun (tokens, next) =>
    if definite then (jsonpathExpressionPrepareIndex tokens, next)
    else ({ tokens := tokens, indexToken := none, valueToken := none }, next)

def zbxJsonpathCompile (strtod : List Char → ℕ × Bool) (path : List Char) :
    Except String Jsonpath :=
  compileWith (jsonpathParseExpression strtod) path

end Zabbix.JsonPath
