import Zabbix.Expr.Text
import Mathlib.Data.Int.Notation

/-!
# Tokens, parsing rules and the parsing context of `zbxeval.h`
-/

namespace Zabbix.Eval

/-- The `ZBX_EVAL_TOKEN_*` types. `classSeparator` is the bare class that
`last_token_type` holds before the first token. -/
inductive TokenType
  | classSeparator
  | opAdd | opSub | opMul | opDiv | opMinus
  | opEq | opLt | opGt | opLe | opGe | opNe
  | opAnd | opOr | opNot
  | varNum | varStr | varMacro | varUsermacro | varLldmacro
  | functionid | function | histFunction
  | groupOpen | groupClose | comma
  | argQuery | argPeriod | argNull
  | propTag | propGroup
  deriving DecidableEq, Repr

namespace TokenType

def isOperand : TokenType → Bool
  | varNum | varStr | varMacro | varUsermacro | varLldmacro | functionid | groupClose
  | argQuery | argPeriod | argNull => true
  | _ => false

def isOperator1 : TokenType → Bool
  | opMinus | opNot => true
  | _ => false

def isOperator2 : TokenType → Bool
  | opAdd | opSub | opMul | opDiv | opEq | opLt | opGt | opLe | opGe | opNe | opAnd
  | opOr => true
  | _ => false

def isOperator (t : TokenType) : Bool := t.isOperator1 || t.isOperator2

def isFunction : TokenType → Bool
  | function | histFunction => true
  | _ => false

def isSeparator : TokenType → Bool
  | classSeparator | groupOpen | comma => true
  | _ => false

def isProperty : TokenType → Bool
  | propTag | propGroup => true
  | _ => false

def beforeOperand (t : TokenType) : Bool := t.isOperator || t.isSeparator

def beforeOperator (t : TokenType) : Bool := t.isOperand || t.isProperty

def priority : TokenType → ℕ
  | opMinus | opNot => 2
  | opMul | opDiv => 3
  | opAdd | opSub => 4
  | opLt | opGt | opLe | opGe => 6
  | opEq | opNe => 7
  | opAnd => 11
  | opOr => 12
  | _ => 0

end TokenType

structure Strloc where
  l : ℕ
  r : ℕ
  deriving DecidableEq, Repr

/-- `zbx_eval_token_t`; the value is `none` while an expression is parsed. -/
structure Token where
  type : TokenType
  opt : ℤ
  loc : Strloc
  deriving DecidableEq, Repr

/-- The `ZBX_EVAL_PARSE_*` flags. -/
structure Rules where
  parseMacro : Bool := false
  usermacro : Bool := false
  lldmacro : Bool := false
  functionid : Bool := false
  itemQuery : Bool := false
  constIndex : Bool := false
  compoundConst : Bool := false
  math : Bool := false
  compareEq : Bool := false
  compareSort : Bool := false
  logic : Bool := false
  varNum : Bool := false
  varStr : Bool := false
  group : Bool := false
  functionArgs : Bool := false
  functionName : Bool := false
  propTag : Bool := false
  propGroup : Bool := false
  strV64Compat : Bool := false
  deriving DecidableEq, Repr

def Rules.property (rules : Rules) : Bool := rules.propTag || rules.propGroup

def evalParseFunction : Rules := { functionName := true, functionArgs := true, group := true }

def evalParseTriggerExpression : Rules :=
  { evalParseFunction with
    parseMacro := true
    usermacro := true
    functionid := true
    math := true
    compareEq := true
    compareSort := true
    logic := true
    varNum := true
    varStr := true }

def evalParseCalcExpression : Rules :=
  { evalParseFunction with
    parseMacro := true
    usermacro := true
    itemQuery := true
    math := true
    compareEq := true
    compareSort := true
    logic := true
    varNum := true
    varStr := true
    compoundConst := true }

/-- The part of `zbx_eval_context_t` that parsing uses. The top of `ops` is its head. -/
structure Context where
  expression : List Char
  rules : Rules
  lastTokenType : TokenType
  constIndex : ℕ
  functionidIndex : ℕ
  stack : List Token
  ops : List Token

/-- The kinds of macros that `eval_parse_constant` distinguishes by `tok.type`. -/
inductive MacroType
  | builtinMacro
  | funcMacro
  | simpleMacro
  | userFuncMacro
  | userMacro
  | lldMacro
  | lldFuncMacro
  | other

/-- What parsing calls outside the library: the macro parsers, each giving the type of a macro and
how far its last character lies behind its first, and whether `strtod` overflows. `below n` is the
memory of the `n`-th token below the stack. -/
structure External where
  tokenParseMacro : List Char → ℕ → Option (MacroType × ℕ)
  tokenParseUserMacro : List Char → ℕ → Option (MacroType × ℕ)
  tokenParseLldMacro : List Char → ℕ → Option (MacroType × ℕ)
  tokenParseNestedMacro : List Char → ℕ → Option (MacroType × ℕ)
  strtodHuge : List Char → Char → Bool
  below : Context → ℕ → Token

end Zabbix.Eval
