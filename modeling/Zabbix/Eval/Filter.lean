import Zabbix.Eval.Execute

/-!
# Item query filters

`query.c`: the comparisons of a filter become function calls, and the group filter that
preselects items is made by leaving out what is said about tags.
-/

namespace Zabbix.Eval

open Expr TokenType

variable {D : Type}

def EvalToken.isProperty (token : EvalToken D) : Bool :=
  match token.type with
  | .parsed type => type.isProperty
  | _ => false

def EvalToken.isEquality (token : EvalToken D) : Bool :=
  token.type = .parsed opEq || token.type = .parsed opNe

def EvalToken.text (expression : List Char) (token : EvalToken D) : List Char :=
  (expression.drop token.loc.l).take (token.loc.r - token.loc.l + 1)

def preparedOperator (op : EvalToken D) : EvalToken D :=
  { op with type := if op.type = .parsed opNe then .parsed opNot else .nop }

def prepareProperty (prop : EvalToken D) (rest : List (EvalToken D)) :
    EvalToken D × List (EvalToken D) :=
  let between := rest.takeWhile fun token => !token.isEquality
  match rest.drop between.length with
  | [] => (prop, rest)
  | op :: tail =>
    match between.getLast? with
    | none => ({ prop with opt := 1, type := .parsed function }, preparedOperator op :: tail)
    | some func =>
      (func, between.dropLast ++
        { func with opt := 1, type := .parsed function, loc := prop.loc } ::
          preparedOperator op :: tail)

def prepareTokens : ℕ → List (EvalToken D) → List (EvalToken D)
  | 0, tokens => tokens
  | _ + 1, [] => []
  | n + 1, prop :: rest =>
    if prop.isProperty then
      let (prop, rest) := prepareProperty prop rest
      prop :: prepareTokens n rest
    else prop :: prepareTokens n rest

def zbxEvalPrepareFilter (stack : List (EvalToken D)) : List (EvalToken D) :=
  prepareTokens stack.length stack

/-- The simplified stack, and the indexes at which its fragments start, the last one first. -/
structure FilterState (D : Type) where
  stack : List (EvalToken D)
  index : List ℕ

def isTagExpression (stack : List (EvalToken D)) (i : ℕ) : Bool :=
  (stack[i]?).any fun token => token.type = .tagExpression

/-- The first `i + 1` tokens, the last of them being a tag expression. -/
def truncateToTag (stack : List (EvalToken D)) (i : ℕ) : List (EvalToken D) :=
  stack.take i ++ ((stack.drop i).take 1).map fun token => { token with type := .tagExpression }

def evalFilterApplyOp2 (token : EvalToken D) (stack : List (EvalToken D)) (ri li : ℕ)
    (index : List ℕ) : FilterState D :=
  let left := isTagExpression stack li
  let right := isTagExpression stack ri
  if left || right then
    if token.type = .parsed opAnd then
      if left then ⟨stack.take li ++ stack.drop ri, li :: index⟩
      else ⟨stack.dropLast, li :: index⟩
    else ⟨truncateToTag stack li, li :: index⟩
  else ⟨stack ++ [token], li :: index⟩

def evalFilterApplyOp1 (token : EvalToken D) (stack : List (EvalToken D)) (ri : ℕ)
    (index : List ℕ) : FilterState D :=
  if isTagExpression stack ri then ⟨stack, ri :: index⟩ else ⟨stack ++ [token], ri :: index⟩

def evalFilterApplyFunc (expression : List Char) (token : EvalToken D) (s : FilterState D) :
    FilterState D :=
  if token.text expression = "tag".toList then
    match s.index with
    | li :: _ => ⟨truncateToTag s.stack li, s.index⟩
    | [] => s
  else ⟨s.stack ++ [token], s.index⟩

def groupFilterToken (expression : List Char) (token : EvalToken D) (s : FilterState D) :
    Except String (FilterState D) :=
  match token.type with
  | .nop => .ok s
  | .tagExpression => .ok ⟨s.stack ++ [token], s.stack.length :: s.index⟩
  | .parsed type =>
    if type.isOperator2 then
      match s.index with
      | ri :: li :: index => .ok (evalFilterApplyOp2 token s.stack ri li index)
      | _ => .error "not enough values on stack for binary operation"
    else if type.isOperator1 then
      match s.index with
      | ri :: index => .ok (evalFilterApplyOp1 token s.stack ri index)
      | [] => .error "not enough values on stack for unary operation"
    else if type = function then .ok (evalFilterApplyFunc expression token s)
    else .ok ⟨s.stack ++ [token], s.stack.length :: s.index⟩

def groupFilterTokens (expression : List Char) :
    List (EvalToken D) → FilterState D → Except String (FilterState D)
  | [], s => .ok s
  | token :: tokens, s =>
    (groupFilterToken expression token s).bind fun s => groupFilterTokens expression tokens s

def evalOpStr (type : TokenType) : List Char :=
  match type with
  | opEq => "=".toList
  | opNe => "<>".toList
  | opAnd => " and ".toList
  | opOr => " or ".toList
  | opNot => "not ".toList
  | _ => "unsupported operator".toList

def unquoteTail : List Char → List Char
  | [] => []
  | '"' :: _ => []
  | '\\' :: [] => []
  | '\\' :: c :: rest => c :: unquoteTail rest
  | c :: rest => c :: unquoteTail rest

def evalUnquoteStr : List Char → List Char
  | '"' :: rest => unquoteTail rest
  | s => s

def placeholder (n : ℕ) : List Char := '{' :: (toString n).toList ++ ['}']

/-- The texts on the output stack of `eval_generate_filter`, its top first, and the groups. -/
structure GenerateState where
  out : List (List Char)
  groups : List (List Char)

def generateToken (expression : List Char) (token : EvalToken D) (s : GenerateState) :
    Except String GenerateState :=
  match token.type with
  | .nop => .ok s
  | .tagExpression => .ok { s with out := token.text expression :: s.out }
  | .parsed type =>
    if type.isOperator2 then
      match s.out with
      | right :: left :: out =>
        .ok { s with out := ('(' :: left ++ evalOpStr type ++ right ++ [')']) :: out }
      | _ => .error "not enough values on stack for binary operation"
    else if type.isOperator1 then
      match s.out with
      | right :: out => .ok { s with out := (evalOpStr type ++ right) :: out }
      | [] => .error "not enough values on stack for unary operation"
    else if type = function then
      match s.out with
      | value :: out => .ok ⟨placeholder s.groups.length :: out, s.groups ++ [evalUnquoteStr value]⟩
      | [] => .error "not enough values on stack for property comparison"
    else .ok { s with out := token.text expression :: s.out }

def generateTokens (expression : List Char) :
    List (EvalToken D) → GenerateState → Except String GenerateState
  | [], s => .ok s
  | token :: tokens, s =>
    (generateToken expression token s).bind fun s => generateTokens expression tokens s

def evalGenerateFilter (expression : List Char) (stack : List (EvalToken D)) :
    Except String (Option (List Char) × List (List Char)) :=
  if stack = [] then .error "invalid filter expression"
  else if isTagExpression stack 0 then .ok (none, [])
  else
    match generateTokens expression stack ⟨[], []⟩ with
    | .error message => .error message
    | .ok ⟨[filter], groups⟩ => .ok (some filter, groups)
    | .ok _ => .error "too many values left on stack after generating filter expression"

def zbxEvalGetGroupFilter (expression : List Char) (stack : List (EvalToken D)) :
    Except String (Option (List Char) × List (List Char)) :=
  (groupFilterTokens expression stack ⟨[], []⟩).bind fun s => evalGenerateFilter expression s.stack

/-- What filters look at: the groups that the host of an item is in and the tags of the item. -/
structure FilterItem where
  inGroup : List Char → Bool
  tags : List (List Char × List Char)

def expressionItemCheckTag (item : FilterItem) (tag : List Char) : Bool :=
  let name := tag.takeWhile (· ≠ ':')
  let value := tag.drop (name.length + 1)
  item.tags.any fun itemTag => name = itemTag.1 && (name.length = tag.length || itemTag.2 = value)

def evalFunctionFilter (fl : Floating D) (item : FilterItem) (name : List Char)
    (args : List (Variant D)) : Except String (Variant D) :=
  match args with
  | [.str text] =>
    if "group".toList.isPrefixOf name then .ok (.dbl (fl.ofBool (item.inGroup text)))
    else if "tag".toList.isPrefixOf name then
      .ok (.dbl (fl.ofBool (expressionItemCheckTag item text)))
    else .error "unknown function"
  | [_] => .error "invalid argument flags"
  | _ => .error "invalid number of arguments"

def filterFunctions (fl : Floating D) (expression : List Char) (item : FilterItem) : Functions D :=
  fun token output =>
    let args := (output.take token.opt.toNat).reverse
    let rest := output.drop token.opt.toNat
    if (output.length : ℤ) < token.opt then
      .error (quoted "not enough arguments for function at" expression token.loc.l)
    else
      match args.find? Variant.isErr with
      | some err => .ok (err :: rest)
      | none =>
        match evalFunctionFilter fl item (expression.drop token.loc.l) args with
        | .ok value => .ok (value :: rest)
        | .error message => .error (message ++ " at \"" ++ textFrom expression token.loc.l ++ "\".")

def itemMatches (fl : Floating D) (expression : List Char) (stack : List (EvalToken D))
    (item : FilterItem) : Bool :=
  match evalExecute fl (filterFunctions fl expression item) ⟨expression, false, stack⟩ with
  | .ok value => (variantToDbl fl value).any fun x => !fl.equal x fl.zero
  | .error _ => false

inductive Reads (member : ℕ → Bool) : List Char → Bool → Prop
  | index (n : ℕ) : Reads member (placeholder n) (member n)
  | not {s : List Char} {a : Bool} : Reads member s a → Reads member ("not ".toList ++ s) !a
  | and {s t : List Char} {a b : Bool} : Reads member s a → Reads member t b →
      Reads member ('(' :: s ++ " and ".toList ++ t ++ [')']) (a && b)
  | or {s t : List Char} {a b : Bool} : Reads member s a → Reads member t b →
      Reads member ('(' :: s ++ " or ".toList ++ t ++ [')']) (a || b)

def Preselected (expression : List Char) (stack : List (EvalToken D)) (item : FilterItem) : Prop :=
  match zbxEvalGetGroupFilter expression stack with
  | .error _ => False
  | .ok (none, _) => True
  | .ok (some filter, groups) => Reads (fun n => (groups[n]?).any item.inGroup) filter true

end Zabbix.Eval
