import Mathlib.Algebra.Group.Int.Defs
import Mathlib.Algebra.Group.Nat.Defs
import Mathlib.Data.Int.Basic
import Mathlib.Data.Int.DivMod
import Zabbix.Json.Parser

/-!
# Compiled JSONPath

The types of `jsonpath.h` and the parts of `jsonpath.c` that compile one segment of a path. A
pointer is the rest of the path.
-/

namespace Zabbix.JsonPath

open Zabbix.Expr Zabbix.Json

inductive TokenType
  | pathAbsolute
  | pathRelative
  | constStr
  | constNum
  | parenLeft
  | parenRight
  | opPlus
  | opMinus
  | opMult
  | opDiv
  | opEq
  | opNe
  | opGt
  | opGe
  | opLt
  | opLe
  | opNot
  | opAnd
  | opOr
  | opRegexp
  deriving DecidableEq

inductive TokenGroup
  | none
  | operand
  | operator2
  | operator1
  deriving DecidableEq

def jsonpathTokens : TokenType → TokenGroup × ℕ
  | .pathAbsolute => (.operand, 0)
  | .pathRelative => (.operand, 0)
  | .constStr => (.operand, 0)
  | .constNum => (.operand, 0)
  | .parenLeft => (.none, 0)
  | .parenRight => (.none, 0)
  | .opPlus => (.operator2, 4)
  | .opMinus => (.operator2, 4)
  | .opMult => (.operator2, 3)
  | .opDiv => (.operator2, 3)
  | .opEq => (.operator2, 7)
  | .opNe => (.operator2, 7)
  | .opGt => (.operator2, 6)
  | .opGe => (.operator2, 6)
  | .opLt => (.operator2, 6)
  | .opLe => (.operator2, 6)
  | .opNot => (.operator1, 2)
  | .opAnd => (.operator2, 11)
  | .opOr => (.operator2, 12)
  | .opRegexp => (.operator2, 7)

def jsonpathTokenPrecedence (type : TokenType) : ℕ := (jsonpathTokens type).2

def jsonpathTokenGroup (type : TokenType) : TokenGroup := (jsonpathTokens type).1

inductive FunctionType
  | min
  | max
  | avg
  | length
  | first
  | sum
  | name
  deriving DecidableEq

inductive PathStep
  | name (value : List Char)
  | index (value : ℤ)
  deriving DecidableEq

structure Token where
  type : TokenType
  text : List Char
  path : List PathStep
  deriving DecidableEq

structure Expression where
  tokens : List Token
  indexToken : Option Token
  valueToken : Option Token
  deriving DecidableEq

inductive SegmentData
  | matchAll
  | matchNames (values : List (List Char))
  | matchIndexes (values : List ℤ)
  | matchRange (start : Option ℤ) (stop : Option ℤ)
  | matchExpression (expression : Expression)
  | function (type : FunctionType)
  deriving DecidableEq

structure Segment where
  data : SegmentData
  detached : Bool
  deriving DecidableEq

structure Jsonpath where
  segments : List Segment
  definite : Bool
  firstMatch : Bool
  deriving DecidableEq

def jsonpathError {α : Type} (path : List Char) : Except String α :=
  if charAt path = '\x00' then .error "jsonpath was unexpectedly terminated"
  else
    .error ("unsupported construct in jsonpath starting with: \"" ++ String.ofList path ++ "\"")

def jsonpathUnquote : List Char → List Char
  | [] => []
  | '\\' :: c :: start => c :: jsonpathUnquote start
  | c :: start => c :: jsonpathUnquote start

/-- What the parser of one segment finds: the segment, whether the path stays definite,
`first_match`, and the pointer behind the segment. -/
structure ParsedSegment where
  data : SegmentData
  definite : Bool
  firstMatch : Bool
  next : List Char

local instance lawfulBEqText : LawfulBEq (List Char) := inferInstance

/-- The loop of `jsonpath_parse_names`: the names, the last one first, and the pointer to the
closing bracket. `start` is the pointer to the opening quote of a name. -/
def namesLoop (start : Option (List Char)) (parsedName : Bool) (head : List (List Char)) :
    List Char → Except String (List (List Char) × List Char)
  | [] => jsonpathError []
  | c :: tail =>
    match start with
    | none =>
      if c = ']' then if parsedName then .ok (head, c :: tail) else jsonpathError (c :: tail)
      else if c = '\'' ∨ c = '"' then namesLoop (some (c :: tail)) parsedName head tail
      else if c = ' ' ∨ c = '\t' then namesLoop none parsedName head tail
      else if c = ',' then
        if parsedName then namesLoop none false head tail else jsonpathError (c :: tail)
      else jsonpathError (c :: tail)
    | some start =>
      if c = '\\' then
        match tail with
        | [] => jsonpathError (c :: tail)
        | d :: tail' =>
          if d = '\\' ∨ d = charAt start then namesLoop (some start) parsedName head tail'
          else jsonpathError (c :: tail)
      else if c = charAt start then
        let name := (start.take (start.length - (c :: tail).length)).tail
        if name = [] then jsonpathError start
        else
          let value := jsonpathUnquote name
          namesLoop none true (if value ∈ head then head else value :: head) tail
      else namesLoop (some start) parsedName head tail

def jsonpathParseNames (list : List Char) : Except String ParsedSegment :=
  (namesLoop none false [] list).map fun (head, stop) =>
    { data := .matchNames head, definite := head.length ≤ 1, firstMatch := false, next := stop }

/-- `atoi`: the digits are clamped to a `long` and cut to an `int`. -/
def atoi (text : List Char) : ℤ :=
  let negative := charAt text = '-'
  let digits := (if negative then text.tail else text).takeWhile isdigit
  let value : ℤ := digits.foldl (fun n c => 10 * n + (c.toNat - '0'.toNat)) 0
  let long := if negative then max (-2 ^ 63) (-value) else min (2 ^ 63 - 1) value
  long.bmod (2 ^ 32)

/-- What `jsonpath_parse_indexes` has read. -/
inductive IndexesType
  | unknown
  | list
  | range
  deriving DecidableEq

structure IndexesState where
  start : Option (List Char)
  type : IndexesType
  rangeStart : Option ℤ
  head : List ℤ
  parsedIndex : Bool

/-- The end of a number in the loop of `jsonpath_parse_indexes`. -/
def indexEnd (state : IndexesState) (stop : List Char) : Except String IndexesState :=
  match state.start with
  | none => .ok state
  | some start =>
    if charAt start = '-' ∧ start.length = stop.length + 1 then jsonpathError start
    else
      let index := atoi start
      let head :=
        if state.type = .list ∧ index ∈ state.head then state.head else index :: state.head
      .ok { state with
        start := none
        head := head
        parsedIndex := true }

def indexesLoop (state : IndexesState) :
    List Char → Except String (IndexesState × List Char)
  | [] => (indexEnd state []).bind fun _ => jsonpathError []
  | c :: tail =>
    if isdigit c then indexesLoop { state with start := state.start.or (some (c :: tail)) } tail
    else if c = '-' then
      if state.start.isSome then jsonpathError (c :: tail)
      else indexesLoop { state with start := some (c :: tail) } tail
    else
      (indexEnd state (c :: tail)).bind fun state =>
        if c = ']' then
          if state.type ≠ .range ∧ state.parsedIndex = false then jsonpathError (c :: tail)
          else .ok (state, c :: tail)
        else if c = ':' then
          if state.type ≠ .unknown then jsonpathError (c :: tail)
          else
            indexesLoop { state with
              type := .range
              rangeStart := if state.parsedIndex then state.head.head? else none
              parsedIndex := false } tail
        else if c = ',' then
          if state.type = .range ∨ state.parsedIndex = false then jsonpathError (c :: tail)
          else
            indexesLoop { state with
              type := .list
              parsedIndex := false } tail
        else if c ≠ ' ' ∧ c ≠ '\t' then jsonpathError (c :: tail)
        else indexesLoop state tail

def jsonpathParseIndexes (list : List Char) : Except String ParsedSegment :=
  let init : IndexesState :=
    { start := none, type := .unknown, rangeStart := none, head := [], parsedIndex := false }
  (indexesLoop init list).map fun (state, stop) =>
    if state.type = .range then
      let rangeEnd := if state.parsedIndex then state.head.head? else none
      { data := .matchRange state.rangeStart rangeEnd, definite := false, firstMatch := false,
        next := stop }
    else
      { data := .matchIndexes state.head, definite := state.head.length ≤ 1, firstMatch := false,
        next := stop }

def isNameChar (c : Char) : Bool := isalnum c || c = '_' || c = '$'

def functionOfName (name : List Char) : Option FunctionType :=
  if name = ['m', 'i', 'n'] then some .min
  else if name = ['m', 'a', 'x'] then some .max
  else if name = ['a', 'v', 'g'] then some .avg
  else if name = ['l', 'e', 'n', 'g', 't', 'h'] then some .length
  else if name = ['f', 'i', 'r', 's', 't'] then some .first
  else if name = ['s', 'u', 'm'] then some .sum
  else none

def jsonpathParseDotSegment (start : List Char) : Except String ParsedSegment :=
  if charAt start = '*' then
    .ok { data := .matchAll, definite := false, firstMatch := false, next := start.tail }
  else
    let name := start.takeWhile isNameChar
    let ptr := start.dropWhile isNameChar
    let close := skipWhitespace ptr.tail
    if charAt ptr = '(' ∧ charAt close = ')' then
      match functionOfName name with
      | some type =>
        .ok { data := .function type, definite := true, firstMatch := type = .first,
              next := close.tail }
      | none => jsonpathError start
    else if name ≠ [] then
      .ok { data := .matchNames [name], definite := true, firstMatch := false, next := ptr }
    else jsonpathError start

/-- `jsonpath_parse_bracket_segment`; `parseExpression` is `jsonpath_parse_expression` for a path
that has been definite until then or not. -/
def jsonpathParseBracketSegment (parseExpression : List Char → Except String (Expression × List Char))
    (start : List Char) : Except String ParsedSegment :=
  let ptr := skipWhitespace start
  let parsed :=
    if charAt ptr = '?' then
      (parseExpression ptr.tail).map fun (expression, next) =>
        { data := .matchExpression expression, definite := false, firstMatch := false,
          next := next }
    else if charAt ptr = '*' then
      .ok { data := .matchAll, definite := false, firstMatch := false, next := ptr.tail }
    else if charAt ptr = '\'' ∨ charAt ptr = '"' then jsonpathParseNames ptr
    else if isdigit (charAt ptr) ∨ charAt ptr = ':' ∨ charAt ptr = '-' then
      jsonpathParseIndexes ptr
    else jsonpathError ptr
  parsed.bind fun segment =>
    let ptr := skipWhitespace segment.next
    if charAt ptr ≠ ']' then jsonpathError ptr
    else .ok { segment with next := ptr.tail }

def jsonpathParseNameReference (start : List Char) : ParsedSegment where
  data := .function .name
  definite := true
  firstMatch := false
  next := start.tail

section

variable (parseExpression : Bool → List Char → Except String (Expression × List Char))

def SegmentData.isFunction : SegmentData → Bool
  | .function _ => true
  | _ => false

def compileSegment (jpquery : Jsonpath) (ptr : List Char) : Except String (Jsonpath × List Char) :=
  let dot := charAt ptr = '.'
  let detached := dot ∧ charAt ptr.tail = '.'
  let ptr := if detached then ptr.tail.tail else if dot then ptr.tail else ptr
  let pathDefinite := jpquery.definite && !detached
  let parsed :=
    if charAt ptr = '[' then
      jsonpathParseBracketSegment (parseExpression pathDefinite) ptr.tail
    else if dot then
      if charAt ptr = '\x00' ∨ charAt ptr = '.' then jsonpathError ptr
      else jsonpathParseDotSegment ptr
    else if charAt ptr = '~' then .ok (jsonpathParseNameReference ptr)
    else jsonpathError ptr
  parsed.bind fun segment =>
    if (jpquery.segments.getLast?.any (·.data.isFunction)) ∧ !segment.data.isFunction then
      jsonpathError ptr
    else
      .ok ({ segments := jpquery.segments ++ [{ data := segment.data, detached := detached }]
             definite := pathDefinite && segment.definite
             firstMatch := jpquery.firstMatch || segment.firstMatch }, segment.next)

def compileLoop : ℕ → Jsonpath → List Char → Except String Jsonpath
  | 0, _, ptr => jsonpathError ptr
  | fuel + 1, jpquery, ptr =>
    if charAt ptr = '\x00' then .ok jpquery
    else
      (compileSegment parseExpression jpquery ptr).bind fun (jpquery, next) =>
        compileLoop fuel jpquery next

def compileWith (path : List Char) : Except String Jsonpath :=
  if charAt path ≠ '$' ∨ charAt path.tail = '\x00' then
    .error "JSONPath query must start with the root object/element $."
  else
    let jpquery : Jsonpath := { segments := [], definite := true, firstMatch := false }
    (compileLoop parseExpression (path.length + 1) jpquery path.tail).map fun jpquery =>
      { jpquery with firstMatch := jpquery.firstMatch || jpquery.definite }

end

end Zabbix.JsonPath
