import Zabbix.Expr.Text

/-!
# Parameters of item keys

`param.c`: how many parameters a list has and what they are. `state` is 0, 1 or 2 in the source;
as in `zbx_parse_key` the loops over spaces and the look ahead after a backslash have states of
their own.
-/

namespace Zabbix.Expr

structure Count where
  state : KeyState
  array : Bool
  ret : ℕ

/-- Case 0 of the loop; `none` is the return value 0. -/
def Count.init (n : Count) (c : Char) : Option Count :=
  if c = ',' then some { n with state := .init, ret := if n.array then n.ret else n.ret + 1 }
  else if c = '"' then some { n with state := .quoted }
  else if c = '[' then if n.array then none else some { n with state := .init, array := true }
  else if c = ']' then
    if n.array then some { n with state := .arrayClosed, array := false } else none
  else if c = ' ' then some { n with state := .init }
  else some { n with state := .unquoted }

def Count.quoted (n : Count) (c : Char) : Count :=
  if c = '"' then { n with state := .quoteClosed }
  else if c = '\\' then { n with state := .backslash }
  else { n with state := .quoted }

def Count.step (n : Count) (c : Char) : Option Count :=
  match n.state with
  | .init => n.init c
  | .quoted => some (n.quoted c)
  | .backslash => some (if c = '"' then { n with state := .quoted } else n.quoted c)
  | .quoteClosed =>
    if c = ' ' then some n
    else if c = ',' ∨ (c = ']' ∧ n.array) then n.init c
    else none
  | .unquoted =>
    if c = ',' ∨ (c = ']' ∧ n.array) then n.init c
    else if c = ']' then none
    else some n
  | .arrayClosed =>
    if c = ' ' then some n
    else if c = ',' then n.init c
    else none

def Count.finish (n : Count) : ℕ :=
  if n.state = .quoted ∨ n.state = .backslash ∨ n.array then 0 else n.ret

def Count.loop : Count → List Char → ℕ
  | n, [] => n.finish
  | n, c :: p =>
    match n.step c with
    | some n => n.loop p
    | none => 0

def zbxNumParam (p : List Char) : ℕ := Count.loop { state := .init, array := false, ret := 1 } p

inductive ParamType
  | undefined
  | array
  | string
  deriving DecidableEq

structure Getter where
  state : KeyState
  array : ℕ
  idx : ℕ
  buf : List Char
  type : ParamType

variable (num maxLen : ℕ)

/-- `ZBX_ASSIGN_PARAM` for the requested parameter. -/
def Getter.assign (g : Getter) (c : Char) : Option Getter :=
  if g.idx = num then
    if g.buf.length = maxLen then none else some { g with buf := g.buf ++ [c] }
  else some g

def Getter.setType (g : Getter) (type : ParamType) : Getter :=
  if g.idx = num ∧ g.type = .undefined then { g with type := type } else g

def Getter.assignInArray (g : Getter) (c : Char) : Option Getter :=
  if g.array = 0 then some g else g.assign num maxLen c

/-- Case 0 of the loop; `none` is the return value 1. -/
def Getter.init (g : Getter) (c : Char) : Option Getter :=
  if c = ',' then
    if g.array = 0 then some { g with state := .init, idx := g.idx + 1 }
    else ({ g with state := .init } : Getter).assign num maxLen c
  else if c = '"' then
    (({ g with state := .quoted } : Getter).setType num .string).assignInArray num maxLen c
  else if c = '[' then
    ((({ g with state := .init } : Getter).setType num .array).assignInArray num maxLen c).map
      fun g => { g with array := g.array + 1 }
  else if c = ']' ∧ g.array ≠ 0 then
    ({ g with state := .arrayClosed, array := g.array - 1 } : Getter).assignInArray num maxLen c
  else if c = ' ' then some { g with state := .init }
  else (({ g with state := .unquoted } : Getter).setType num .string).assign num maxLen c

def Getter.quoted (g : Getter) (c : Char) : Option Getter :=
  if c = '"' then ({ g with state := .quoteClosed } : Getter).assignInArray num maxLen c
  else if c = '\\' then some { g with state := .backslash }
  else ({ g with state := .quoted } : Getter).assign num maxLen c

def Getter.step (g : Getter) (c : Char) : Option Getter :=
  match g.state with
  | .init => g.init num maxLen c
  | .quoted => g.quoted num maxLen c
  | .backslash =>
    if c = '"' then
      (({ g with state := .quoted } : Getter).assignInArray num maxLen '\\').bind
        (·.assign num maxLen c)
    else (g.assign num maxLen '\\').bind (·.quoted num maxLen c)
  | .quoteClosed | .arrayClosed =>
    if c = ' ' then some g
    else if c = ',' ∨ (c = ']' ∧ g.array ≠ 0) then g.init num maxLen c
    else none
  | .unquoted =>
    if c = ',' ∨ (c = ']' ∧ g.array ≠ 0) then g.init num maxLen c
    else g.assign num maxLen c

def Getter.loop : Getter → List Char → Option Getter
  | g, [] => some g
  | g, c :: p => if num < g.idx then some g else (g.step num maxLen c).bind (·.loop p)

def Getter.finish (g : Getter) : Option (List Char × ParamType) :=
  if g.state = .quoted ∨ g.state = .backslash ∨ g.array ≠ 0 ∨ g.idx < num then none
  else some (g.buf, g.type)

/-- `zbx_get_param`: the contents of the buffer and the type, `none` where it returns 1. -/
def zbxGetParam (p : List Char) : Option (List Char × ParamType) :=
  if maxLen = 0 then none
  else
    (Getter.loop num (maxLen - 1)
      { state := .init, array := 0, idx := 1, buf := [], type := .undefined } p).bind
        (·.finish num)

structure Measurer where
  state : KeyState
  array : ℕ
  idx : ℕ
  sz : ℕ

def Measurer.count (g : Measurer) : Measurer :=
  if g.idx = num then { g with sz := g.sz + 1 } else g

def Measurer.countInArray (g : Measurer) : Measurer := if g.array = 0 then g else g.count num

def Measurer.init (g : Measurer) (c : Char) : Measurer :=
  if c = ',' then
    if g.array = 0 then { g with state := .init, idx := g.idx + 1 }
    else ({ g with state := .init } : Measurer).count num
  else if c = '"' then ({ g with state := .quoted } : Measurer).countInArray num
  else if c = '[' then
    let g := ({ g with state := .init } : Measurer).countInArray num
    { g with array := g.array + 1 }
  else if c = ']' ∧ g.array ≠ 0 then
    ({ g with state := .arrayClosed, array := g.array - 1 } : Measurer).countInArray num
  else if c = ' ' then { g with state := .init }
  else ({ g with state := .unquoted } : Measurer).count num

def Measurer.quoted (g : Measurer) (c : Char) : Measurer :=
  if c = '"' then ({ g with state := .quoteClosed } : Measurer).countInArray num
  else if c = '\\' then { g with state := .backslash }
  else ({ g with state := .quoted } : Measurer).count num

def Measurer.step (g : Measurer) (c : Char) : Option Measurer :=
  match g.state with
  | .init => some (g.init num c)
  | .quoted => some (g.quoted num c)
  | .backslash =>
    if c = '"' then some ((({ g with state := .quoted } : Measurer).countInArray num).count num)
    else some ((g.count num).quoted num c)
  | .quoteClosed | .arrayClosed =>
    if c = ' ' then some g
    else if c = ',' ∨ (c = ']' ∧ g.array ≠ 0) then some (g.init num c)
    else none
  | .unquoted =>
    if c = ',' ∨ (c = ']' ∧ g.array ≠ 0) then some (g.init num c)
    else some (g.count num)

def Measurer.loop : Measurer → List Char → Option Measurer
  | g, [] => some g
  | g, c :: p => if num < g.idx then some g else (g.step num c).bind (·.loop p)

def getParamLen (p : List Char) : Option ℕ :=
  (Measurer.loop num { state := .init, array := 0, idx := 1, sz := 0 } p).bind fun g =>
    if g.state = .quoted ∨ g.state = .backslash ∨ g.array ≠ 0 ∨ g.idx < num then none
    else some g.sz

/-- `zbx_get_param_dyn`, `none` where it returns no parameter. -/
def zbxGetParamDyn (p : List Char) : Option (List Char × ParamType) :=
  (getParamLen num p).bind fun sz => zbxGetParam num (sz + 1) p

def escapeQuotes (param : List Char) : List Char :=
  param.flatMap fun c => if c = '"' then ['\\', '"'] else [c]

def zbxQuoteKeyParam (forced : ℕ) (param : List Char) : Option (List Char) :=
  let req := charAt param = '"' ∨ charAt param = ' ' ∨ charAt param = '[' ∨ ',' ∈ param ∨ ']' ∈ param
  if ¬req ∧ forced = 0 then some param
  else if param.getLast? = some '\\' then
    if ¬req ∧ forced ≠ 2 then some param else none
  else some ('"' :: (escapeQuotes param ++ ['"']))

def unquoteKeyLoop : List Char → List Char
  | [] => []
  | c :: param =>
    if c = '\\' ∧ charAt param = '"' then unquoteKeyLoop param else c :: unquoteKeyLoop param

/-- `zbx_unquote_key_param`. The last character that the loop writes is dropped; after a quote alone
the terminator would go in front of the text. -/
def zbxUnquoteKeyParam (param : List Char) : Option (List Char) :=
  if charAt param ≠ '"' then some param
  else if param.tail = [] then none
  else some (unquoteKeyLoop param.tail).dropLast

end Zabbix.Expr
