import Zabbix.Json.Builder

/-!
# Reading JSON texts

The functions of `json.c` that go through an opened text. A pointer is the rest of the text; one
pointer is not after another when its rest is not shorter.
-/

namespace Zabbix.Json

open Zabbix.Expr

def zbxJsonType (p : List Char) : JsonType :=
  if charAt p = '"' then .string
  else if isdigit (charAt p) ∨ charAt p = '-' then .int
  else if charAt p = '[' then .array
  else if charAt p = '\x7b' then .object
  else if ['n', 'u', 'l', 'l'] <+: p then .null
  else if ['t', 'r', 'u', 'e'] <+: p then .true
  else if ['f', 'a', 'l', 's', 'e'] <+: p then .false
  else .unknown

def rbracketScan (rbracket : Char) (level : ℕ) (inString : Bool) : List Char → Option (List Char)
  | [] => none
  | c :: p =>
    if c = '"' then rbracketScan rbracket level (!inString) p
    else if c = '\\' ∧ inString then
      match p with
      | [] => none
      | _ :: p => rbracketScan rbracket level inString p
    else if (c = '[' ∨ c = '\x7b') ∧ !inString then rbracketScan rbracket (level + 1) inString p
    else if (c = ']' ∨ c = '\x7d') ∧ !inString then
      if level - 1 = 0 then if c = rbracket then some (c :: p) else none
      else rbracketScan rbracket (level - 1) inString p
    else rbracketScan rbracket level inString p

def zbxJsonRbracket (p : List Char) : Option (List Char) :=
  if charAt p ≠ '\x7b' ∧ charAt p ≠ '[' then none
  else rbracketScan (if charAt p = '\x7b' then '\x7d' else ']') 0 false p

def zbxJsonBracketsOpen (p : List Char) : Option JsonParse :=
  (zbxJsonRbracket p).map fun last => { start := skipWhitespace p, last := last }

/-- The loop of `zbx_json_next`; `stop` is the length of the text from `jp->end` on. -/
def nextScan (stop level : ℕ) (inString : Bool) : List Char → Option (List Char)
  | [] => none
  | c :: p =>
    if (c :: p).length < stop then none
    else if c = '"' then nextScan stop level (!inString) p
    else if c = '\\' ∧ inString then
      match p with
      | [] => none
      | _ :: p => nextScan stop level inString p
    else if (c = '[' ∨ c = '\x7b') ∧ !inString then nextScan stop (level + 1) inString p
    else if (c = ']' ∨ c = '\x7d') ∧ !inString then
      if level = 0 then none else nextScan stop (level - 1) inString p
    else if c = ',' ∧ !inString ∧ level = 0 then some (skipWhitespace p)
    else nextScan stop level inString p

def zbxJsonNext (jp : JsonParse) (p : Option (List Char)) : Option (List Char) :=
  if jp.start.length - jp.last.length = 1 then none
  else
    match p with
    | none => some (skipWhitespace jp.start.tail)
    | some p => nextScan jp.last.length 0 false p

def copyScan (size : ℕ) : ℕ → List Char → List Char → Option (List Char × List Char)
  | 0, _, _ => none
  | fuel + 1, out, p =>
    if charAt p = '\x00' then none
    else if charAt p = '\\' then
      match zbxJsonDecodeCharacter p.tail with
      | none => none
      | some (bytes, p) =>
        if size ≤ out.length + bytes.length then none else copyScan size fuel (out ++ bytes) p
    else if charAt p = '"' then some (out, p.tail)
    else
      let out := out ++ [charAt p]
      if out.length = size then none else copyScan size fuel out p.tail

def jsonCopyString (p : List Char) (size : ℕ) : Option (List Char × List Char) :=
  if size = 0 then none else copyScan size (p.length + 1) [] p.tail

def zbxJsonDecodevalue (p : List Char) (size : ℕ) : Option (List Char × List Char × JsonType) :=
  match zbxJsonType p with
  | .array | .object | .unknown => none
  | type =>
    match jsonParseValue p 0 with
    | .error _ => none
    | .ok len =>
      match type with
      | .string => (jsonCopyString p size).map fun (string, rest) => (string, rest, type)
      | .null => if size = 0 then none else some ([], p.drop len, type)
      | _ => if size < len + 1 then none else some (p.take len, p.drop len, type)

def zbxJsonPairNext (jp : JsonParse) (p : Option (List Char)) (len : ℕ) :
    Option (List Char × List Char) :=
  (zbxJsonNext jp p).bind fun p =>
    if zbxJsonType p ≠ .string then none
    else
      (jsonCopyString p len).bind fun (name, p) =>
        let p := skipWhitespace p
        if charAt p ≠ ':' then none else some (skipWhitespace p.tail, name)

inductive Tree
  | string (value : List Char)
  | number (digits : List Char)
  | node (object : Bool) (children : List (Option (List Char) × Tree))

def readChildren (read : List Char → Option Tree) (size : ℕ) (object : Bool) (jp : JsonParse) :
    ℕ → Option (List Char) → Option (List (Option (List Char) × Tree))
  | 0, _ => none
  | fuel + 1, p =>
    let next := if object then (zbxJsonPairNext jp p size).map fun (p, name) => (p, some name)
      else (zbxJsonNext jp p).map fun p => (p, none)
    match next with
    | none => some []
    | some (p, name) =>
      (read p).bind fun child =>
        (readChildren read size object jp fuel (some p)).map fun children =>
          (name, child) :: children

/-- An object or an array by `zbx_json_next` and `zbx_json_pair_next`. -/
def readOpened (read : List Char → Option Tree) (size : ℕ) (jp : JsonParse) : Option Tree :=
  let object := charAt jp.start = '\x7b'
  (readChildren read size object jp (jp.start.length + 1) none).map (.node object)

/-- A value by `zbx_json_brackets_open` or `zbx_json_decodevalue`. -/
def readValue (size : ℕ) : ℕ → List Char → Option Tree
  | 0, _ => none
  | depth + 1, p =>
    match zbxJsonType p with
    | .object | .array => (zbxJsonBracketsOpen p).bind (readOpened (readValue size depth) size)
    | _ =>
      (zbxJsonDecodevalue p size).bind fun (value, _, type) =>
        match type with
        | .string => some (.string value)
        | .int => some (.number value)
        | _ => none

def readBack (size : ℕ) (jp : JsonParse) : Option Tree :=
  readOpened (readValue size (zbxMaxJsonDepth + 1)) size jp

end Zabbix.Json
