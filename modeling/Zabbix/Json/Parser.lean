import Zabbix.Expr.Text

/-!
# The JSON parser

`json_parser.c` and the functions of `json.c` it calls, for a parse that builds no object. A
pointer is the rest of the text, so that the distance of two pointers is the difference of
their lengths.
-/

namespace Zabbix.Json

open Zabbix.Expr

def isWhitespace (c : Char) : Bool := c = ' ' || c = '\t' || c = '\r' || c = '\n'

def skipWhitespace (src : List Char) : List Char := src.dropWhile isWhitespace

def jsonErrorText (message : String) : Option (List Char) → String
  | none => message
  | some ptr =>
    if 128 < ptr.length then message ++ " at: '" ++ String.ofList ptr ++ "...'"
    else message ++ " at: '" ++ String.ofList ptr ++ "'"

def jsonError {α : Type} (message : String) (ptr : Option (List Char)) : Except String α :=
  .error (jsonErrorText message ptr)

def isxdigit (c : Char) : Bool := isdigit c || ('a' ≤ c && c ≤ 'f') || ('A' ≤ c && c ≤ 'F')

def zbxIsValidJsonHex (p : List Char) : Bool :=
  (List.range 4).all fun i => isxdigit (charAt (p.drop i))

def zbxHex2num (c : Char) : ℕ :=
  if 'a' ≤ c then c.toNat - 'a'.toNat + 10
  else if 'A' ≤ c then c.toNat - 'A'.toNat + 10
  else c.toNat - '0'.toNat

/-- The four digits of a `\u` escape as `zbx_json_decode_character` reads them. -/
def hexNum (p : List Char) : ℕ :=
  zbxHex2num (charAt p) <<< 12 + zbxHex2num (charAt (p.drop 1)) <<< 8 +
    zbxHex2num (charAt (p.drop 2)) <<< 4 + zbxHex2num (charAt (p.drop 3))

def shortEscape : Char → Option Char
  | '"' => some '"'
  | '\\' => some '\\'
  | '/' => some '/'
  | 'b' => some '\x08'
  | 'f' => some '\x0c'
  | 'n' => some '\n'
  | 'r' => some '\r'
  | 't' => some '\t'
  | _ => none

def utf8Two (num : ℕ) : List Char :=
  [Char.ofNat (0xc0 ||| ((num >>> 6) &&& 0x1f)), Char.ofNat (0x80 ||| (num &&& 0x3f))]

def utf8Three (num : ℕ) : List Char :=
  [Char.ofNat (0xe0 ||| ((num >>> 12) &&& 0x0f)), Char.ofNat (0x80 ||| ((num >>> 6) &&& 0x3f)),
    Char.ofNat (0x80 ||| (num &&& 0x3f))]

def utf8Four (uc : ℕ) : List Char :=
  [Char.ofNat (0xf0 ||| ((uc >>> 18) &&& 0x07)), Char.ofNat (0x80 ||| ((uc >>> 12) &&& 0x3f)),
    Char.ofNat (0x80 ||| ((uc >>> 6) &&& 0x3f)), Char.ofNat (0x80 ||| (uc &&& 0x3f))]

def decodeLowSurrogate (num : ℕ) (p : List Char) : Option (List Char × List Char) :=
  if charAt p ≠ '\\' ∨ charAt p.tail ≠ 'u' ∨ !zbxIsValidJsonHex (p.drop 2) then none
  else
    let numLo := hexNum (p.drop 2)
    if numLo < 0xdc00 ∨ 0xdfff < numLo then none
    else some (utf8Four (0x010000 + ((num &&& 0x03ff) <<< 10) + (numLo &&& 0x03ff)), p.drop 6)

/-- `\u0000` to `\uffff`, at the first digit. -/
def decodeUnicode (p : List Char) : Option (List Char × List Char) :=
  if !zbxIsValidJsonHex p then none
  else
    let num := hexNum p
    let p := p.drop 4
    if num ≤ 0x007f then some ([Char.ofNat num], p)
    else if num ≤ 0x07ff then some (utf8Two num, p)
    else if num ≤ 0xd7ff ∨ 0xe000 ≤ num then some (utf8Three num, p)
    else if 0xd800 ≤ num ∧ num ≤ 0xdbff then decodeLowSurrogate num p
    else none

def zbxJsonDecodeCharacter (p : List Char) : Option (List Char × List Char) :=
  match shortEscape (charAt p) with
  | some byte => some ([byte], p.tail)
  | none => if charAt p = 'u' then decodeUnicode p.tail else none

/-- An escape in `json_parse_string`, at the backslash. -/
def escapeStep (ptr : List Char) : Except String (List Char) :=
  if charAt ptr.tail = '\x00' then jsonError "invalid escape sequence in string" (some ptr)
  else if charAt ptr.tail = 'u' then
    match zbxJsonDecodeCharacter ptr.tail with
    | some (_, rest) => .ok rest
    | none => jsonError "invalid escape sequence in string" (some ptr)
  else if (shortEscape (charAt ptr.tail)).isNone then
    jsonError "invalid escape sequence in string data" (some ptr)
  else if charAt ptr.tail ≤ '\x1f' then
    jsonError "invalid control character in string data" (some ptr.tail)
  else .ok ptr.tail.tail

/-- One round of the loop of `json_parse_string`, at a character that is not a quote. -/
def stringStep (ptr : List Char) : Except String (List Char) :=
  if charAt ptr = '\x00' then jsonError "unexpected end of string data" none
  else if charAt ptr = '\\' then escapeStep ptr
  else if charAt ptr ≤ '\x1f' then
    jsonError "invalid control character in string data" (some ptr)
  else .ok ptr.tail

/-- The loop of `json_parse_string`: the pointer to the closing quote. -/
def stringEnd : ℕ → List Char → Except String (List Char)
  | 0, _ => jsonError "unexpected end of string data" none
  | fuel + 1, ptr =>
    if charAt ptr = '"' then .ok ptr
    else (stringStep ptr).bind fun rest => stringEnd fuel rest

def jsonParseString (start : List Char) : Except String ℕ :=
  (stringEnd (start.length + 1) start.tail).map fun ptr => start.length - ptr.length + 1

/-- The digits and the point of a number: where they end and how many digits stand before the
point. -/
def numberScan (point : Bool) (digit : ℕ) : List Char → List Char × ℕ
  | [] => ([], digit)
  | c :: ptr =>
    if c = '.' then if point then (c :: ptr, digit) else numberScan true digit ptr
    else if !isdigit c then (c :: ptr, digit)
    else numberScan point (if point then digit else digit + 1) ptr

def powerScan (ptr : List Char) : Except String (List Char) :=
  if charAt ptr = '\x00' then jsonError "unexpected end of numeric value" none
  else
    let signed := charAt ptr = '+' ∨ charAt ptr = '-'
    let ptr := if signed then ptr.tail else ptr
    if signed ∧ charAt ptr = '\x00' then jsonError "unexpected end of numeric value" none
    else if !isdigit (charAt ptr) then
      jsonError "invalid power value of number in E notation" (some ptr)
    else .ok (ptr.tail.dropWhile isdigit)

def jsonParseNumber (start : List Char) : Except String ℕ :=
  let ptr := if charAt start = '-' then start.tail else start
  let firstDigit := charAt ptr
  let (ptr, digit) := numberScan false 0 ptr
  if digit = 0 then jsonError "invalid numeric value format" (some start)
  else if firstDigit = '0' ∧ 1 < digit then jsonError "invalid numeric value format" (some start)
  else if charAt ptr = 'e' ∨ charAt ptr = 'E' then
    (powerScan ptr.tail).map fun ptr => start.length - ptr.length
  else .ok (start.length - ptr.length)

def jsonParseLiteral (start text : List Char) : Except String ℕ :=
  if text <+: start then .ok text.length else jsonError "invalid literal value" (some start)

section

variable (parseValue : List Char → Except String ℕ)

/-- The loop of `json_parse_array`: the pointer behind the last element. -/
def arrayElements : ℕ → List Char → Except String (List Char)
  | 0, _ => jsonError "unexpected end of object value" none
  | fuel + 1, ptr =>
    (parseValue ptr).bind fun len =>
      let ptr := skipWhitespace (ptr.drop len)
      if charAt ptr ≠ ',' then .ok ptr else arrayElements fuel ptr.tail

def jsonParseArray (start : List Char) : Except String ℕ :=
  let ptr := skipWhitespace start.tail
  if charAt ptr = ']' then .ok (start.length - ptr.length + 1)
  else
    (arrayElements parseValue (start.length + 1) ptr).bind fun ptr =>
      if charAt ptr ≠ ']' then
        jsonError "invalid array format, expected closing character ']'" (some ptr)
      else .ok (start.length - ptr.length + 1)

/-- The name, the separator and the value of one pair of `json_parse_object`. -/
def objectMember (ptr : List Char) : Except String (List Char) :=
  if charAt ptr ≠ '"' then jsonError "invalid object name" (some ptr)
  else
    (jsonParseString ptr).bind fun len =>
      let ptr := skipWhitespace (ptr.drop len)
      if charAt ptr ≠ ':' then jsonError "invalid object name/value separator" (some ptr)
      else (parseValue ptr.tail).map fun len => skipWhitespace (ptr.tail.drop len)

/-- The loop of `json_parse_object`: the pointer behind the last pair. -/
def objectMembers : ℕ → List Char → Except String (List Char)
  | 0, _ => jsonError "unexpected end of object value" none
  | fuel + 1, ptr =>
    (objectMember parseValue ptr).bind fun ptr =>
      if charAt ptr ≠ ',' then .ok ptr else objectMembers fuel (skipWhitespace ptr.tail)

def jsonParseObject (start : List Char) : Except String ℕ :=
  let ptr := skipWhitespace (skipWhitespace start).tail
  if charAt ptr = '\x7d' then .ok (start.length - ptr.length + 1)
  else
    (objectMembers parseValue (start.length + 1) ptr).bind fun ptr =>
      if charAt ptr ≠ '\x7d' then
        jsonError "invalid object format, expected closing character '\x7d'" (some ptr)
      else .ok (start.length - ptr.length + 1)

end

def zbxMaxJsonDepth : ℕ := 64

/-- `json_parse_value` where `left` more values may be nested, this one included: the depth is
`ZBX_MAX_JSON_DEPTH + 1 - left`. -/
def parseValueAt : ℕ → List Char → Except String ℕ
  | 0, start => jsonError "JSON depth exceeds 64" (some start)
  | left + 1, start =>
    let ptr := skipWhitespace start
    let len :=
      match charAt ptr with
      | '\x00' => jsonError "unexpected end of object value" none
      | '"' => jsonParseString ptr
      | '\x7b' => jsonParseObject (parseValueAt left) ptr
      | '[' => jsonParseArray (parseValueAt left) ptr
      | 't' => jsonParseLiteral ptr ['t', 'r', 'u', 'e']
      | 'f' => jsonParseLiteral ptr ['f', 'a', 'l', 's', 'e']
      | 'n' => jsonParseLiteral ptr ['n', 'u', 'l', 'l']
      | c =>
        if isdigit c ∨ c = '-' then jsonParseNumber ptr
        else jsonError "invalid JSON object value starting character" (some ptr)
    len.map fun len => start.length - ptr.length + len

def jsonParseValue (start : List Char) (depth : ℕ) : Except String ℕ :=
  parseValueAt (zbxMaxJsonDepth + 1 - depth) start

def zbxJsonValidate (start : List Char) : Except String ℕ :=
  let start := skipWhitespace start
  let len :=
    if charAt start = '\x7b' then jsonParseObject (jsonParseValue · 0) start
    else if charAt start = '[' then jsonParseArray (jsonParseValue · 0) start
    else
      jsonError "invalid object format, expected opening character '\x7b' or '['" (some start)
  len.bind fun len =>
    let rest := skipWhitespace (start.drop len)
    if charAt rest ≠ '\x00' then
      jsonError "invalid character following JSON object" (some rest)
    else .ok len

structure JsonParse where
  start : List Char
  last : List Char
  deriving DecidableEq

def zbxJsonOpen (buffer : List Char) : Except (Option String) JsonParse :=
  let buffer := skipWhitespace buffer
  if charAt buffer = '\x00' then .error none
  else
    match zbxJsonValidate buffer with
    | .error error => .error (some ("cannot parse as a valid JSON object: " ++ error))
    | .ok len => .ok { start := buffer, last := buffer.drop (len - 1) }

end Zabbix.Json
