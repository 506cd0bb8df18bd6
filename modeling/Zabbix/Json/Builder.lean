import Mathlib.Algebra.GroupWithZero.Nat
import Zabbix.Json.Parser

/-!
# The JSON builder

`struct zbx_json` and the functions of `json.c` that add to it. The closing brackets of the
objects and arrays that are still open stand in the buffer already; what is added goes in
before them.
-/

namespace Zabbix.Json

open Zabbix.Expr

inductive JsonType
  | unknown
  | string
  | int
  | array
  | object
  | null
  | true
  | false
  | number
  deriving DecidableEq

inductive JsonStatus
  | empty
  | comma
  deriving DecidableEq

structure ZbxJson where
  buffer : List Char
  bufferOffset : ℕ
  status : JsonStatus
  level : ℕ
  deriving DecidableEq

def cString (string : List Char) : List Char := string.takeWhile (· ≠ '\x00')

/-- The bytes one character takes in `__zbx_json_stringsize_limit`. -/
def charSize (c : Char) : ℕ :=
  if c ∈ ['"', '\\', '\x08', '\x0c', '\n', '\r', '\t'] then 2
  else if c ≤ '\x1f' then 6
  else 1

def zbxJsonStringsize (string : Option (List Char)) (type : JsonType) : ℕ :=
  let len := ((cString (string.getD ['n', 'u', 'l', 'l'])).map charSize).sum
  if string.isSome ∧ type = .string then len + 2 else len

def zbxNum2hex (c : ℕ) : Char := if 10 ≤ c then Char.ofNat (c + 0x57) else Char.ofNat (c + 0x30)

/-- What `__zbx_json_insstring_limit` writes for one character. -/
def insChar (c : Char) : List Char :=
  if c = '"' then ['\\', '"']
  else if c = '\\' then ['\\', '\\']
  else if c = '\x08' then ['\\', 'b']
  else if c = '\x0c' then ['\\', 'f']
  else if c = '\n' then ['\\', 'n']
  else if c = '\r' then ['\\', 'r']
  else if c = '\t' then ['\\', 't']
  else if c ≤ '\x1f' then
    ['\\', 'u', '0', '0', zbxNum2hex ((c.toNat >>> 4) &&& 0xf), zbxNum2hex (c.toNat &&& 0xf)]
  else [c]

def zbxJsonInsstring (string : Option (List Char)) (type : JsonType) : List Char :=
  let quote := if string.isSome ∧ type = .string then ['"'] else []
  quote ++ (cString (string.getD ['n', 'u', 'l', 'l'])).flatMap insChar ++ quote

def startLen (j : ZbxJson) (name : Option (List Char)) : ℕ :=
  (if j.status = .comma then 1 else 0) +
    name.elim 0 fun name => zbxJsonStringsize (some name) .string + 1

def startText (j : ZbxJson) (name : Option (List Char)) : List Char :=
  (if j.status = .comma then [','] else []) ++
    name.elim [] fun name => zbxJsonInsstring (some name) .string ++ [':']

def moveEnd (j : ZbxJson) (len : ℕ) : List Char :=
  j.buffer.take j.bufferOffset ++ List.replicate len '\x00' ++ j.buffer.drop j.bufferOffset

def writeAt (buffer : List Char) (p : ℕ) (text : List Char) : List Char :=
  buffer.take p ++ text ++ buffer.drop (p + text.length)

/-- `__zbx_json_addobject`. -/
def addContainer (j : ZbxJson) (name : Option (List Char)) (object : Bool) : ZbxJson :=
  let len := 2 + startLen j name
  let text := startText j name ++ (if object then ['\x7b', '\x7d'] else ['[', ']'])
  { buffer := writeAt (moveEnd j len) j.bufferOffset text
    bufferOffset := j.bufferOffset + text.length - 1
    status := .empty
    level := j.level + 1 }

def zbxJsonAddobject (j : ZbxJson) (name : Option (List Char)) : ZbxJson := addContainer j name true

def zbxJsonAddarray (j : ZbxJson) (name : Option (List Char)) : ZbxJson := addContainer j name false

/-- `zbx_json_addstring`: `zbx_json_addstring_limit` without a limit. -/
def zbxJsonAddstring (j : ZbxJson) (name string : Option (List Char)) (type : JsonType) : ZbxJson :=
  let len := startLen j name + zbxJsonStringsize string type
  let text := startText j name ++ zbxJsonInsstring string type
  { j with
    buffer := writeAt (moveEnd j len) j.bufferOffset text
    bufferOffset := j.bufferOffset + text.length
    status := .comma }

def zbxJsonAdduint64 (j : ZbxJson) (name : Option (List Char)) (value : UInt64) : ZbxJson :=
  zbxJsonAddstring j name (some (Nat.toDigits 10 value.toNat)) .int

def zbxJsonClose (j : ZbxJson) : Option ZbxJson :=
  if j.level = 1 then none
  else
    some { j with
      level := j.level - 1
      bufferOffset := j.bufferOffset + 1
      status := .comma }

def zbxJsonInit : ZbxJson :=
  zbxJsonAddobject { buffer := [], bufferOffset := 0, status := .empty, level := 0 } none

/-- The loop of `zbx_json_init_with` that goes back over blanks. -/
def skipBack (src : List Char) : ℕ → ℕ
  | 0 => 0
  | p + 1 => if charAt (src.drop (p + 1)) = ' ' then skipBack src p else p + 1

def initWithStatus (src : List Char) : JsonStatus :=
  if charAt (src.drop (skipBack src (src.length - 2))) = '\x7b' then .empty else .comma

/-- `zbx_json_init_with`: the last byte is taken for the closing bracket. It is undefined for less than
two bytes, where it reads in front of its buffer. -/
def zbxJsonInitWith (src : List Char) : Option ZbxJson :=
  if src.length < 2 then none
  else
    some
      { buffer := src
        bufferOffset := src.length - 1
        status := initWithStatus src
        level := 1 }

inductive Op
  | addobject (name : Option (List Char))
  | addarray (name : Option (List Char))
  | addstring (name : Option (List Char)) (string : List Char)
  | adduint64 (name : Option (List Char)) (value : UInt64)
  | close

def Op.apply (j : ZbxJson) : Op → ZbxJson
  | .addobject name => zbxJsonAddobject j name
  | .addarray name => zbxJsonAddarray j name
  | .addstring name string => zbxJsonAddstring j name (some string) .string
  | .adduint64 name value => zbxJsonAdduint64 j name value
  | .close => (zbxJsonClose j).getD j

def build (ops : List Op) : ZbxJson := ops.foldl Op.apply zbxJsonInit

end Zabbix.Json
