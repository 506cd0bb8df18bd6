import Mathlib.Data.List.Basic

/-!
# Character classes, numbers and item keys

A C string is the list of its bytes, one `Char` for each byte, without the terminating
zero. A pointer into it is the rest of the list; reading past the end gives `'\x00'`.
-/

namespace Zabbix.Expr

def charAt (s : List Char) : Char := s.headD '\x00'

def isspace (c : Char) : Bool := c = ' ' || ('\t' ≤ c && c ≤ '\r')

def isdigit (c : Char) : Bool := '0' ≤ c && c ≤ '9'

def isalpha (c : Char) : Bool := ('a' ≤ c && c ≤ 'z') || ('A' ≤ c && c ≤ 'Z')

def isalnum (c : Char) : Bool := isalpha c || isdigit c

def zbxIsHostnameChar (c : Char) : Bool :=
  isalnum c || c = '.' || c = ' ' || c = '_' || c = '-'

def zbxIsKeyChar (c : Char) : Bool := isalnum c || c = '.' || c = '_' || c = '-'

def zbxUnitSymbols : List Char := ['K', 'M', 'G', 'T', 's', 'm', 'h', 'd', 'w']

/-- The exponent of `zbx_number_parse` after the `e`; the number of characters it takes. -/
def exponentLen (s : List Char) : Option ℕ :=
  let sign := if charAt s = '-' ∨ charAt s = '+' then 1 else 0
  let digits := (s.drop sign).takeWhile isdigit
  let next := charAt (s.drop (sign + digits.length))
  if digits = [] ∨ next = '.' ∨ next = 'e' ∨ next = 'E' then none
  else some (sign + digits.length)

def zbxNumberParse (s : List Char) : Option ℕ :=
  let mantissa := s.takeWhile fun c => isdigit c || c = '.'
  let digits := mantissa.countP isdigit
  let dots := mantissa.countP (· = '.')
  let rest := s.drop mantissa.length
  let exponent :=
    if charAt rest = 'e' ∨ charAt rest = 'E' then (exponentLen rest.tail).map (· + 1) else some 0
  exponent.bind fun n => if digits < 1 ∨ 1 < dots then none else some (mantissa.length + n)

def zbxSuffixedNumberParse (s : List Char) : Option ℕ :=
  (zbxNumberParse s).map fun n => if charAt (s.drop n) ∈ zbxUnitSymbols then n + 1 else n

/-- The `state` variable of `zbx_parse_key`; the two inner loops over spaces and the look
ahead after a backslash have states of their own. -/
inductive KeyState
  | init
  | quoted
  | backslash
  | quoteClosed
  | unquoted
  | arrayClosed
  deriving DecidableEq

inductive KeyStep
  | next (state : KeyState) (array : Bool)
  | succeed
  | fail

/-- Case 0 of the loop in `zbx_parse_key`. -/
def keyInit (array : Bool) (c : Char) : KeyStep :=
  if c = ',' then .next .init array
  else if c = '"' then .next .quoted array
  else if c = '[' then if array then .fail else .next .init true
  else if c = ']' then if array then .next .arrayClosed false else .succeed
  else if c = ' ' then .next .init array
  else .next .unquoted array

def keyQuoted (array : Bool) (c : Char) : KeyStep :=
  if c = '"' then .next .quoteClosed array
  else if c = '\\' then .next .backslash array
  else .next .quoted array

def keyStep (array : Bool) (c : Char) : KeyState → KeyStep
  | .init => keyInit array c
  | .quoted => keyQuoted array c
  | .backslash => if c = '"' then .next .quoted array else keyQuoted array c
  | .quoteClosed =>
    if c = ' ' then .next .quoteClosed array
    else if c = ']' ∧ array = false then .succeed
    else if c = ',' ∨ c = ']' then keyInit array c
    else .fail
  | .unquoted =>
    if c = ',' ∨ (c = ']' ∧ array = true) then keyInit array c
    else if c = ']' then .succeed
    else .next .unquoted array
  | .arrayClosed =>
    if c = ' ' then .next .arrayClosed array
    else if c = ']' then .succeed
    else if c = ',' then .next .init array
    else .fail

def keyParams : KeyState → Bool → List Char → Option (List Char)
  | _, _, [] => none
  | state, array, c :: cs =>
    match keyStep array c state with
    | .next state array => keyParams state array cs
    | .succeed => some cs
    | .fail => none

def zbxParseKey (s : List Char) : Option (List Char) :=
  let rest := s.dropWhile zbxIsKeyChar
  if s.takeWhile zbxIsKeyChar = [] then none
  else
    match rest with
    | '[' :: params => keyParams .init false params
    | _ => some rest

end Zabbix.Expr
