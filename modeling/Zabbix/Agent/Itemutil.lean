import Mathlib.Data.List.TakeWhile
import Zabbix.Expr.Text
import Zabbix.Foundation.Except

/-!
# Item keys in the agent

`itemutil/key.go`. The data is the list of its bytes and a slice of it that reaches to the end is
the rest of the list.
-/

namespace Zabbix.Itemutil

open Zabbix.Expr

variable {data param left b : List Char}

def isKeyChar (c : Char) (wildcard : Bool) : Bool :=
  ('a' ≤ c && c ≤ 'z') || (c = '.' || c = '-' || c = '_') || ('0' ≤ c && c ≤ '9') ||
    ('A' ≤ c && c ≤ 'Z') || (wildcard && c = '*')

/-- The loop of `parseQuotedParam`: the text with its closing quote and what follows. -/
def quotedEnd : Char → List Char → Option (List Char × List Char)
  | _, [] => none
  | last, c :: data =>
    if c = '"' ∧ last ≠ '\\' then some ([c], data)
    else (quotedEnd c data).map fun (param, left) => (c :: param, left)

def parseQuotedParam (data : List Char) : Except String (List Char × List Char) :=
  match quotedEnd '\x00' data.tail with
  | none => .error "unterminated quoted string"
  | some (param, left) => .ok (data.take 1 ++ param, left.dropWhile (· = ' '))

def inUnquoted (c : Char) : Bool := c ≠ ',' && c ≠ ']'

def parseUnquotedParam (data : List Char) : Except String (List Char × List Char) :=
  if data.dropWhile inUnquoted = [] then .error "unterminated parameter"
  else .ok (data.takeWhile inUnquoted, data.dropWhile inUnquoted)

/-- The inner loop of `parseArrayParam`: what is left of `b` after it. -/
def arrayItem (b : List Char) : Except String (List Char) :=
  match b.dropWhile (· = ' ') with
  | [] => .ok b
  | '"' :: data => (parseQuotedParam ('"' :: data)).map Prod.snd
  | '[' :: _ => .error "nested arrays are not supported"
  | c :: data => (parseUnquotedParam (c :: data)).map Prod.snd

theorem quotedEnd_length {last : Char} (h : quotedEnd last data = some (param, left)) :
    left.length < data.length := by
  induction data generalizing last param with
  | nil => cases h
  | cons c data ih =>
    rw [quotedEnd] at h
    split_ifs at h
    · cases h
      exact Nat.lt_succ_self _
    · obtain ⟨⟨p, l⟩, hrest, heq⟩ := Option.map_eq_some_iff.mp h
      cases heq
      exact Nat.lt_succ_of_lt (ih hrest)

theorem parseQuotedParam_length (h : parseQuotedParam data = .ok (param, left)) :
    left.length ≤ data.length := by
  unfold parseQuotedParam at h
  split at h
  · cases h
  · next param' left' hend =>
    cases h
    calc (left'.dropWhile (· = ' ')).length
      _ ≤ left'.length := (List.dropWhile_sublist _).length_le
      _ ≤ data.tail.length := (quotedEnd_length hend).le
      _ ≤ data.length := data.tail_sublist.length_le

theorem parseUnquotedParam_length (h : parseUnquotedParam data = .ok (param, left)) :
    left.length ≤ data.length := by
  unfold parseUnquotedParam at h
  split_ifs at h
  cases h
  exact (List.dropWhile_sublist _).length_le

theorem arrayItem_length (h : arrayItem b = .ok left) : left.length ≤ b.length := by
  have hspaces : (b.dropWhile (· = ' ')).length ≤ b.length := (List.dropWhile_sublist _).length_le
  unfold arrayItem at h
  split at h
  · cases h
    exact Nat.le_refl _
  · next data hb =>
    obtain ⟨⟨param, left⟩, hparam, rfl⟩ := map_eq_ok h
    exact (parseQuotedParam_length hparam).trans (hb ▸ hspaces)
  · cases h
  · next c data _ _ hb =>
    obtain ⟨⟨param, left⟩, hparam, rfl⟩ := map_eq_ok h
    exact (parseUnquotedParam_length hparam).trans (hb ▸ hspaces)

/-- The loop of `parseArrayParam`: what is left of `b` where the closing bracket is. -/
def arrayEnd (b : List Char) : Except String (List Char) :=
  if b = [] then .error "unterminated array parameter X"
  else
    match _hitem : arrayItem b with
    | .error err => .error err
    | .ok [] => .error "unterminated array parameter"
    | .ok (c :: left) =>
      if c = ']' then .ok (c :: left)
      else if c = ',' then arrayEnd left
      else .error "unterminated array parameter"
termination_by b.length
decreasing_by exact arrayItem_length _hitem

def parseArrayParam (data : List Char) : Except String (List Char × List Char) :=
  (arrayEnd data.tail).map fun b => (data.take (data.length - b.length + 1), b.tail)

def unquoteLoop : Char → List Char → List Char
  | _, [] => []
  | last, c :: data =>
    if c = '"' then if last = '\\' then c :: unquoteLoop c data else []
    else if c = '\\' then if last = '\\' then c :: unquoteLoop c data else unquoteLoop c data
    else if last = '\\' then '\\' :: c :: unquoteLoop c data
    else c :: unquoteLoop c data

def unquoteParam (data : List Char) : List Char := unquoteLoop '\x00' data.tail

/-- The inner loop of `expandArray`: the item and what is left of `b`; `parseArrayParam` has
parsed them. -/
def expandItem (b : List Char) : Except String (List Char × List Char) :=
  match b.dropWhile (· = ' ') with
  | [] => .ok ([], b)
  | '"' :: data => parseQuotedParam ('"' :: data)
  | c :: data => parseUnquotedParam (c :: data)

theorem expandItem_length (h : expandItem b = .ok (param, left)) : left.length ≤ b.length := by
  have hspaces : (b.dropWhile (· = ' ')).length ≤ b.length := (List.dropWhile_sublist _).length_le
  unfold expandItem at h
  split at h
  · cases h
    exact Nat.le_refl _
  · next data hb => exact (parseQuotedParam_length h).trans (hb ▸ hspaces)
  · next c data _ hb => exact (parseUnquotedParam_length h).trans (hb ▸ hspaces)

def expandLoop (b : List Char) : List Char :=
  match _hitem : expandItem b with
  | .error _ => []
  | .ok (p, []) => p
  | .ok (p, c :: left) => if c = ']' then p else p ++ ',' :: expandLoop left
termination_by b.length
decreasing_by exact expandItem_length _hitem

def expandArray (data : List Char) : List Char := expandLoop data.tail

def parseParam (data : List Char) : Except String (List Char × List Char) :=
  match data.dropWhile (· = ' ') with
  | [] => .error "unterminated parameter list"
  | '"' :: data => (parseQuotedParam ('"' :: data)).map fun (p, left) => (unquoteParam p, left)
  | '[' :: data => (parseArrayParam ('[' :: data)).map fun (p, left) => (expandArray p, left)
  | c :: data => if inUnquoted c then parseUnquotedParam (c :: data) else .ok ([], c :: data)

theorem arrayEnd_length (h : arrayEnd b = .ok left) : left.length ≤ b.length := by
  fun_induction arrayEnd b with
  | case1 => cases h
  | case2 => cases h
  | case3 => cases h
  | case4 b hne left' hitem =>
    cases h
    exact arrayItem_length hitem
  | case5 b hne left' hitem hcomma ih => exact (ih h).trans (Nat.le_of_lt (arrayItem_length hitem))
  | case6 => cases h

theorem parseArrayParam_length (h : parseArrayParam data = .ok (param, left)) :
    left.length ≤ data.length := by
  obtain ⟨b, hb, heq⟩ := map_eq_ok h
  cases heq
  calc b.tail.length
    _ ≤ b.length := b.tail_sublist.length_le
    _ ≤ data.tail.length := arrayEnd_length hb
    _ ≤ data.length := data.tail_sublist.length_le

theorem parseParam_length (h : parseParam data = .ok (param, left)) :
    left.length ≤ data.length := by
  have hspaces : (data.dropWhile (· = ' ')).length ≤ data.length :=
    (List.dropWhile_sublist _).length_le
  unfold parseParam at h
  split at h
  · cases h
  · next rest hb =>
    obtain ⟨⟨p, l⟩, hparam, heq⟩ := map_eq_ok h
    cases heq
    exact (parseQuotedParam_length hparam).trans (hb ▸ hspaces)
  · next rest hb =>
    obtain ⟨⟨p, l⟩, hparam, heq⟩ := map_eq_ok h
    cases heq
    exact (parseArrayParam_length hparam).trans (hb ▸ hspaces)
  · next c rest _ _ hb =>
    split_ifs at h
    · exact (parseUnquotedParam_length h).trans (hb ▸ hspaces)
    · cases h
      exact hb ▸ hspaces

def paramsLoop (b : List Char) : Except String (List (List Char) × List Char) :=
  match _hparam : parseParam b with
  | .error err => .error err
  | .ok (_, []) => .error "key parameters ended unexpectedly"
  | .ok (param, c :: left) =>
    if c = ']' then .ok ([param], left)
    else if c = ',' then
      if left = [] then .error "unterminated parameter list"
      else (paramsLoop left).map fun (params, left) => (param :: params, left)
    else .error "invalid parameter separator"
termination_by b.length
decreasing_by exact parseParam_length _hparam

def parseParams (data : List Char) : Except String (List (List Char) × List Char) :=
  match data with
  | [_] => .error "unterminated parameter list"
  | '[' :: b => paramsLoop b
  | _ => .error "key name must be followed by '['"

structure ParsedKey where
  key : List Char
  params : List (List Char)
  left : List Char
  deriving DecidableEq

def keyError : String := "Invalid item key format."

def parseKey (data : List Char) (wildcard : Bool) : Except String ParsedKey :=
  let key := data.takeWhile (isKeyChar · wildcard)
  match data.dropWhile (isKeyChar · wildcard) with
  | [] => .ok { key := data, params := [], left := [] }
  | c :: left =>
    if key = [] then .error keyError
    else if c = '[' then
      match parseParams (c :: left) with
      | .error _ => .error keyError
      | .ok (params, left) => .ok { key := key, params := params, left := left }
    else .ok { key := key, params := [], left := c :: left }

def parseMetricKey (text : List Char) (wildcard : Bool) :
    Except String (List Char × List (List Char)) :=
  if text = [] then .error keyError
  else
    match parseKey text wildcard with
    | .error err => .error err
    | .ok parsed => if parsed.left = [] then .ok (parsed.key, parsed.params) else .error keyError

def parseItemKey (text : List Char) : Except String (List Char × List (List Char)) :=
  parseMetricKey text false

def parseWildcardKey (text : List Char) : Except String (List Char × List (List Char)) :=
  parseMetricKey text true

end Zabbix.Itemutil
