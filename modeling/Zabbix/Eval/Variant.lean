import Zabbix.Eval.Token

/-!
# Variant values

`zbx_variant_t` over a type `D` of floating point numbers, and the conversions and
comparisons that evaluating an expression uses.
-/

namespace Zabbix.Eval

open Expr

inductive Variant (D : Type)
  | none
  | str (text : List Char)
  | dbl (value : D)
  | ui64 (value : UInt64)
  | bin (data : List UInt8)
  | vector (values : List (Variant D))
  | err (message : List Char)

namespace Variant

variable {D : Type}

def isErr : Variant D → Bool
  | err _ => true
  | _ => false

def isVector : Variant D → Bool
  | vector _ => true
  | _ => false

end Variant

/-- The arithmetic of `double`. `equal` is `zbx_double_compare`, `regular` what `fpclassify` allows,
`isDouble` is `zbx_is_double` and `desc` prints a number as `zbx_variant_value_desc`. -/
structure Floating (D : Type) where
  zero : D
  one : D
  neg : D → D
  add : D → D → D
  sub : D → D → D
  mul : D → D → D
  div : D → D → D
  ofUInt64 : UInt64 → D
  equal : D → D → Bool
  lt : D → D → Bool
  regular : D → Bool
  isDouble : List Char → Option D
  atof : List Char → D
  desc : D → List Char

def maxStringLen : ℕ := 2048

def zbxRtrim (s charlist : List Char) : List Char :=
  (s.reverse.dropWhile (· ∈ charlist)).reverse

def zbxTrimFloat (s : List Char) : List Char :=
  let s := zbxRtrim (s.dropWhile (· = ' ')) [' ']
  match s with
  | '"' :: rest => if rest.getLast? = some '"' then rest.dropLast else s
  | _ => s

def suffix2factor (c : Char) : UInt64 :=
  if c = 'K' then 1024
  else if c = 'M' then 1024 * 1024
  else if c = 'G' then 1024 * 1024 * 1024
  else if c = 'T' then 1024 * 1024 * 1024 * 1024
  else if c = 's' then 1
  else if c = 'm' then 60
  else if c = 'h' then 3600
  else if c = 'd' then 86400
  else if c = 'w' then 604800
  else 1

/-- `eval_suffixed_number_parse`: the suffix, which is the last character in any case. -/
def evalSuffixedNumberParse (value : List Char) : Option Char :=
  let value := if charAt value = '-' then value.tail else value
  if zbxSuffixedNumberParse value = some value.length then some (value.getLastD '\x00') else none

section Arithmetic

variable {D : Type} (fl : Floating D)

def variantConvertSuffixedNum : Variant D → Option (Variant D)
  | .str text =>
    (evalSuffixedNumberParse text).bind fun suffix =>
      let result := fl.mul (fl.atof text) (fl.ofUInt64 (suffix2factor suffix))
      if fl.regular result then some (.dbl result) else none
  | _ => none

def variantToDbl : Variant D → Option D
  | .dbl value => some value
  | .ui64 value => some (fl.ofUInt64 value)
  | .str text => fl.isDouble (zbxTrimFloat (zbxRtrim (text.take (maxStringLen - 1)) ['\n', '\r']))
  | _ => none

def hexByte (b : UInt8) : List Char :=
  [Nat.digitChar (b.toNat / 16), Nat.digitChar (b.toNat % 16)]

def zbxVariantValueDesc : Variant D → List Char
  | .dbl value => fl.desc value
  | .ui64 value => (toString value.toNat).toList
  | .str text => text
  | .none => []
  | .bin data => [' '].intercalate ((data.take 21).map hexByte)
  | .err message => message
  | .vector values => ("var vector[0:" ++ toString values.length ++ "]").toList

def strcmp {α : Type} (code : α → ℕ) : List α → List α → Ordering
  | [], [] => .eq
  | [], _ :: _ => .lt
  | _ :: _, [] => .gt
  | a :: s, b :: t => (compare (code a) (code b)).then (strcmp code s t)

def compareDbl (a b : D) : Ordering :=
  if fl.equal a b then .eq else if fl.lt a b then .lt else if fl.lt b a then .gt else .eq

def comparedDbl : Variant D → Option D
  | .dbl value => some value
  | .ui64 value => some (fl.ofUInt64 value)
  | .str text => if (fl.isDouble text).isSome then some (fl.atof text) else none
  | _ => none

mutual

def zbxVariantCompare : Variant D → Variant D → Ordering
  | .none, .none => .eq
  | .none, _ => .lt
  | _, .none => .gt
  | .err a, .err b => strcmp Char.toNat a b
  | .err _, _ => .gt
  | _, .err _ => .lt
  | .bin a, .bin b => (compare a.length b.length).then (strcmp UInt8.toNat a b)
  | .bin _, _ => .gt
  | _, .bin _ => .lt
  | .vector a, .vector b => (compare a.length b.length).then (compareVector a b)
  | .vector _, _ => .gt
  | _, .vector _ => .lt
  | .ui64 a, .ui64 b => compare a.toNat b.toNat
  | a, b =>
    match comparedDbl fl a, comparedDbl fl b with
    | some x, some y => compareDbl fl x y
    | _, _ => strcmp Char.toNat (zbxVariantValueDesc fl a) (zbxVariantValueDesc fl b)

def compareVector : List (Variant D) → List (Variant D) → Ordering
  | a :: as, b :: bs => (zbxVariantCompare a b).then (compareVector as bs)
  | _, _ => .eq

end

def evalVariantCompare (left right : Variant D) : Ordering :=
  zbxVariantCompare fl ((variantConvertSuffixedNum fl left).getD left)
    ((variantConvertSuffixedNum fl right).getD right)

end Arithmetic

end Zabbix.Eval
