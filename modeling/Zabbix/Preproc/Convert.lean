import Zabbix.Eval.Execute

/-!
# Conversions of preprocessed values

`zbx_variant_convert` and `zbx_variant_set_numeric` over a type of floating point numbers, and the
conversion to a number of `item_preproc.c`.
-/

namespace Zabbix.Preproc

open Zabbix.Eval

/-- `Floating` with what converting to and from integers needs; `truncate` is the cast to
`zbx_uint64_t`. -/
structure Double (D : Type) extends Floating D where
  le : D → D → Bool
  truncate : D → UInt64
  ofInt : ℤ → D

inductive ItemValueType
  | float
  | str
  | log
  | uint64
  | text
  | bin
  | none
  deriving DecidableEq

inductive TypeHint
  | dbl
  | ui64

def itemPreprocNumericTypeHint : ItemValueType → Option TypeHint
  | .float => some .dbl
  | .uint64 => some .ui64
  | _ => none

def zbxTrimInteger (s : List Char) : List Char :=
  match zbxTrimFloat s with
  | '+' :: rest => rest
  | s => s

/-- `zbx_del_zeros`: zeros at the end of a decimal part, with the point when nothing is left. -/
def zbxDelZeros (s : List Char) : List Char :=
  if 'e' ∈ s ∨ 'E' ∈ s ∨ s.count '.' ≠ 1 then s
  else
    let s := zbxRtrim s ['0']
    if s.getLast? = some '.' then s.dropLast else s

def integerText (text : List Char) : List Char :=
  zbxDelZeros (zbxTrimInteger (zbxRtrim (text.take (maxStringLen - 1)) ['\n', '\r']))

section Conversions

variable {D : Type} (fl : Double D)

def dblToUi64 (value : D) : Option UInt64 :=
  if fl.lt value fl.zero then none
  else if fl.le (fl.ofUInt64 (UInt64.ofNat (2 ^ 64 - 1))) value then none
  else some (fl.truncate value)

def variantToUi64 : Variant D → Option UInt64
  | .ui64 value => some value
  | .dbl value => dblToUi64 fl value
  | .str text =>
    match zbxIsUint64 (integerText text) with
    | some value => some value
    | none => (fl.isDouble (integerText text)).bind (dblToUi64 fl)
  | _ => none

def variantToStr : Variant D → Option (List Char)
  | .str text => some text
  | .dbl value => some (fl.desc value)
  | .ui64 value => some (toString value.toNat).toList
  | _ => none

def zbxVariantConvert (value : Variant D) : TypeHint → Option (Variant D)
  | .dbl => (variantToDbl fl.toFloating value).map .dbl
  | .ui64 => (variantToUi64 fl value).map .ui64

def zbxVariantSetNumeric (text : List Char) : Option (Variant D) :=
  match integerText text with
  | '+' :: _ => none
  | buffer =>
    match zbxIsUint64 buffer with
    | some value => some (.ui64 value)
    | none => (fl.isDouble buffer).map .dbl

def zbxItemPreprocConvertValueToNumeric (value : Variant D) (valueType : ItemValueType) :
    Except (List Char) (Variant D) :=
  let number : Option (Variant D) :=
    match value with
    | .dbl _ | .ui64 _ => some value
    | .str text => zbxVariantSetNumeric fl text
    | _ => none
  match number with
  | none => .error "cannot convert value to numeric type".toList
  | some number =>
    match itemPreprocNumericTypeHint valueType with
    | none => .ok number
    | some hint => .ok ((zbxVariantConvert fl number hint).getD number)

end Conversions

end Zabbix.Preproc
