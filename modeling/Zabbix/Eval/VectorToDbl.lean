import Mathlib.Data.List.Forall2
import Zabbix.Eval.Execute

/-!
# Vectors of numbers

The conversion of a vector of variants for the functions that take floating point numbers. The
vector is converted in place, and the numbers are appended to another one.
-/

namespace Zabbix.Eval

open List

variable {D : Type} (fl : Floating D)

def Variant.isStr : Variant D → Bool
  | .str _ => true
  | _ => false

def notNumericData : String := "input data is not numeric"

structure VectorToDbl (D : Type) where
  ret : Except String Unit
  inputVector : List (Variant D)
  outputVector : List D

/-- `zbx_eval_var_vector_to_dbl`; `cleared` is the number a variant holds that was a string until it
was cleared. -/
def zbxEvalVarVectorToDbl (cleared : D) : List (Variant D) → List D → VectorToDbl D
  | [], output => ⟨.ok (), [], output⟩
  | .str text :: input, output =>
    match variantConvertSuffixedNum fl (.str text) with
    | some (.dbl value) =>
      let next := zbxEvalVarVectorToDbl cleared input (output ++ [value] ++ [cleared])
      { next with inputVector := .none :: next.inputVector }
    | _ => ⟨.error notNumericData, .str text :: input, output⟩
  | value :: input, output =>
    match variantToDbl fl value with
    | some x =>
      let next := zbxEvalVarVectorToDbl cleared input (output ++ [x])
      { next with inputVector := .dbl x :: next.inputVector }
    | none => ⟨.error notNumericData, value :: input, output⟩

def numericValue : Variant D → Option D
  | .str text =>
    (evalSuffixedNumberParse text).bind fun suffix =>
      let result := fl.mul (fl.atof text) (fl.ofUInt64 (suffix2factor suffix))
      if fl.regular result then some result else none
  | value => variantToDbl fl value

variable {fl} {cleared : D} {input : List (Variant D)} {output : List D} {value : Variant D}

theorem variantConvertSuffixedNum_eq (text : List Char) :
    variantConvertSuffixedNum fl (.str text) = (numericValue fl (.str text)).map .dbl := by
  unfold variantConvertSuffixedNum numericValue
  simp only [Option.map_bind]
  congr 1
  funext suffix
  simp only [Function.comp_apply]
  split
  · rfl
  · rfl

def appended (cleared : D) (value : Variant D) (x : D) : List D :=
  if value.isStr then [x, cleared] else [x]

def converted (value : Variant D) (x : D) : Variant D := if value.isStr then .none else .dbl x

theorem zbxEvalVarVectorToDbl_cons (cleared : D) (value : Variant D) (input : List (Variant D))
    (output : List D) :
    zbxEvalVarVectorToDbl fl cleared (value :: input) output =
      match numericValue fl value with
      | some x =>
        let next := zbxEvalVarVectorToDbl fl cleared input (output ++ appended cleared value x)
        { next with inputVector := converted value x :: next.inputVector }
      | none => ⟨.error notNumericData, value :: input, output⟩ := by
  cases value with
  | str text =>
    have hstep : zbxEvalVarVectorToDbl fl cleared (.str text :: input) output =
        match variantConvertSuffixedNum fl (.str text) with
        | some (.dbl x) =>
          let next := zbxEvalVarVectorToDbl fl cleared input (output ++ [x] ++ [cleared])
          { next with inputVector := .none :: next.inputVector }
        | _ => ⟨.error notNumericData, .str text :: input, output⟩ := rfl
    rw [hstep, variantConvertSuffixedNum_eq]
    cases numericValue fl (.str text) with
    | none => rfl
    | some x =>
      simp only [Option.map_some, append_assoc]
      rfl
  | _ => rfl

theorem zbxEvalVarVectorToDbl_length (input : List (Variant D)) (output : List D)
    (h : (zbxEvalVarVectorToDbl fl cleared input output).ret = .ok ()) :
    (zbxEvalVarVectorToDbl fl cleared input output).outputVector.length =
      output.length + input.length + input.countP Variant.isStr := by
  induction input generalizing output with
  | nil => rfl
  | cons value input ih =>
    rw [zbxEvalVarVectorToDbl_cons] at h ⊢
    cases hx : numericValue fl value with
    | none =>
      rw [hx] at h
      cases h
    | some x =>
      rw [hx] at h
      apply (ih _ h).trans
      have happended : (appended cleared value x).length = 1 + if value.isStr then 1 else 0 := by
        unfold appended
        split
        · rfl
        · rfl
      rw [length_append, happended, countP_cons, length_cons]
      omega

theorem zbxEvalVarVectorToDbl_numbers (input : List (Variant D)) (output : List D)
    (hstr : ∀ value ∈ input, value.isStr = false)
    (h : (zbxEvalVarVectorToDbl fl cleared input output).ret = .ok ()) :
    ∃ numbers, (zbxEvalVarVectorToDbl fl cleared input output).outputVector = output ++ numbers ∧
      Forall₂ (fun value x => numericValue fl value = some x) input numbers := by
  induction input generalizing output with
  | nil => exact ⟨[], (append_nil output).symm, .nil⟩
  | cons value input ih =>
    obtain ⟨hvalue, hstr⟩ := forall_mem_cons.mp hstr
    rw [zbxEvalVarVectorToDbl_cons] at h ⊢
    cases hx : numericValue fl value with
    | none =>
      rw [hx] at h
      cases h
    | some x =>
      rw [hx] at h
      have happended : appended cleared value x = [x] := by
        rw [appended, hvalue]
        rfl
      obtain ⟨numbers, houtput, hnumbers⟩ := ih _ hstr h
      refine ⟨x :: numbers, houtput.trans ?_, .cons hx hnumbers⟩
      rw [happended, append_assoc, singleton_append]

/-- The numbers are those of the elements, one for each, just when no element is a string. -/
theorem zbxEvalVarVectorToDbl_elements_iff (fl : Floating D) (cleared : D)
    (input : List (Variant D)) (h : (zbxEvalVarVectorToDbl fl cleared input []).ret = .ok ()) :
    Forall₂ (fun value x => numericValue fl value = some x) input
        (zbxEvalVarVectorToDbl fl cleared input []).outputVector ↔
      ∀ value ∈ input, value.isStr = false := by
  constructor
  · intro helements
    have hlength := zbxEvalVarVectorToDbl_length input [] h
    rw [← helements.length_eq, length_nil, Nat.zero_add] at hlength
    have hcount : input.countP Variant.isStr = 0 := by omega
    intro value hvalue
    exact Bool.eq_false_iff.mpr (countP_eq_zero.mp hcount value hvalue)
  · intro hstr
    obtain ⟨numbers, houtput, hnumbers⟩ := zbxEvalVarVectorToDbl_numbers input [] hstr h
    rw [houtput]
    exact hnumbers

theorem zbxEvalVarVectorToDbl_elements_mixed :
    Forall₂ (fun value x => numericValue wholeNumbers value = some x)
      [.ui64 5, .dbl 7] (zbxEvalVarVectorToDbl wholeNumbers 0 [.ui64 5, .dbl 7] []).outputVector :=
  (zbxEvalVarVectorToDbl_elements_iff wholeNumbers 0 [.ui64 5, .dbl 7] rfl).mpr
    (by simp [Variant.isStr])

/-- A string gives its number, and then the number of the cleared variant. -/
theorem zbxEvalVarVectorToDbl_string_twice :
    ¬ ∀ (input : List (Variant ℤ)),
      (zbxEvalVarVectorToDbl wholeNumbers 0 input []).ret = .ok () →
      Forall₂ (fun value x => numericValue wholeNumbers value = some x) input
        (zbxEvalVarVectorToDbl wholeNumbers 0 input []).outputVector := by
  intro h
  have hlength := (h [.str ['1']] (by decide)).length_eq
  exact absurd hlength (by decide)

end Zabbix.Eval
