import Mathlib.Order.CompletePartialOrder
import Zabbix.Foundation.Reading

/-!
# The JSON grammar

RFC 8259 as languages over the bytes of a text, one `Char` for each byte. The grammar leaves
open what a `\u` escape may be followed by and which digits follow a decimal point.
-/

namespace Zabbix.JsonGrammar

open Computability

def isWs (c : Char) : Bool := c = ' ' || c = '\t' || c = '\r' || c = '\n'

def isDigit (c : Char) : Bool := '0' ≤ c && c ≤ '9'

def isHex (c : Char) : Bool := isDigit c || ('a' ≤ c && c ≤ 'f') || ('A' ≤ c && c ≤ 'F')

def isUnescaped (c : Char) : Bool := ' ' ≤ c && c ≠ '"' && c ≠ '\\'

def isShortEscape (c : Char) : Bool :=
  c = '"' || c = '\\' || c = '/' || c = 'b' || c = 'f' || c = 'n' || c = 'r' || c = 't'

structure Dialect where
  unicode : Language Char
  fraction : Language Char

def ws : Language Char := (oneOf isWs)∗

def digits : Language Char := (oneOf isDigit)∗

def digits1 : Language Char := oneOf isDigit * digits

def hex4 : Language Char := oneOf isHex * oneOf isHex * oneOf isHex * oneOf isHex

def int : Language Char := single '0' + oneOf (fun c => isDigit c && c ≠ '0') * digits

def exponent : Language Char :=
  (single 'e' + single 'E') * (1 + single '-' + single '+') * digits1

def number (D : Dialect) : Language Char :=
  (1 + single '-') * int * (1 + single '.' * D.fraction) * (1 + exponent)

def char (D : Dialect) : Language Char :=
  oneOf isUnescaped + single '\\' * (oneOf isShortEscape + single 'u' * D.unicode)

def string (D : Dialect) : Language Char := single '"' * (char D)∗ * single '"'

def literals : Language Char :=
  {['t', 'r', 'u', 'e'], ['f', 'a', 'l', 's', 'e'], ['n', 'u', 'l', 'l']}

def array (value : Language Char) : Language Char :=
  single '[' * (ws + separated ',' (ws * value * ws)) * single ']'

def member (D : Dialect) (value : Language Char) : Language Char :=
  ws * string D * ws * single ':' * ws * value * ws

def object (D : Dialect) (value : Language Char) : Language Char :=
  single '{' * (ws + separated ',' (member D value)) * single '}'

def container (D : Dialect) (value : Language Char) : Language Char :=
  array value + object D value

/-- The values that have less than `n` arrays and objects one inside the other around any
value in them. -/
def value (D : Dialect) : ℕ → Language Char
  | 0 => 0
  | n + 1 => string D + number D + literals + container D (value D n)

def rfc8259 : Dialect where
  unicode := hex4
  fraction := digits1

def hexDigit (c : Char) : ℕ :=
  if isDigit c then c.toNat - '0'.toNat
  else if 'a' ≤ c then c.toNat - 'a'.toNat + 10
  else c.toNat - 'A'.toNat + 10

def hexNumber (w : List Char) : ℕ := w.foldl (fun n c => 16 * n + hexDigit c) 0

/-- The escapes of the code units that satisfy `p`. -/
def codeUnit (p : ℕ → Prop) : Language Char := {w | w ∈ hex4 ∧ p (hexNumber w)}

def codePoint : Language Char :=
  codeUnit (fun n => n < 0xd800 ∨ 0xdfff < n) +
    codeUnit (fun n => 0xd800 ≤ n ∧ n ≤ 0xdbff) * single '\\' * single 'u' *
      codeUnit (fun n => 0xdc00 ≤ n ∧ n ≤ 0xdfff)

theorem separated_mono {L M : Language Char} (hle : L ≤ M) : separated ',' L ≤ separated ',' M :=
  mul_le_mul' hle (kstar_mono (mul_le_mul' le_rfl hle))

theorem value_mono {D D' : Dialect} (hunicode : D.unicode ≤ D'.unicode)
    (hfraction : D.fraction ≤ D'.fraction) (n : ℕ) : value D n ≤ value D' n := by
  have hchar : char D ≤ char D' :=
    add_le_add le_rfl (mul_le_mul' le_rfl (add_le_add le_rfl (mul_le_mul' le_rfl hunicode)))
  have hstring : string D ≤ string D' := mul_le_mul' (mul_le_mul' le_rfl (kstar_mono hchar)) le_rfl
  have hnumber : number D ≤ number D' := by
    refine mul_le_mul' (mul_le_mul' le_rfl ?_) le_rfl
    exact add_le_add le_rfl (mul_le_mul' le_rfl hfraction)
  induction n with
  | zero => exact le_rfl
  | succ n ih =>
    have hitem : ws * value D n * ws ≤ ws * value D' n * ws :=
      mul_le_mul' (mul_le_mul' le_rfl ih) le_rfl
    have hmember : member D (value D n) ≤ member D' (value D' n) := by
      refine mul_le_mul' (mul_le_mul' ?_ ih) le_rfl
      refine mul_le_mul' (mul_le_mul' (mul_le_mul' ?_ le_rfl) le_rfl) le_rfl
      exact mul_le_mul' le_rfl hstring
    refine add_le_add (add_le_add (add_le_add hstring hnumber) le_rfl) (add_le_add ?_ ?_)
    · exact mul_le_mul' (mul_le_mul' le_rfl (add_le_add le_rfl (separated_mono hitem))) le_rfl
    · exact mul_le_mul' (mul_le_mul' le_rfl (add_le_add le_rfl (separated_mono hmember))) le_rfl

theorem number_le {D : Dialect} {q : Char → Bool}
    (hq : ∀ c, isDigit c ∨ c ∈ ['-', '+', '.', 'e', 'E'] → q c)
    (hfraction : D.fraction ≤ (oneOf q)∗) : number D ≤ (oneOf q)∗ := by
  have hmul : ∀ {L M : Language Char}, L ≤ (oneOf q)∗ → M ≤ (oneOf q)∗ → L * M ≤ (oneOf q)∗ := by
    intro L M hL hM
    rw [← kstar_mul_kstar (oneOf q)]
    exact mul_le_mul' hL hM
  have hone : (1 : Language Char) ≤ (oneOf q)∗ := one_le_kstar
  have hclass : ∀ {r : Char → Bool}, (∀ c, r c → isDigit c) → oneOf r ≤ (oneOf q)∗ := by
    intro r hr w hw
    obtain ⟨c, hc, rfl⟩ := hw
    apply mem_kstar_oneOf.mpr
    intro d hd
    rw [List.mem_singleton.mp hd]
    exact hq c (.inl (hr c hc))
  have hsingle : ∀ c ∈ ['-', '+', '.', 'e', 'E'], single c ≤ (oneOf q)∗ := by
    intro c hc w hw
    rw [show w = [c] from hw]
    apply mem_kstar_oneOf.mpr
    intro d hd
    rw [List.mem_singleton.mp hd]
    exact hq c (.inr hc)
  have hzero : single '0' ≤ (oneOf q)∗ := by
    intro w hw
    exact hclass (fun c hc => hc) ⟨'0', rfl, hw⟩
  have hdigits : digits ≤ (oneOf q)∗ := by
    intro w hw
    apply mem_kstar_oneOf.mpr
    intro c hc
    exact hq c (.inl (mem_kstar_oneOf.mp hw c hc))
  have hdigits1 : digits1 ≤ (oneOf q)∗ := hmul (hclass fun c hc => hc) hdigits
  have hint : int ≤ (oneOf q)∗ := by
    apply add_le hzero
    apply hmul (hclass ?_) hdigits
    intro c hc
    exact (Bool.and_eq_true_iff.mp hc).1
  have hexponent : exponent ≤ (oneOf q)∗ := by
    apply hmul (hmul ?_ ?_) hdigits1
    · exact add_le (hsingle 'e' (by simp)) (hsingle 'E' (by simp))
    · exact add_le (add_le hone (hsingle '-' (by simp))) (hsingle '+' (by simp))
  apply hmul (hmul (hmul ?_ hint) ?_) (add_le hone hexponent)
  · exact add_le hone (hsingle '-' (by simp))
  · exact add_le hone (hmul (hsingle '.' (by simp)) hfraction)

end Zabbix.JsonGrammar
