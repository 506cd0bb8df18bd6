import Mathlib.Algebra.Group.Nat.Defs
import Mathlib.Data.List.Basic

/-!
# Base64

The encoding of RFC 4648 with the standard alphabet and padding, and the texts of full groups.
-/

namespace Zabbix.Base64

open List

def ascii (c : Char) : UInt8 := c.toNat.toUInt8

def alphabet : List UInt8 :=
  "ABCDEFGHIJKLMNOPQRSTUVWXYZabcdefghijklmnopqrstuvwxyz0123456789+/".toList.map ascii

def padding : UInt8 := ascii '='

def digit (n : ℕ) : UInt8 := alphabet.getD (n % 64) padding

/-- Three octets are a number of 24 bits. Bits that are missing at the end are zero, and there is
padding for digits that have no other bits. -/
def encode : List UInt8 → List UInt8
  | [] => []
  | [a] =>
    let n := a.toNat * 2 ^ 16
    [digit (n / 2 ^ 18), digit (n / 2 ^ 12), padding, padding]
  | [a, b] =>
    let n := a.toNat * 2 ^ 16 + b.toNat * 2 ^ 8
    [digit (n / 2 ^ 18), digit (n / 2 ^ 12), digit (n / 2 ^ 6), padding]
  | a :: b :: c :: rest =>
    let n := a.toNat * 2 ^ 16 + b.toNat * 2 ^ 8 + c.toNat
    digit (n / 2 ^ 18) :: digit (n / 2 ^ 12) :: digit (n / 2 ^ 6) :: digit n :: encode rest

def Symbol (c : UInt8) : Prop := c ∈ alphabet

instance : DecidablePred Symbol := fun c => inferInstanceAs (Decidable (c ∈ alphabet))

/-- `^(?:X{4})*(?:X{2}==|X{3}=|X{4})$` with the symbols for `X`. -/
inductive Text : List UInt8 → Prop
  | twice {a b : UInt8} (ha : Symbol a) (hb : Symbol b) : Text [a, b, padding, padding]
  | once {a b c : UInt8} (ha : Symbol a) (hb : Symbol b) (hc : Symbol c) : Text [a, b, c, padding]
  | last {a b c d : UInt8} (ha : Symbol a) (hb : Symbol b) (hc : Symbol c) (hd : Symbol d) :
      Text [a, b, c, d]
  | more {a b c d : UInt8} {rest : List UInt8} (ha : Symbol a) (hb : Symbol b) (hc : Symbol c)
      (hd : Symbol d) (hrest : Text rest) : Text (a :: b :: c :: d :: rest)

def isText : List UInt8 → Bool
  | a :: b :: c :: d :: rest =>
    if Symbol a ∧ Symbol b ∧ Symbol c ∧ Symbol d then rest = [] || isText rest
    else rest = [] && Symbol a && Symbol b && (Symbol c || c = padding) && d = padding
  | _ => false

theorem isText_iff (text : List UInt8) : isText text = true ↔ Text text := by
  fun_induction isText text with
  | case1 a b c d rest hall ih =>
    obtain ⟨ha, hb, hc, hd⟩ := hall
    constructor
    · intro h
      rcases Bool.or_eq_true_iff.mp h with hlast | hmore
      · rw [of_decide_eq_true hlast]
        exact .last ha hb hc hd
      · exact .more ha hb hc hd (ih.mp hmore)
    · intro h
      cases h with
      | twice => rfl
      | once => rfl
      | last => rfl
      | more _ _ _ _ hrest => rw [ih.mpr hrest, Bool.or_true]
  | case2 a b c d rest hall =>
    constructor
    · intro h
      simp only [Bool.and_eq_true, decide_eq_true_eq, Bool.or_eq_true] at h
      obtain ⟨⟨⟨⟨rfl, ha⟩, hb⟩, hc | rfl⟩, rfl⟩ := h
      · exact .once ha hb hc
      · exact .twice ha hb
    · intro h
      cases h with
      | twice ha hb => simp [ha, hb]
      | once ha hb hc => simp [ha, hb, hc]
      | last ha hb hc hd | more ha hb hc hd hrest => exact absurd ⟨ha, hb, hc, hd⟩ hall
  | case3 text hshort =>
    constructor
    · intro h
      cases h
    · intro h
      cases h with
      | twice | once | last | more => exact absurd rfl (hshort _ _ _ _ _)

theorem digit_eq (n : ℕ) : alphabet[n % 64]? = some (digit n) := by
  have hbound : n % 64 < alphabet.length := Nat.mod_lt n (by decide)
  rw [digit, getD_eq_getElem?_getD, List.getElem?_eq_getElem hbound, Option.getD_some]

theorem digit_symbol (n : ℕ) : Symbol (digit n) := mem_of_getElem? (digit_eq n)

theorem length_encode (bytes : List UInt8) :
    (encode bytes).length = (bytes.length + 2) / 3 * 4 := by
  fun_induction encode bytes with
  | case1 => rfl
  | case2 a n => simp
  | case3 a b n => simp
  | case4 a b c rest n ih =>
    simp only [length_cons, ih]
    omega

theorem encode_append (bytes : List UInt8) (hfull : 3 ∣ bytes.length) (rest : List UInt8) :
    encode (bytes ++ rest) = encode bytes ++ encode rest := by
  fun_induction encode bytes with
  | case1 => rfl
  | case2 a n => simp at hfull
  | case3 a b n => simp at hfull
  | case4 a b c bytes n ih =>
    have hbytes : 3 ∣ bytes.length := by
      simp only [length_cons] at hfull
      omega
    simp only [cons_append, encode, ih hbytes]
    rfl

theorem encode_text {bytes : List UInt8} (hne : bytes ≠ []) : Text (encode bytes) := by
  fun_induction encode bytes with
  | case1 => exact absurd rfl hne
  | case2 a n => exact .twice (digit_symbol _) (digit_symbol _)
  | case3 a b n => exact .once (digit_symbol _) (digit_symbol _) (digit_symbol _)
  | case4 a b c rest n ih =>
    cases rest with
    | nil => exact .last (digit_symbol _) (digit_symbol _) (digit_symbol _) (digit_symbol _)
    | cons d rest =>
      apply Text.more (digit_symbol _) (digit_symbol _) (digit_symbol _) (digit_symbol _)
      exact ih (cons_ne_nil d rest)

end Zabbix.Base64
