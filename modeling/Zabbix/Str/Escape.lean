import Mathlib.Data.List.Basic

/-!
# Escaping into a buffer

`zbx_escape_string` of `zbxstr` takes one from `len` for each character of the source, also
where it writes two bytes.
-/

namespace Zabbix.Str

open List

variable {charlist src : List UInt8}

def backslash : UInt8 := 92

/-- What `zbx_escape_string` returns, and the bytes that it has written to `dst` by then. -/
def zbxEscapeString (charlist : List UInt8) : UInt64 → List UInt8 → Bool × List UInt8
  | _, [] => (true, [0])
  | len, c :: src =>
    if c ∈ charlist then
      if len - 1 = 0 then (false, [])
      else
        let (ret, dst) := zbxEscapeString charlist (len - 1) src
        (ret, backslash :: c :: dst)
    else
      if len - 1 = 0 then (false, [])
      else
        let (ret, dst) := zbxEscapeString charlist (len - 1) src
        (ret, c :: dst)

def escaped (charlist src : List UInt8) : List UInt8 :=
  src.flatMap fun c => if c ∈ charlist then [backslash, c] else [c]

def unescaped (charlist : List UInt8) : List UInt8 → List UInt8
  | [] => []
  | [c] => [c]
  | c :: d :: text =>
    if c = backslash ∧ d ∈ charlist then d :: unescaped charlist text
    else c :: unescaped charlist (d :: text)

theorem escaped_cons (c : UInt8) (src : List UInt8) :
    escaped charlist (c :: src) =
      (if c ∈ charlist then [backslash, c] else [c]) ++ escaped charlist src := flatMap_cons

theorem length_escaped (charlist src : List UInt8) :
    (escaped charlist src).length = src.length + src.countP (· ∈ charlist) := by
  induction src with
  | nil => rfl
  | cons c src ih =>
    rw [escaped_cons, length_append, ih, length_cons, countP_cons]
    by_cases hc : c ∈ charlist
    · rw [if_pos hc, if_pos (decide_eq_true hc), length_cons, length_singleton]
      omega
    · rw [if_neg hc, if_neg (by simpa using hc), length_singleton]
      omega

theorem head_escaped_notMem (h : backslash ∉ charlist) {d : UInt8} {text : List UInt8}
    (htext : escaped charlist src = d :: text) : d ∉ charlist := by
  cases src with
  | nil => cases htext
  | cons c src =>
    rw [escaped_cons] at htext
    split_ifs at htext with hc
    · rwa [← (cons.inj htext).1]
    · rwa [← (cons.inj htext).1]

theorem unescaped_escaped (charlist src : List UInt8) :
    unescaped charlist (escaped charlist src) = src := by
  induction src with
  | nil => rfl
  | cons c src ih =>
    rw [escaped_cons]
    by_cases hc : c ∈ charlist
    · rw [if_pos hc, cons_append, cons_append, nil_append, unescaped, if_pos ⟨rfl, hc⟩, ih]
    · rw [if_neg hc, cons_append, nil_append]
      cases htext : escaped charlist src with
      | nil =>
        rw [htext] at ih
        rw [← ih]
        rfl
      | cons d text =>
        have hkept : ¬(c = backslash ∧ d ∈ charlist) := by
          rintro ⟨rfl, hd⟩
          exact head_escaped_notMem hc htext hd
        rw [unescaped, if_neg hkept, ← htext, ih]

theorem toNat_pred {len : UInt64} (h : len ≠ 0) : (len - 1).toNat = len.toNat - 1 := by
  have hpos : 1 ≤ len.toNat := Nat.one_le_iff_ne_zero.mpr fun hzero => h (UInt64.toNat_inj.mp hzero)
  exact UInt64.toNat_sub_of_le _ _ (UInt64.le_iff_toNat_le.mpr hpos)

theorem escapeString_eq {len : UInt64} (hlen : len ≠ 0) :
    zbxEscapeString charlist len src =
      if src.length < len.toNat then (true, escaped charlist src ++ [0])
      else (false, escaped charlist (src.take (len.toNat - 1))) := by
  have hpos : len.toNat ≠ 0 := fun hzero => hlen (UInt64.toNat_inj.mp hzero)
  induction src generalizing len with
  | nil =>
    rw [if_pos (show ([] : List UInt8).length < len.toNat by rw [length_nil]; omega)]
    rfl
  | cons c src ih =>
    have hpred := toNat_pred hlen
    by_cases hlast : len - 1 = 0
    · have hone : len.toNat = 1 := by
        have hzero : (len - 1).toNat = 0 := by rw [hlast]; rfl
        omega
      rw [zbxEscapeString, if_pos hlast, if_pos hlast, ite_self, hone,
        if_neg (by rw [length_cons]; omega)]
      rfl
    · have hpos' : (len - 1).toNat ≠ 0 := fun hzero => hlast (UInt64.toNat_inj.mp hzero)
      rw [zbxEscapeString, if_neg hlast, if_neg hlast, ih hlast hpos', hpred]
      by_cases hfits : src.length < len.toNat - 1
      · rw [if_pos hfits, if_pos (show (c :: src).length < len.toNat by rw [length_cons]; omega),
          escaped_cons]
        split_ifs <;> rfl
      · have htake : len.toNat - 1 = (len.toNat - 1 - 1) + 1 := by omega
        rw [if_neg hfits, if_neg (show ¬(c :: src).length < len.toNat by rw [length_cons]; omega)]
        conv_rhs => rw [htake, take_succ_cons, escaped_cons]
        split_ifs <;> rfl

/-- The escaped string and its terminator stay inside of the buffer, it is written whole when
it fits, and it can be read back. -/
def EscapesWithin (charlist src : List UInt8) (len : UInt64) : Prop :=
  (zbxEscapeString charlist len src).2.length ≤ len.toNat ∧
    ((zbxEscapeString charlist len src).1 = true ↔
      (escaped charlist src).length + 1 ≤ len.toNat) ∧
    ((zbxEscapeString charlist len src).1 = true →
      ∃ text, (zbxEscapeString charlist len src).2 = text ++ [0] ∧ unescaped charlist text = src)

/-- It does so when the string fits, and when the buffer is full after at most one character
that takes two bytes. -/
theorem escapesWithin_iff {len : UInt64} (hlen : 1 ≤ len) :
    EscapesWithin charlist src len ↔
      src.length + src.countP (· ∈ charlist) < len.toNat ∨
        (len.toNat ≤ src.length ∧ (src.take (len.toNat - 1)).countP (· ∈ charlist) ≤ 1) := by
  have hne : len ≠ 0 := by
    rintro rfl
    exact absurd hlen (by decide)
  have hpos : 1 ≤ len.toNat := UInt64.le_iff_toNat_le.mp hlen
  unfold EscapesWithin
  rw [escapeString_eq hne, length_escaped]
  by_cases hshort : src.length < len.toNat
  · rw [if_pos hshort]
    simp only [length_append, length_singleton, length_escaped, true_iff]
    constructor
    · rintro ⟨hwritten, -, -⟩
      exact .inl hwritten
    · rintro (hfits | ⟨hlong, -⟩)
      · exact ⟨hfits, hfits, fun _ => ⟨_, rfl, unescaped_escaped charlist src⟩⟩
      · exact absurd hlong (Nat.not_le.mpr hshort)
  · rw [if_neg hshort]
    have htaken : (src.take (len.toNat - 1)).length = len.toNat - 1 :=
      length_take_of_le (by omega)
    simp only [length_escaped, htaken, Bool.false_eq_true, false_iff]
    constructor
    · rintro ⟨hwritten, -, -⟩
      exact .inr ⟨by omega, by omega⟩
    · rintro (hfits | ⟨-, hone⟩)
      · omega
      · exact ⟨by omega, by omega, fun hfalse => hfalse.elim⟩

theorem escapesWithin_iff_comma :
    ¬EscapesWithin [44] [44, 44, 97] 3 ∧ EscapesWithin [44] [97, 44, 97] 3 :=
  ⟨mt (escapesWithin_iff (by decide)).mp (by decide),
    (escapesWithin_iff (by decide)).mpr (by decide)⟩

theorem escapeString_overflows : ¬EscapesWithin [44] [44] 2 :=
  fun h => absurd h.1 (by decide)

end Zabbix.Str
