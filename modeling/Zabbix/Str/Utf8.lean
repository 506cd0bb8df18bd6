import Mathlib

/-!
# UTF-8 texts

`zbx_is_utf8` and `zbx_replace_invalid_utf8` of `zbxstr`, over the bytes in front of the
terminator.
-/

namespace Zabbix.Str

open Nat List

variable {b x y z : UInt8} {tail text rest : List UInt8}

def isContinuation (b : UInt8) : Bool := b &&& 0xc0 = 0x80

/-- A continuation byte without a character, or `\xfe` and `\xff`. -/
def isStray (b : UInt8) : Bool := b &&& 0xc0 = 0x80 || b &&& 0xfe = 0xfe

def expectingBytes (b : UInt8) : ℕ :=
  if b &&& 0xe0 = 0xc0 then 1
  else if b &&& 0xf0 = 0xe0 then 2
  else if b &&& 0xf8 = 0xf0 then 3
  else if b &&& 0xfc = 0xf8 then 4
  else if b &&& 0xfe = 0xfc then 5
  else 0

/-- The continuation bytes that follow the lead byte `b`, as many as it expects at most. -/
def continuations (b : UInt8) (text : List UInt8) : List UInt8 :=
  (text.take (expectingBytes b)).takeWhile isContinuation

def overlong (b x : UInt8) : Bool :=
  b &&& 0xfe = 0xc0 || b = 0xe0 && x &&& 0x20 = 0 || b = 0xf0 && x &&& 0x30 = 0 ||
    b = 0xf8 && x &&& 0x38 = 0 || b = 0xfc && x &&& 0x3c = 0

def leadBits (b : UInt8) : ℕ :=
  if b &&& 0xe0 = 0xc0 then b.toNat &&& 0x1f
  else if b &&& 0xf0 = 0xe0 then b.toNat &&& 0x0f
  else if b &&& 0xf8 = 0xf0 then b.toNat &&& 0x07
  else if b &&& 0xfc = 0xf8 then b.toNat &&& 0x03
  else if b &&& 0xfe = 0xfc then b.toNat &&& 0x01
  else 0

/-- The code point, which has 31 bits at most. -/
def utf32 (b : UInt8) (tail : List UInt8) : ℕ :=
  tail.foldl (fun value x => value <<< 6 + (x.toNat &&& 0x3f)) (leadBits b)

def legal (b : UInt8) (tail : List UInt8) : Bool :=
  !overlong b (tail.headD 0) && !(utf32 b tail > 0x10ffff || utf32 b tail &&& 0xf800 = 0xd800)

def zbxIsUtf8 : List UInt8 → Bool
  | [] => true
  | b :: text =>
    if b &&& 0x80 = 0 then zbxIsUtf8 text
    else if isStray b then false
    else if (continuations b text).length ≠ expectingBytes b then false
    else if !legal b (continuations b text) then false
    else zbxIsUtf8 (text.drop (continuations b text).length)
termination_by text => text.length

def utf8ReplaceChar : UInt8 := 63

def ctrlReplaceChar : UInt8 := 46

def iscntrl (b : UInt8) : Bool := b < 32 || b = 127

def zbxReplaceInvalidUtf8Impl (replaceNonprintable : Bool) : List UInt8 → List UInt8
  | [] => []
  | b :: text =>
    if b &&& 0x80 = 0 then
      (if replaceNonprintable && iscntrl b then ctrlReplaceChar else b) ::
        zbxReplaceInvalidUtf8Impl replaceNonprintable text
    else if isStray b then
      utf8ReplaceChar :: zbxReplaceInvalidUtf8Impl replaceNonprintable text
    else
      let tail := continuations b text
      let nonprintable := 0x80 ≤ utf32 b tail && utf32 b tail ≤ 0x9f
      (if tail.length = expectingBytes b && legal b tail && !(replaceNonprintable && nonprintable)
        then b :: tail else [utf8ReplaceChar]) ++
        zbxReplaceInvalidUtf8Impl replaceNonprintable (text.drop tail.length)
termination_by text => text.length

def zbxReplaceInvalidUtf8 (text : List UInt8) : List UInt8 := zbxReplaceInvalidUtf8Impl false text

theorem isUtf8_ascii (hb : b &&& 0x80 = 0) : zbxIsUtf8 (b :: rest) = zbxIsUtf8 rest := by
  rw [zbxIsUtf8, if_pos hb]

theorem continuations_append (hlength : tail.length = expectingBytes b)
    (htail : ∀ x ∈ tail, isContinuation x = true) (rest : List UInt8) :
    continuations b (tail ++ rest) = tail := by
  rw [continuations, ← hlength, take_left]
  exact takeWhile_eq_self_iff.mpr htail

theorem isUtf8_sequence (hb : ¬b &&& 0x80 = 0) (hstray : isStray b = false)
    (hlength : tail.length = expectingBytes b) (htail : ∀ x ∈ tail, isContinuation x = true) :
    zbxIsUtf8 (b :: (tail ++ rest)) = (legal b tail && zbxIsUtf8 rest) := by
  rw [zbxIsUtf8, if_neg hb, if_neg (by simp [hstray]), continuations_append hlength htail,
    if_neg (not_not.mpr hlength), drop_left]
  cases legal b tail <;> rfl

theorem continuation_of_mem (h : x ∈ continuations b text) : isContinuation x = true :=
  mem_takeWhile_imp h

theorem continuations_append_drop :
    continuations b text ++ text.drop (continuations b text).length = text :=
  prefix_iff_eq_append.mp (( takeWhile_prefix _).trans ( take_prefix _ _))

variable (replaceNonprintable : Bool)

theorem isUtf8_replaceInvalidUtf8Impl (text : List UInt8) :
    zbxIsUtf8 (zbxReplaceInvalidUtf8Impl replaceNonprintable text) = true := by
  fun_induction zbxReplaceInvalidUtf8Impl replaceNonprintable text with
  | case1 => rw [zbxIsUtf8]
  | case2 b text hb ih =>
    have hout : (if replaceNonprintable && iscntrl b then ctrlReplaceChar else b) &&& 0x80 = 0 := by
      split_ifs
      · decide
      · exact hb
    rw [isUtf8_ascii hout, ih]
  | case3 b text hb hstray ih => rw [isUtf8_ascii (by decide), ih]
  | case4 b text hb hstray tail nonprintable ih =>
    split_ifs with hlegal
    · simp only [Bool.and_eq_true, decide_eq_true_eq] at hlegal
      rw [cons_append, isUtf8_sequence hb (Bool.eq_false_iff.mpr hstray) hlegal.1.1
        fun x hx => continuation_of_mem hx, hlegal.1.2, ih]
      rfl
    · rw [singleton_append, isUtf8_ascii (by decide), ih]

theorem length_replaceInvalidUtf8Impl (text : List UInt8) :
    (zbxReplaceInvalidUtf8Impl replaceNonprintable text).length ≤ text.length := by
  fun_induction zbxReplaceInvalidUtf8Impl replaceNonprintable text with
  | case1 => exact le_refl 0
  | case2 b text hb ih => exact succ_le_succ ih
  | case3 b text hb hstray ih => exact succ_le_succ ih
  | case4 b text hb hstray tail nonprintable ih =>
    have htext : tail.length + (text.drop tail.length).length = text.length := by
      rw [← length_append, continuations_append_drop]
    rw [length_append, length_cons]
    split_ifs <;> simp only [length_cons, length_nil] <;> omega

theorem replaceInvalidUtf8_eq_self (h : zbxIsUtf8 text = true) :
    zbxReplaceInvalidUtf8 text = text := by
  unfold zbxReplaceInvalidUtf8
  fun_induction zbxIsUtf8 text with
  | case1 => rw [zbxReplaceInvalidUtf8Impl]
  | case2 b text hb ih =>
    rw [zbxReplaceInvalidUtf8Impl, if_pos hb, ih h]
    rfl
  | case3 b text hb hstray => cases h
  | case4 b text hb hstray hlength => cases h
  | case5 b text hb hstray hlength hlegal => cases h
  | case6 b text hb hstray hlength hlegal ih =>
    have hlegal : legal b (continuations b text) = true := by simpa using hlegal
    rw [zbxReplaceInvalidUtf8Impl, if_neg hb, if_neg hstray]
    dsimp only
    rw [ih h, if_pos (by simp [not_not.mp hlength, hlegal]), cons_append, continuations_append_drop]

/-- The repaired text is accepted and no longer, accepted texts stay, and repairing twice is
repairing once. -/
theorem replaceInvalidUtf8_repairs (text : List UInt8) :
    zbxIsUtf8 (zbxReplaceInvalidUtf8 text) = true ∧
      (zbxReplaceInvalidUtf8 text).length ≤ text.length ∧
      (zbxIsUtf8 text = true → zbxReplaceInvalidUtf8 text = text) ∧
      zbxReplaceInvalidUtf8 (zbxReplaceInvalidUtf8 text) = zbxReplaceInvalidUtf8 text :=
  have haccepted := isUtf8_replaceInvalidUtf8Impl false text
  ⟨haccepted, length_replaceInvalidUtf8Impl false text, replaceInvalidUtf8_eq_self,
    replaceInvalidUtf8_eq_self haccepted⟩

theorem and_mask (n j k : ℕ) : n &&& (2 ^ j - 1) <<< k = n / 2 ^ k % 2 ^ j * 2 ^ k := by
  apply eq_of_testBit_eq
  intro i
  rw [← shiftRight_eq_div_pow, ← shiftLeft_eq, ← and_two_pow_sub_one_eq_mod]
  simp only [testBit_and, testBit_shiftLeft, testBit_shiftRight]
  by_cases hi : k ≤ i
  · simp [hi]
  · simp [hi]

theorem byte_mask (b m v : UInt8) (j k : ℕ) (hm : m.toNat = (2 ^ j - 1) <<< k) :
    b &&& m = v ↔ b.toNat / 2 ^ k % 2 ^ j * 2 ^ k = v.toNat := by
  rw [← UInt8.toNat_inj, UInt8.toNat_and, hm, and_mask]

theorem isContinuation_iff (b : UInt8) :
    isContinuation b = true ↔ 128 ≤ b.toNat ∧ b.toNat < 192 := by
  have hb := b.toNat_lt
  rw [isContinuation, decide_eq_true_iff, byte_mask b 0xc0 0x80 2 6 rfl]
  simp only [Nat.reducePow, UInt8.reduceToNat] at *
  omega

theorem ascii_iff (b : UInt8) : b &&& 0x80 = 0 ↔ b.toNat < 128 := by
  have hb := b.toNat_lt
  rw [byte_mask b 0x80 0 1 7 rfl]
  simp only [Nat.reducePow, UInt8.reduceToNat] at *
  omega

theorem isStray_iff (b : UInt8) : isStray b = true ↔ isContinuation b = true ∨ 254 ≤ b.toNat := by
  have hb := b.toNat_lt
  rw [isStray, Bool.or_eq_true, decide_eq_true_iff, decide_eq_true_iff, isContinuation,
    decide_eq_true_iff, byte_mask b 0xfe 0xfe 7 1 rfl]
  simp only [Nat.reducePow, UInt8.reduceToNat] at *
  exact or_congr_right (by omega)

theorem expectingBytes_eq (b : UInt8) : expectingBytes b =
    if b.toNat < 192 ∨ 254 ≤ b.toNat then 0 else if b.toNat < 224 then 1
    else if b.toNat < 240 then 2 else if b.toNat < 248 then 3 else if b.toNat < 252 then 4
    else 5 := by
  have hb := b.toNat_lt
  simp only [expectingBytes, byte_mask b 0xe0 0xc0 3 5 rfl, byte_mask b 0xf0 0xe0 4 4 rfl,
    byte_mask b 0xf8 0xf0 5 3 rfl, byte_mask b 0xfc 0xf8 6 2 rfl, byte_mask b 0xfe 0xfc 7 1 rfl,
    Nat.reducePow, UInt8.reduceToNat] at *
  split_ifs <;> omega

theorem leadBits_eq (b : UInt8) : leadBits b =
    if expectingBytes b = 0 then 0 else b.toNat % 2 ^ (6 - expectingBytes b) := by
  unfold leadBits expectingBytes
  split_ifs <;> try contradiction
  · exact and_two_pow_sub_one_eq_mod _ 5
  · exact and_two_pow_sub_one_eq_mod _ 4
  · exact and_two_pow_sub_one_eq_mod _ 3
  · exact and_two_pow_sub_one_eq_mod _ 2
  · exact and_two_pow_sub_one_eq_mod _ 1
  · rfl

theorem continuation_masks (x : UInt8) (hx : isContinuation x = true) :
    (x &&& 0x20 = 0 ↔ x.toNat < 160) ∧ (x &&& 0x30 = 0 ↔ x.toNat < 144) ∧
      (x &&& 0x38 = 0 ↔ x.toNat < 136) ∧ (x &&& 0x3c = 0 ↔ x.toNat < 132) := by
  rw [isContinuation_iff] at hx
  rw [byte_mask x 0x20 0 1 5 rfl, byte_mask x 0x30 0 2 4 rfl, byte_mask x 0x38 0 3 3 rfl,
    byte_mask x 0x3c 0 4 2 rfl]
  simp only [Nat.reducePow, UInt8.reduceToNat]
  omega

theorem overlong_mask (b : UInt8) : b &&& 0xfe = 0xc0 ↔ b.toNat = 192 ∨ b.toNat = 193 := by
  have hb := b.toNat_lt
  rw [byte_mask b 0xfe 0xc0 7 1 rfl]
  simp only [Nat.reducePow, UInt8.reduceToNat] at *
  omega

theorem overlong_iff (hx : isContinuation x = true) :
    overlong b x = true ↔ b.toNat = 192 ∨ b.toNat = 193 ∨ (b.toNat = 224 ∧ x.toNat < 160) ∨
      (b.toNat = 240 ∧ x.toNat < 144) ∨ (b.toNat = 248 ∧ x.toNat < 136) ∨
      (b.toNat = 252 ∧ x.toNat < 132) := by
  obtain ⟨h2, h3, h4, h5⟩ := continuation_masks x hx
  simp only [overlong, Bool.or_eq_true, Bool.and_eq_true, decide_eq_true_eq, overlong_mask, h2,
    h3, h4, h5, ← UInt8.toNat_inj (a := b)]
  simp only [UInt8.reduceToNat, or_assoc]

theorem and_surrogate_iff (n : ℕ) : n &&& 0xf800 = 0xd800 ↔ n / 2048 % 32 = 27 := by
  rw [show n &&& 0xf800 = n / 2048 % 32 * 2048 from and_mask n 5 11]
  omega

theorem utf32_eq (b : UInt8) (tail : List UInt8) :
    utf32 b tail = tail.foldl (fun value x => value * 64 + x.toNat % 64) (leadBits b) := by
  have hlow : ∀ n : ℕ, n &&& 0x3f = n % 64 := fun n => and_two_pow_sub_one_eq_mod n 6
  simp only [utf32, hlow, shiftLeft_eq]

/-- The smallest code point of a sequence that is not overlong. -/
def smallest : ℕ → ℕ
  | 1 => 0x80
  | 2 => 0x800
  | 3 => 0x10000
  | 4 => 0x200000
  | _ => 0x4000000

theorem overlong_spec (hlead : 192 ≤ b.toNat) (hstray : b.toNat < 254)
    (hlength : tail.length = expectingBytes b) (htail : ∀ x ∈ tail, isContinuation x = true) :
    overlong b (tail.headD 0) = false ↔ smallest (expectingBytes b) ≤ utf32 b tail := by
  have hexpecting := expectingBytes_eq b
  rw [utf32_eq]
  cases tail with
  | nil =>
    rw [length_nil] at hlength
    split_ifs at hexpecting <;> omega
  | cons x tail =>
    have hx := (isContinuation_iff x).mp (htail x mem_cons_self)
    have hbits : leadBits b = b.toNat % 2 ^ (6 - expectingBytes b) := by
      rw [leadBits_eq, if_neg (by rw [← hlength]; exact succ_ne_zero _)]
    rw [headD_cons, ← Bool.not_eq_true, overlong_iff (htail x mem_cons_self), foldl_cons]
    split_ifs at hexpecting
    all_goals
      rw [hexpecting] at hlength hbits ⊢
      rw [length_cons] at hlength
    · omega
    · obtain rfl : tail = [] := length_eq_zero_iff.mp (by omega)
      simp only [foldl_nil, smallest, Nat.reduceSub, Nat.reducePow] at hbits ⊢
      omega
    · obtain ⟨y, rfl⟩ : ∃ y, tail = [y] := length_eq_one_iff.mp (by omega)
      simp only [foldl_cons, foldl_nil, smallest, Nat.reduceSub, Nat.reducePow] at hbits ⊢
      omega
    · obtain ⟨y, z, rfl⟩ := length_eq_two.mp (show tail.length = 2 by omega)
      simp only [foldl_cons, foldl_nil, smallest, Nat.reduceSub, Nat.reducePow] at hbits ⊢
      omega
    · obtain ⟨y, z, w, rfl⟩ := length_eq_three.mp (show tail.length = 3 by omega)
      simp only [foldl_cons, foldl_nil, smallest, Nat.reduceSub, Nat.reducePow] at hbits ⊢
      omega
    · obtain ⟨y, rest, rfl⟩ := exists_cons_of_length_eq_add_one (show tail.length = 3 + 1 by omega)
      rw [length_cons] at hlength
      obtain ⟨z, w, v, rfl⟩ := length_eq_three.mp (show rest.length = 3 by omega)
      simp only [foldl_cons, foldl_nil, smallest, Nat.reduceSub, Nat.reducePow] at hbits ⊢
      omega

theorem legal_iff (hlead : 192 ≤ b.toNat) (hstray : b.toNat < 254)
    (hlength : tail.length = expectingBytes b) (htail : ∀ x ∈ tail, isContinuation x = true) :
    legal b tail = true ↔ smallest (expectingBytes b) ≤ utf32 b tail ∧
      utf32 b tail ≤ 0x10ffff ∧ ¬utf32 b tail &&& 0xf800 = 0xd800 := by
  rw [← overlong_spec hlead hstray hlength htail]
  simp [legal]

/-- A code point behind the first 65536 whose low bits are those of a surrogate. -/
def Shadow (c : Char) : Prop := 0x10000 ≤ c.toNat ∧ c.toNat &&& 0xf800 = 0xd800

variable (c : Char)

theorem toNat_le : c.toNat ≤ 0x10ffff := by
  obtain h | h : c.toNat.isValidChar := c.valid
  · omega
  · omega

theorem shadow_iff : Shadow c ↔ c.toNat &&& 0xf800 = 0xd800 := by
  refine ⟨And.right, fun hmask => ⟨?_, hmask⟩⟩
  rw [and_surrogate_iff] at hmask
  obtain h | h : c.toNat.isValidChar := c.valid
  · omega
  · omega

theorem toNat_ofNat_byte {n : ℕ} (h : n < 256) : (UInt8.ofNat n).toNat = n := by
  rw [UInt8.toNat_ofNat', mod_eq_of_lt h]

theorem encode_spec (hc : 128 ≤ c.toNat) :
    ∃ b tail, String.utf8EncodeChar c = b :: tail ∧ 192 ≤ b.toNat ∧ b.toNat < 254 ∧
      tail.length = expectingBytes b ∧ (∀ x ∈ tail, isContinuation x = true) ∧
      smallest (expectingBytes b) ≤ utf32 b tail ∧ utf32 b tail = c.toNat := by
  have hmax := toNat_le c
  have hlow : ∀ n, isContinuation (UInt8.ofNat (n % 64 + 128)) = true := by
    intro n
    rw [isContinuation_iff, toNat_ofNat_byte (by omega)]
    omega
  have hlast := toNat_ofNat_byte (show c.toNat % 64 + 128 < 256 by omega)
  have hthird := toNat_ofNat_byte (show c.toNat / 64 % 64 + 128 < 256 by omega)
  have hsecond := toNat_ofNat_byte (show c.toNat / 4096 % 64 + 128 < 256 by omega)
  unfold String.utf8EncodeChar
  simp only [show c.val.toNat = c.toNat from rfl]
  rw [if_neg (by omega)]
  split_ifs with h2 h3
  · have hlead := toNat_ofNat_byte (show c.toNat / 64 % 32 + 192 < 256 by omega)
    have hexpecting : expectingBytes (UInt8.ofNat (c.toNat / 64 % 32 + 192)) = 1 := by
      rw [expectingBytes_eq, hlead, if_neg (by omega), if_pos (by omega)]
    refine ⟨_, _, rfl, by omega, by omega, hexpecting.symm, forall_mem_singleton.mpr (hlow _), ?_⟩
    rw [utf32_eq, leadBits_eq, hexpecting, if_neg (by decide), hlead]
    simp only [foldl_cons, foldl_nil, hlast, smallest, Nat.reduceSub, Nat.reducePow]
    omega
  · have hlead := toNat_ofNat_byte (show c.toNat / 4096 % 16 + 224 < 256 by omega)
    have hexpecting : expectingBytes (UInt8.ofNat (c.toNat / 4096 % 16 + 224)) = 2 := by
      rw [expectingBytes_eq, hlead, if_neg (by omega), if_neg (by omega), if_pos (by omega)]
    refine ⟨_, _, rfl, by omega, by omega, hexpecting.symm,
      forall_mem_cons.mpr ⟨hlow _, forall_mem_singleton.mpr (hlow _)⟩, ?_⟩
    rw [utf32_eq, leadBits_eq, hexpecting, if_neg (by decide), hlead]
    simp only [foldl_cons, foldl_nil, hlast, hthird, smallest, Nat.reduceSub, Nat.reducePow]
    omega
  · have hlead := toNat_ofNat_byte (show c.toNat / 262144 % 8 + 240 < 256 by omega)
    have hexpecting : expectingBytes (UInt8.ofNat (c.toNat / 262144 % 8 + 240)) = 3 := by
      rw [expectingBytes_eq, hlead, if_neg (by omega), if_neg (by omega), if_neg (by omega),
        if_pos (by omega)]
    refine ⟨_, _, rfl, by omega, by omega, hexpecting.symm,
      forall_mem_cons.mpr ⟨hlow _, forall_mem_cons.mpr ⟨hlow _,
        forall_mem_singleton.mpr (hlow _)⟩⟩, ?_⟩
    rw [utf32_eq, leadBits_eq, hexpecting, if_neg (by decide), hlead]
    simp only [foldl_cons, foldl_nil, hlast, hthird, hsecond, smallest, Nat.reduceSub,
      Nat.reducePow]
    omega

theorem encode_ascii {c : Char} (hc : c.toNat < 128) :
    String.utf8EncodeChar c = [UInt8.ofNat c.toNat] := if_pos (le_of_lt_succ hc)

theorem isUtf8_encode (rest : List UInt8) :
    zbxIsUtf8 (String.utf8EncodeChar c ++ rest) = true ↔ ¬Shadow c ∧ zbxIsUtf8 rest = true := by
  by_cases hc : c.toNat < 128
  · have hshadow : ¬Shadow c := by
      rintro ⟨hlarge, -⟩
      omega
    have hbyte : UInt8.ofNat c.toNat &&& 0x80 = 0 := by rwa [ascii_iff, toNat_ofNat_byte (by omega)]
    rw [encode_ascii hc, singleton_append, isUtf8_ascii hbyte, and_iff_right hshadow]
  · obtain ⟨b, tail, hencode, hlead, hstray, hlength, htail, hsmallest, hvalue⟩ :=
      encode_spec c (by omega)
    have hb : ¬b &&& 0x80 = 0 := by
      rw [ascii_iff]
      omega
    have hkept : isStray b = false := by
      rw [← Bool.not_eq_true, isStray_iff, isContinuation_iff]
      omega
    rw [hencode, cons_append, isUtf8_sequence hb hkept hlength htail, Bool.and_eq_true,
      legal_iff hlead hstray hlength htail, shadow_iff, hvalue]
    have hmax := toNat_le c
    rw [hvalue] at hsmallest
    simp only [hsmallest, hmax, true_and]

theorem legal_encodes (hlead : 192 ≤ b.toNat) (hstray : b.toNat < 254)
    (hlength : tail.length = expectingBytes b) (htail : ∀ x ∈ tail, isContinuation x = true)
    (hlegal : legal b tail = true) :
    ∃ c, String.utf8EncodeChar c = b :: tail := by
  obtain ⟨hsmallest, hmax, hmask⟩ := (legal_iff hlead hstray hlength htail).mp hlegal
  rw [and_surrogate_iff] at hmask
  have hvalid : (utf32 b tail).isValidChar := by
    show utf32 b tail < 0xd800 ∨ 0xdfff < utf32 b tail ∧ utf32 b tail < 0x110000
    omega
  obtain ⟨c, hc⟩ : ∃ c : Char, c.toNat = utf32 b tail := by
    refine ⟨Char.ofNat (utf32 b tail), ?_⟩
    rw [Char.ofNat, dif_pos hvalid]
    rfl
  refine ⟨c, ?_⟩
  have hexpecting := expectingBytes_eq b
  have hne : expectingBytes b ≠ 0 := by split_ifs at hexpecting <;> omega
  have hbits := leadBits_eq b
  rw [if_neg hne] at hbits
  have hbyte : ∀ (x : UInt8) {n : ℕ}, n = x.toNat → UInt8.ofNat n = x := by
    rintro x n rfl
    exact UInt8.ofNat_toNat
  unfold String.utf8EncodeChar
  simp only [show c.val.toNat = c.toNat from rfl]
  rw [utf32_eq] at hsmallest hmax hc
  have hrange : ∀ x ∈ tail, 128 ≤ x.toNat ∧ x.toNat < 192 := fun x hx =>
    (isContinuation_iff x).mp (htail x hx)
  split_ifs at hexpecting
  all_goals rw [hexpecting] at hlength hbits hsmallest
  · omega
  · obtain ⟨x, rfl⟩ := length_eq_one_iff.mp hlength
    have hx := hrange x mem_cons_self
    simp only [foldl_cons, foldl_nil, smallest, Nat.reduceSub, Nat.reducePow] at *
    rw [if_neg (by omega), if_pos (by omega), hbyte b (by omega), hbyte x (by omega)]
  · obtain ⟨x, y, rfl⟩ := length_eq_two.mp hlength
    have hx := hrange x (by simp)
    have hy := hrange y (by simp)
    simp only [foldl_cons, foldl_nil, smallest, Nat.reduceSub, Nat.reducePow] at *
    rw [if_neg (by omega), if_neg (by omega), if_pos (by omega), hbyte b (by omega),
      hbyte x (by omega), hbyte y (by omega)]
  · obtain ⟨x, y, z, rfl⟩ := length_eq_three.mp hlength
    have hx := hrange x (by simp)
    have hy := hrange y (by simp)
    have hz := hrange z (by simp)
    simp only [foldl_cons, foldl_nil, smallest, Nat.reduceSub, Nat.reducePow] at *
    rw [if_neg (by omega), if_neg (by omega), if_neg (by omega), hbyte b (by omega),
      hbyte x (by omega), hbyte y (by omega), hbyte z (by omega)]
  · exact absurd (hsmallest.trans hmax) (by decide)
  · exact absurd (hsmallest.trans hmax) (by decide)

/-- The concatenation of the encodings of some code points. -/
def WellFormed (text : List UInt8) : Prop :=
  ∃ chars : List Char, text = chars.flatMap String.utf8EncodeChar

theorem isUtf8_flatMap (chars : List Char) :
    zbxIsUtf8 (chars.flatMap String.utf8EncodeChar) = true ↔ ∀ c ∈ chars, ¬Shadow c := by
  induction chars with
  | nil => simp [zbxIsUtf8]
  | cons c chars ih => rw [flatMap_cons, isUtf8_encode, ih, forall_mem_cons]

theorem wellFormed_cons {c : Char} {front : List UInt8} (hc : String.utf8EncodeChar c = front)
    (h : WellFormed rest) : WellFormed (front ++ rest) := by
  obtain ⟨chars, rfl⟩ := h
  exact ⟨c :: chars, by rw [flatMap_cons, hc]⟩

theorem wellFormed_of_isUtf8 (h : zbxIsUtf8 text = true) : WellFormed text := by
  fun_induction zbxIsUtf8 text with
  | case1 => exact ⟨[], rfl⟩
  | case2 b text hb ih =>
    rw [ascii_iff] at hb
    have hchar : (Char.ofNat b.toNat).toNat = b.toNat := by
      rw [Char.ofNat, dif_pos (.inl (by omega))]
      rfl
    have hencode : String.utf8EncodeChar (Char.ofNat b.toNat) = [b] := by
      rw [encode_ascii (by omega), hchar, UInt8.ofNat_toNat]
    exact wellFormed_cons hencode (ih h)
  | case3 b text hb hstray => cases h
  | case4 b text hb hstray hlength => cases h
  | case5 b text hb hstray hlength hlegal => cases h
  | case6 b text hb hstray hlength hlegal ih =>
    rw [ascii_iff] at hb
    rw [isStray_iff, isContinuation_iff] at hstray
    obtain ⟨c, hc⟩ := legal_encodes (by omega) (by omega) (not_not.mp hlength)
      (fun x hx => continuation_of_mem hx) (by simpa using hlegal)
    have htext := wellFormed_cons hc (ih h)
    rwa [cons_append, continuations_append_drop] at htext

/-- `zbx_is_utf8` is right about the texts that do not encode a shadow of a surrogate. -/
theorem isUtf8_iff_wellFormed_iff (text : List UInt8) :
    (zbxIsUtf8 text = true ↔ WellFormed text) ↔
      ∀ chars : List Char, text = chars.flatMap String.utf8EncodeChar → ∀ c ∈ chars, ¬Shadow c := by
  constructor
  · rintro hright chars rfl
    exact (isUtf8_flatMap chars).mp (hright.mpr ⟨chars, rfl⟩)
  · intro hclear
    refine ⟨wellFormed_of_isUtf8, ?_⟩
    rintro ⟨chars, rfl⟩
    exact (isUtf8_flatMap chars).mpr (hclear chars rfl)

/-- The four bytes of U+1D800. -/
theorem isUtf8_rejects :
    ¬(zbxIsUtf8 [0xf0, 0x9d, 0xa0, 0x80] = true ↔ WellFormed [0xf0, 0x9d, 0xa0, 0x80]) := by
  intro hright
  have haccepted := hright.mpr ⟨[Char.ofNat 0x1d800], by decide⟩
  have hshadow : Shadow (Char.ofNat 0x1d800) := ⟨by decide, by decide⟩
  exact ((isUtf8_encode (Char.ofNat 0x1d800) []).mp haccepted).1 hshadow

end Zabbix.Str
