import Zabbix.Foundation.Codec
import Mathlib.Data.Nat.Bitwise
import Mathlib.Tactic.IntervalCases

/-!
# Numbers in a byte stream

The compact form of `zbxserialize` for 31 bit numbers, one to six bytes that start like an
UTF-8 character, and the plain copies of values of a fixed size.
-/

namespace Zabbix.Serialize

open Nat Codec

variable {original : ℕ} {value : UInt32} {buf : List UInt8}

/-- The loop of `zbx_serialize_uint31_compact`, `buf` being what stands behind `buf[pos]`;
`none` when it goes below the start of the buffer. -/
def compactLoop : ℕ → UInt32 → List UInt8 → Option (List UInt8)
  | pos, value, buf =>
    if 0x7f >>> (6 - pos) < value.toNat then
      match pos with
      | 0 => none
      | pos + 1 => compactLoop pos (value >>> 6) ((0x80 ||| (value &&& 0x3f)).toUInt8 :: buf)
    else some (UInt8.ofNat (value.toNat ||| 0xfe <<< (pos + 1)) :: buf)

def zbxSerializeUint31Compact (value : UInt32) : Option (List UInt8) :=
  if value ≤ 0x7f then some [value.toUInt8] else compactLoop 5 value []

/-- The loop over the bits of the first byte in `zbx_deserialize_uint31_compact`, of at most six
rounds. -/
def leadLoop (lead : UInt8) : ℕ → ℕ → ℕ
  | 0, pos => pos
  | fuel + 1, pos => if lead.toNat &&& 0x80 >>> pos ≠ 0 then leadLoop lead fuel (pos + 1) else pos

/-- `*value <<= 6; *value |= byte & 0x3f`. -/
def compactShift (value : UInt32) (byte : UInt8) : UInt32 :=
  value <<< 6 ||| (byte &&& 0x3f).toUInt32

def zbxDeserializeUint31Compact : StateT (List UInt8) Option UInt32 := do
  let lead ← item
  if lead &&& 0x80 = 0 then return lead.toUInt32
  else
    let pos := leadLoop lead 6 2
    let bytes ← take (pos - 1)
    return bytes.foldl compactShift (UInt32.ofNat (lead.toNat &&& 0xff >>> (pos + 1)))

def compactSize (value : ℕ) : ℕ :=
  if value < 2 ^ 7 then 1
  else if value < 2 ^ 11 then 2
  else if value < 2 ^ 16 then 3
  else if value < 2 ^ 21 then 4
  else if value < 2 ^ 26 then 5
  else 6

/-- `memcpy` of a value of `n` bytes, the lowest byte first. -/
def rawBytes : ℕ → ℕ → List UInt8
  | 0, _ => []
  | n + 1, value => UInt8.ofNat value :: rawBytes n (value / 256)

def rawValue : List UInt8 → ℕ
  | [] => 0
  | byte :: bytes => byte.toNat + 256 * rawValue bytes

def zbxSerializeValue (value : UInt32) : List UInt8 := rawBytes 4 value.toNat

def zbxDeserializeValue : StateT (List UInt8) Option UInt32 :=
  (fun bytes => UInt32.ofNat (rawValue bytes)) <$> take 4

def zbxSerializeUint64 (value : UInt64) : List UInt8 := rawBytes 8 value.toNat

def zbxDeserializeUint64 : StateT (List UInt8) Option UInt64 :=
  (fun bytes => UInt64.ofNat (rawValue bytes)) <$> take 8

@[simp]
theorem length_rawBytes (n value : ℕ) : (rawBytes n value).length = n := by
  induction n generalizing value with
  | zero => rfl
  | succ n ih => rw [rawBytes, List.length_cons, ih]

theorem rawValue_rawBytes {n value : ℕ} (h : value < 256 ^ n) :
    rawValue (rawBytes n value) = value := by
  induction n generalizing value with
  | zero =>
    rw [Nat.pow_zero] at h
    simp [rawBytes, rawValue]
    omega
  | succ n ih =>
    have hdiv : value / 256 < 256 ^ n := by
      rw [Nat.pow_succ] at h
      exact Nat.div_lt_of_lt_mul (by rwa [Nat.mul_comm])
    rw [rawBytes, rawValue, ih hdiv, UInt8.toNat_ofNat']
    omega

theorem take_rawBytes_decodes (n value : ℕ) :
    Decodes (take n) (rawBytes n value) (rawBytes n value) := by
  have h := take_decodes (rawBytes n value)
  rwa [length_rawBytes] at h

theorem serializeValue_decodes (value : UInt32) :
    Decodes zbxDeserializeValue (zbxSerializeValue value) value := by
  have h := (take_rawBytes_decodes 4 value.toNat).map fun bytes => UInt32.ofNat (rawValue bytes)
  rwa [rawValue_rawBytes value.toNat_lt, UInt32.ofNat_toNat] at h

theorem serializeUint64_decodes (value : UInt64) :
    Decodes zbxDeserializeUint64 (zbxSerializeUint64 value) value := by
  have h := (take_rawBytes_decodes 8 value.toNat).map fun bytes => UInt64.ofNat (rawValue bytes)
  rwa [rawValue_rawBytes value.toNat_lt, UInt64.ofNat_toNat] at h

theorem mul_or_of_lt {a b : ℕ} (h : b < 64) : a * 64 ||| b = a * 64 + b := by
  have hadd : 2 ^ 6 * a + b = 2 ^ 6 * a ||| b := two_pow_add_eq_or_of_lt h a
  rw [Nat.mul_comm a]
  exact hadd.symm

theorem compactShift_shift (value : UInt32) :
    compactShift (value >>> 6) (0x80 ||| (value &&& 0x3f)).toUInt8 = value := by
  apply UInt32.toNat_inj.mp
  have hlt : value.toNat < 2 ^ 32 := value.toNat_lt
  have hlow (n : ℕ) : n &&& 63 = n % 64 := and_two_pow_sub_one_eq_mod n 6
  have hmark : 128 ||| value.toNat % 64 = 128 + value.toNat % 64 :=
    mul_or_of_lt (a := 2) (mod_lt _ (by decide))
  simp only [compactShift, UInt32.toNat_or, UInt32.toNat_shiftLeft, UInt32.toNat_shiftRight,
    UInt8.toNat_toUInt32, UInt8.toNat_and, UInt32.toNat_toUInt8, UInt32.toNat_and,
    shiftRight_eq_div_pow, shiftLeft_eq]
  simp only [UInt32.reduceToNat, UInt8.reduceToNat, Nat.reduceMod, Nat.reducePow, hlow, hmark]
  rw [mod_eq_of_lt (by omega), mul_or_of_lt (by omega)]
  omega

theorem lead_decodes : ∀ pos < 5, ∀ v ≤ 0x7f >>> (6 - pos),
    UInt8.ofNat (v ||| 0xfe <<< (pos + 1)) &&& 0x80 ≠ 0 ∧
    leadLoop (UInt8.ofNat (v ||| 0xfe <<< (pos + 1))) 6 2 = 6 - pos ∧
    (UInt8.ofNat (v ||| 0xfe <<< (pos + 1))).toNat &&& 0xff >>> (6 - pos + 1) = v := by
  decide

theorem stops_iff {pos : ℕ} (hpos : pos ≤ 5) :
    original / 2 ^ (6 * (5 - pos)) ≤ 0x7f >>> (6 - pos) ↔ original < 2 ^ (5 * (6 - pos) + 1) := by
  interval_cases pos <;> simp <;> omega

theorem shift_eq {pos : ℕ} (hpos : pos + 1 ≤ 5)
    (hvalue : value.toNat = original / 2 ^ (6 * (5 - (pos + 1)))) :
    (value >>> 6).toNat = original / 2 ^ (6 * (5 - pos)) := by
  have hexp : 6 * (5 - pos) = 6 * (5 - (pos + 1)) + 6 := by omega
  rw [UInt32.toNat_shiftRight, hvalue, shiftRight_eq_div_pow, Nat.div_div_eq_div_mul,
    ← Nat.pow_add, hexp]
  rfl

theorem compactLoop_spec {pos : ℕ} (hpos : pos ≤ 5)
    (hvalue : value.toNat = original / 2 ^ (6 * (5 - pos))) (hbuf : buf.length = 5 - pos)
    (hlow : 2 ^ (5 * (5 - pos) + 1) ≤ original) (hfirst : 2 ^ 6 ≤ original)
    (hhigh : original < 2 ^ 31) :
    ∃ last < 5, ∃ v ≤ 0x7f >>> (6 - last), ∃ tail,
      compactLoop pos value buf = some (UInt8.ofNat (v ||| 0xfe <<< (last + 1)) :: tail) ∧
      tail.length = 5 - last ∧
      tail.foldl compactShift (UInt32.ofNat v) = buf.foldl compactShift value ∧
      2 ^ (5 * (5 - last) + 1) ≤ original ∧ original < 2 ^ (5 * (6 - last) + 1) := by
  induction pos generalizing value buf with
  | zero =>
    have hstop := (stops_iff hpos).mpr hhigh
    rw [← hvalue] at hstop
    rw [compactLoop, if_neg (not_lt.mpr hstop)]
    exact ⟨0, by decide, value.toNat, hstop, buf, rfl, hbuf, by rw [UInt32.ofNat_toNat], hlow,
      hhigh⟩
  | succ pos ih =>
    rw [compactLoop]
    by_cases hmore : 0x7f >>> (6 - (pos + 1)) < value.toNat
    · rw [if_pos hmore]
      have hpassed : 2 ^ (5 * (5 - pos) + 1) ≤ original := by
        rw [hvalue] at hmore
        have hlarge := not_lt.mp (mt (stops_iff hpos).mpr (not_le.mpr hmore))
        rwa [show 6 - (pos + 1) = 5 - pos by omega] at hlarge
      obtain ⟨last, hlast, v, hv, tail, hloop, hlength, hfold, hbounds⟩ :=
        ih (by omega) (shift_eq hpos hvalue)
          (show ((0x80 ||| (value &&& 0x3f)).toUInt8 :: buf).length = 5 - pos by simp; omega)
          hpassed
      refine ⟨last, hlast, v, hv, tail, hloop, hlength, ?_, hbounds⟩
      rw [hfold, List.foldl_cons, compactShift_shift]
    · rw [if_neg hmore]
      have hstop := not_lt.mp hmore
      have hlt := (stops_iff hpos).mp (hvalue ▸ hstop)
      have hne : pos + 1 ≠ 5 := by
        intro h5
        rw [h5] at hlt
        omega
      exact ⟨pos + 1, by omega, value.toNat, hstop, buf, rfl, hbuf, by rw [UInt32.ofNat_toNat],
        hlow, hlt⟩

theorem compactSize_eq {last : ℕ} (hlast : last < 5) (hlarge : 2 ^ 7 ≤ original)
    (hlow : 2 ^ (5 * (5 - last) + 1) ≤ original) (hhigh : original < 2 ^ (5 * (6 - last) + 1)) :
    compactSize original = 6 - last := by
  unfold compactSize
  interval_cases last <;> simp at * <;> grind

theorem compactLoop_eq_none {pos : ℕ} (hpos : pos ≤ 5)
    (hvalue : value.toNat = original / 2 ^ (6 * (5 - pos))) (hlarge : 2 ^ 31 ≤ original) :
    compactLoop pos value buf = none := by
  have hmore : 0x7f >>> (6 - pos) < value.toNat := by
    by_contra hstop
    have hlt := (stops_iff hpos).mp (hvalue ▸ not_lt.mp hstop)
    have hle : 2 ^ (5 * (6 - pos) + 1) ≤ 2 ^ 31 := Nat.pow_le_pow_right (by decide) (by omega)
    omega
  induction pos generalizing value buf with
  | zero => rw [compactLoop, if_pos hmore]
  | succ pos ih =>
    rw [compactLoop, if_pos hmore]
    have hnext := shift_eq hpos hvalue
    refine ih (by omega) hnext ?_
    by_contra hstop
    have hlt := (stops_iff (show pos ≤ 5 by omega)).mp (hnext ▸ not_lt.mp hstop)
    have hle : 2 ^ (5 * (6 - pos) + 1) ≤ 2 ^ 31 := Nat.pow_le_pow_right (by decide) (by omega)
    omega

theorem compactSize_le (value : ℕ) : compactSize value ≤ 6 := by
  unfold compactSize
  grind

theorem single_decodes (h : value.toNat < 2 ^ 7) :
    value.toUInt8 &&& 0x80 = 0 ∧ value.toUInt8.toUInt32 = value := by
  have hmark : ∀ n < 2 ^ 7, n &&& 0x80 = 0 := by decide
  have hbyte : value.toUInt8.toNat = value.toNat := by
    rw [UInt32.toNat_toUInt8]
    omega
  constructor
  · apply UInt8.toNat_inj.mp
    rw [UInt8.toNat_and, hbyte]
    exact hmark _ h
  · apply UInt32.toNat_inj.mp
    rw [UInt8.toNat_toUInt32, hbyte]

theorem serializeUint31Compact_spec (h : value.toNat < 2 ^ 31) :
    ∃ bytes, zbxSerializeUint31Compact value = some bytes ∧
      bytes.length = compactSize value.toNat ∧
      Decodes zbxDeserializeUint31Compact bytes value := by
  unfold zbxSerializeUint31Compact
  by_cases hsmall : value ≤ 0x7f
  · have hle : value.toNat ≤ 127 := UInt32.le_iff_toNat_le.mp hsmall
    obtain ⟨hmark, hvalue⟩ := single_decodes (lt_succ_of_le hle)
    rw [if_pos hsmall]
    refine ⟨_, rfl, (if_pos (lt_succ_of_le hle)).symm, (item_decodes _).bind ?_⟩
    rw [if_pos hmark, hvalue]
    exact .pure value
  · have hlarge : 2 ^ 7 ≤ value.toNat := not_le.mp (mt UInt32.le_iff_toNat_le.mpr hsmall)
    have hstart : value.toNat = value.toNat / 2 ^ (6 * (5 - 5)) := (Nat.div_one _).symm
    rw [if_neg hsmall]
    obtain ⟨last, hlast, v, hv, tail, hloop, hlength, hfold, hlow, hhigh⟩ :=
      compactLoop_spec (le_refl 5) hstart (show ([] : List UInt8).length = 5 - 5 from rfl)
        (by omega) (by omega) h
    refine ⟨_, hloop, ?_, (item_decodes _).bind ?_⟩
    · rw [compactSize_eq hlast hlarge hlow hhigh, List.length_cons, hlength]
      omega
    · obtain ⟨hmark, hlead, hbits⟩ := lead_decodes last hlast v hv
      have htail : tail.length = 6 - last - 1 := by omega
      have htake : Decodes (take (6 - last - 1)) tail tail := htail ▸ take_decodes tail
      rw [if_neg hmark, hlead, ← List.append_nil tail]
      refine htake.bind ?_
      rw [hbits, hfold, List.foldl_nil]
      exact .pure value

theorem serializeUint31Compact_eq_none (h : 2 ^ 31 ≤ value.toNat) :
    zbxSerializeUint31Compact value = none := by
  have hlarge : ¬value ≤ 0x7f := by
    intro hle
    have hsmall : value.toNat ≤ 127 := UInt32.le_iff_toNat_le.mp hle
    omega
  rw [zbxSerializeUint31Compact, if_neg hlarge]
  exact compactLoop_eq_none (le_refl 5) (Nat.div_one _).symm h

end Zabbix.Serialize
