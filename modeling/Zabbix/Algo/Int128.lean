import Mathlib.Data.Nat.Bitwise
import Mathlib.Tactic.Ring
import Mathlib.Tactic.Linarith

/-!
# 128 bit numbers

The unsigned 128 bit numbers of `int128.c` are two words of 64 bits. A shift of a word by 64 bits or
more is undefined, and so is what is computed with one.
-/

namespace Zabbix.Algo

open Nat

variable {a b k bits dividend m : ℕ} {mask : UInt64}

@[ext]
structure UInt128 where
  hi : UInt64
  lo : UInt64
  deriving DecidableEq

def UInt128.toNat (value : UInt128) : ℕ := value.hi.toNat * 2 ^ 64 + value.lo.toNat

def shiftLeft64 (value : UInt64) (bits : ℕ) : Option UInt64 :=
  if bits < 64 then some (value <<< UInt64.ofNat bits) else none

def shiftRight64 (value : UInt64) (bits : ℕ) : Option UInt64 :=
  if bits < 64 then some (value >>> UInt64.ofNat bits) else none

def udec128 (base value : UInt128) : UInt128 :=
  let lo := base.lo - value.lo
  let hi := if base.lo < lo then base.hi - 1 else base.hi
  ⟨hi - value.hi, lo⟩

def ushiftr128 (base : UInt128) (bits : ℕ) : Option UInt128 :=
  if bits = 0 then some base
  else if 64 ≤ bits then (shiftRight64 base.hi (bits - 64)).map fun lo => ⟨0, lo⟩
  else do
    let lo ← shiftRight64 base.lo bits
    let carried ← shiftLeft64 base.hi (64 - bits)
    let hi ← shiftRight64 base.hi bits
    return ⟨hi, lo ||| carried⟩

def ushiftl128 (base : UInt128) (bits : ℕ) : Option UInt128 :=
  if bits = 0 then some base
  else if 64 ≤ bits then (shiftLeft64 base.lo (bits - 64)).map fun hi => ⟨hi, 0⟩
  else do
    let hi ← shiftLeft64 base.hi bits
    let carried ← shiftRight64 base.lo (64 - bits)
    let lo ← shiftLeft64 base.lo bits
    return ⟨hi ||| carried, lo⟩

def ucmp128 (value1 value2 : UInt128) : ℤ :=
  if value1.hi ≠ value2.hi then if value1.hi < value2.hi then -1 else 1
  else if value1.lo = value2.lo then 0
  else if value1.lo < value2.lo then -1
  else 1

def zbxUinc128128 (base value : UInt128) : UInt128 :=
  let lo := base.lo + value.lo
  let hi := if base.lo > lo then base.hi + 1 else base.hi
  ⟨hi + value.hi, lo⟩

def umul6432Shift (base : UInt128) (value factor : UInt64) (shift : ℕ) : Option UInt128 := do
  let buffer ← ushiftl128 ⟨0, (value &&& 0xffffffff) * factor⟩ shift
  let base := zbxUinc128128 base buffer
  let high ← shiftRight64 value 32
  let buffer ← ushiftl128 ⟨0, high * factor⟩ (32 + shift)
  return zbxUinc128128 base buffer

def zbxUmul6464 (value factor : UInt64) : Option UInt128 := do
  let result ← umul6432Shift ⟨0, 0⟩ value (factor &&& 0xffffffff) 0
  let high ← shiftRight64 factor 32
  umul6432Shift result value high 32

/-- The variables of `zbx_udiv128_64`; `ored` are the numbers that were or-ed into `result->lo`, the
last one first. -/
structure Division where
  reminder : UInt128
  divisor : UInt128
  resultMask : UInt64
  resultLo : UInt64
  ored : List UInt64

/-- The inner loop of `zbx_udiv128_64`, at most so many rounds. -/
def alignDivisor : ℕ → Division → Option Division
  | 0, _ => none
  | fuel + 1, d =>
    if ucmp128 d.reminder d.divisor < 0 then do
      let divisor ← ushiftr128 d.divisor 1
      let resultMask ← shiftRight64 d.resultMask 1
      alignDivisor fuel { d with divisor := divisor, resultMask := resultMask }
    else some d

/-- The loop of `zbx_udiv128_64`; there is a round for each of the 64 bits at most. -/
def divideLoop : ℕ → Division → Option Division
  | 0, _ => none
  | fuel + 1, d =>
    if d.reminder.hi ≠ 0 then do
      let d ← alignDivisor 65 d
      divideLoop fuel
        { d with
          reminder := udec128 d.reminder d.divisor
          resultLo := d.resultLo ||| d.resultMask
          ored := d.resultMask :: d.ored }
    else some d

def zbxUdiv12864 (dividend : UInt128) (value : UInt64) : Option (UInt128 × List UInt64) := do
  let resultMask ← shiftLeft64 1 63
  if dividend.hi = 0 then return (⟨0, dividend.lo / value⟩, [])
  let hi := if dividend.hi ≥ value then dividend.hi / value else 0
  let reminder : UInt128 :=
    if dividend.hi ≥ value then ⟨dividend.hi - hi * value, dividend.lo⟩ else dividend
  let divisor ← ushiftr128 ⟨value, 0⟩ 1
  let d ← divideLoop 65 ⟨reminder, divisor, resultMask, 0, []⟩
  let last := d.reminder.lo / value
  return (⟨hi, d.resultLo ||| last⟩, last :: d.ored)

theorem or_eq_add (ha : 2 ^ k ∣ a) (hb : b < 2 ^ k) : a ||| b = a + b := by
  obtain ⟨c, rfl⟩ := ha
  have h := shiftLeft_add_eq_or_of_lt hb c
  rw [shiftLeft_eq, Nat.mul_comm c] at h
  exact h.symm

theorem shiftLeft64_spec (value : UInt64) (h : bits < 64) :
    ∃ r, shiftLeft64 value bits = some r ∧ r.toNat = value.toNat * 2 ^ bits % 2 ^ 64 := by
  refine ⟨_, if_pos h, ?_⟩
  rw [UInt64.toNat_shiftLeft, UInt64.toNat_ofNat_of_lt' (Nat.lt_of_lt_of_le h (by decide)),
    mod_eq_of_lt h, shiftLeft_eq]

theorem shiftRight64_spec (value : UInt64) (h : bits < 64) :
    ∃ r, shiftRight64 value bits = some r ∧ r.toNat = value.toNat / 2 ^ bits := by
  refine ⟨_, if_pos h, ?_⟩
  rw [UInt64.toNat_shiftRight, UInt64.toNat_ofNat_of_lt' (Nat.lt_of_lt_of_le h (by decide)),
    mod_eq_of_lt h, shiftRight_eq_div_pow]

theorem shiftLeft64_zero (bits : ℕ) (h : bits < 64) : shiftLeft64 0 bits = some 0 := by
  obtain ⟨r, hr, hvalue⟩ := shiftLeft64_spec 0 h
  have hzero : r = 0 := UInt64.toNat_inj.mp (by rw [hvalue]; simp)
  rw [hr, hzero]

theorem UInt128.toNat_inj {a b : UInt128} (h : a.toNat = b.toNat) : a = b := by
  have ha := a.lo.toNat_lt
  have hb := b.lo.toNat_lt
  simp only [UInt128.toNat] at h
  have hhi : a.hi = b.hi := UInt64.toNat_inj.mp (by omega)
  have hlo : a.lo = b.lo := UInt64.toNat_inj.mp (by omega)
  exact UInt128.ext hhi hlo

theorem ucmp128_neg_iff (a b : UInt128) : ucmp128 a b < 0 ↔ a.toNat < b.toNat := by
  have ha := a.lo.toNat_lt
  have hb := b.lo.toNat_lt
  simp only [ucmp128, UInt128.toNat, ne_eq, ← UInt64.toNat_inj, UInt64.lt_iff_toNat_lt]
  split_ifs <;> constructor <;> intro h <;> omega

variable {base value : UInt128}

theorem udec128_toNat (h : value.toNat ≤ base.toNat) :
    (udec128 base value).toNat = base.toNat - value.toNat := by
  have hbase := base.lo.toNat_lt
  have hvalue := value.lo.toNat_lt
  have hhi := base.hi.toNat_lt
  have hhi' := value.hi.toNat_lt
  simp only [UInt128.toNat] at h
  simp only [udec128, UInt128.toNat, UInt64.lt_iff_toNat_lt, UInt64.toNat_sub]
  split_ifs with hborrow
  · rw [UInt64.toNat_sub, UInt64.toNat_one]
    omega
  · omega

theorem zbxUinc128128_toNat (h : base.toNat + value.toNat < 2 ^ 128) :
    (zbxUinc128128 base value).toNat = base.toNat + value.toNat := by
  have hbase := base.lo.toNat_lt
  have hvalue := value.lo.toNat_lt
  simp only [UInt128.toNat] at h
  simp only [zbxUinc128128, UInt128.toNat, gt_iff_lt, UInt64.lt_iff_toNat_lt, UInt64.toNat_add]
  split_ifs with hcarry
  · rw [UInt64.toNat_add, UInt64.toNat_one]
    omega
  · omega

theorem ushiftr128_one (base : UInt128) :
    ∃ r, ushiftr128 base 1 = some r ∧ r.toNat = base.toNat / 2 := by
  obtain ⟨lo, hlo, hlo'⟩ := shiftRight64_spec base.lo (show 1 < 64 by decide)
  obtain ⟨carried, hcarried, hcarried'⟩ := shiftLeft64_spec base.hi (show 63 < 64 by decide)
  obtain ⟨hi, hhi, hhi'⟩ := shiftRight64_spec base.hi (show 1 < 64 by decide)
  have hword := base.lo.toNat_lt
  have hbits : carried.toNat = base.hi.toNat % 2 * 2 ^ 63 := by
    rw [hcarried']
    omega
  have hor : (lo ||| carried).toNat = base.hi.toNat % 2 * 2 ^ 63 + base.lo.toNat / 2 := by
    rw [UInt64.toNat_or, lor_comm, hbits, hlo', pow_one]
    exact or_eq_add (Nat.dvd_mul_left _ _) (by omega)
  refine ⟨⟨hi, lo ||| carried⟩, ?_, ?_⟩
  · simp only [ushiftr128, hlo, hcarried, hhi]
    rfl
  · simp only [UInt128.toNat, hor, hhi', pow_one]
    omega

theorem ushiftl128_word (lo : UInt64) (h : bits ≤ 64) :
    ∃ r, ushiftl128 ⟨0, lo⟩ bits = some r ∧ r.toNat = lo.toNat * 2 ^ bits := by
  have hword := lo.toNat_lt
  rcases Nat.eq_zero_or_pos bits with hzero | hpos
  · refine ⟨⟨0, lo⟩, if_pos hzero, ?_⟩
    simp [UInt128.toNat, hzero]
  · rcases Nat.eq_or_lt_of_le h with hfull | hless
    · obtain ⟨hi, hhi, hhi'⟩ := shiftLeft64_spec lo (show 0 < 64 by decide)
      refine ⟨⟨hi, 0⟩, ?_, ?_⟩
      · simp [ushiftl128, hfull, hhi]
      · simp only [UInt128.toNat, hhi', hfull, UInt64.toNat_zero]
        omega
    · obtain ⟨carried, hcarried, hcarried'⟩ := shiftRight64_spec lo (show 64 - bits < 64 by omega)
      obtain ⟨shifted, hshifted, hshifted'⟩ := shiftLeft64_spec lo hless
      have hpow : 2 ^ 64 = 2 ^ (64 - bits) * 2 ^ bits := by rw [← Nat.pow_add, Nat.sub_add_cancel h]
      have hdiv : carried.toNat = lo.toNat * 2 ^ bits / 2 ^ 64 := by
        rw [hcarried', hpow, Nat.mul_div_mul_right _ _ (Nat.two_pow_pos bits)]
      have hnone : ¬ 64 ≤ bits := by omega
      refine ⟨⟨0 ||| carried, shifted⟩, ?_, ?_⟩
      · simp [ushiftl128, Nat.ne_of_gt hpos, hnone, shiftLeft64_zero bits hless, hcarried, hshifted]
      · rw [UInt128.toNat, UInt64.zero_or, hdiv, hshifted', Nat.mul_comm, div_add_mod]

theorem and_mask_toNat (value : UInt64) : (value &&& 0xffffffff).toNat = value.toNat % 2 ^ 32 := by
  rw [UInt64.toNat_and]
  exact and_two_pow_sub_one_eq_mod value.toNat 32

theorem mul_words_toNat {a b : UInt64} (ha : a.toNat < 2 ^ 32) (hb : b.toNat < 2 ^ 32) :
    (a * b).toNat = a.toNat * b.toNat := by
  rw [UInt64.toNat_mul, mod_eq_of_lt]
  nlinarith

theorem umul6432Shift_spec (base : UInt128) (value factor : UInt64) (shift : ℕ)
    (hfactor : factor.toNat < 2 ^ 32) (hshift : shift ≤ 32)
    (hsum : base.toNat + value.toNat * factor.toNat * 2 ^ shift < 2 ^ 128) :
    ∃ r, umul6432Shift base value factor shift = some r ∧
      r.toNat = base.toNat + value.toNat * factor.toNat * 2 ^ shift := by
  obtain ⟨high, hhigh, hhigh'⟩ := shiftRight64_spec value (show 32 < 64 by decide)
  have hlow := and_mask_toNat value
  have hword := value.toNat_lt
  have hlowFits : (value &&& 0xffffffff).toNat < 2 ^ 32 := by omega
  have hhighFits : high.toNat < 2 ^ 32 := by omega
  obtain ⟨first, hfirst, hfirst'⟩ :=
    ushiftl128_word ((value &&& 0xffffffff) * factor) (Nat.le_trans hshift (by decide))
  obtain ⟨second, hsecond, hsecond'⟩ :=
    ushiftl128_word (high * factor) (show 32 + shift ≤ 64 by omega)
  rw [mul_words_toNat hlowFits hfactor] at hfirst'
  rw [mul_words_toNat hhighFits hfactor] at hsecond'
  have hparts : first.toNat + second.toNat = value.toNat * factor.toNat * 2 ^ shift := by
    have hsplit : value.toNat = value.toNat % 2 ^ 32 + value.toNat / 2 ^ 32 * 2 ^ 32 := by omega
    rw [hfirst', hsecond', hlow, hhigh', Nat.pow_add]
    nth_rewrite 3 [hsplit]
    ring
  have hsum' : (zbxUinc128128 base first).toNat = base.toNat + first.toNat :=
    zbxUinc128128_toNat (by omega)
  refine ⟨zbxUinc128128 (zbxUinc128128 base first) second, ?_, ?_⟩
  · simp [umul6432Shift, hfirst, hhigh, hsecond]
  · rw [zbxUinc128128_toNat (by omega), hsum', ← hparts, Nat.add_assoc]

theorem zbxUmul6464_spec (value factor : UInt64) :
    ∃ r, zbxUmul6464 value factor = some r ∧ r.toNat = value.toNat * factor.toNat := by
  obtain ⟨high, hhigh, hhigh'⟩ := shiftRight64_spec factor (show 32 < 64 by decide)
  have hlow := and_mask_toNat factor
  have hword := value.toNat_lt
  have hword' := factor.toNat_lt
  have hproduct : value.toNat * factor.toNat < 2 ^ 128 :=
    Nat.lt_of_lt_of_le (Nat.mul_lt_mul'' hword hword') (by decide)
  have hsplit : value.toNat * (factor &&& 0xffffffff).toNat + value.toNat * high.toNat * 2 ^ 32 =
      value.toNat * factor.toNat := by
    have hfactor : factor.toNat = factor.toNat % 2 ^ 32 + factor.toNat / 2 ^ 32 * 2 ^ 32 := by omega
    rw [hlow, hhigh']
    nth_rewrite 3 [hfactor]
    ring
  have hzero : UInt128.toNat ⟨0, 0⟩ = 0 := rfl
  obtain ⟨low, hfirst, hfirst'⟩ := umul6432Shift_spec ⟨0, 0⟩ value (factor &&& 0xffffffff) 0
    (by omega) (by decide) (by omega)
  obtain ⟨r, hsecond, hsecond'⟩ := umul6432Shift_spec low value high 32 (by omega) (le_refl 32)
    (by omega)
  refine ⟨r, ?_, ?_⟩
  · simp only [zbxUmul6464, hfirst, hhigh]
    exact hsecond
  · omega

theorem and_eq_zero (ha : 2 ^ k ∣ a) (hb : b < 2 ^ k) : b &&& a = 0 := by
  obtain ⟨c, rfl⟩ := ha
  apply eq_of_testBit_eq
  intro i
  rw [testBit_and, zero_testBit, testBit_two_pow_mul]
  by_cases hi : k ≤ i
  · rw [testBit_lt_two_pow (Nat.lt_of_lt_of_le hb (Nat.pow_le_pow_right (by decide) hi)),
      Bool.false_and]
  · simp [hi]

structure Division.Ok (d : Division) (value dividend m k : ℕ) : Prop where
  mask : d.resultMask.toNat = 2 ^ k
  divisor : d.divisor.toNat = value * 2 ^ k
  place : k ≤ m ∧ m ≤ k + 1
  less : d.reminder.toNat < value * 2 ^ m
  result : 2 ^ m ∣ d.resultLo.toNat
  total : d.resultLo.toNat * value + d.reminder.toNat = dividend
  ored : ∀ x ∈ d.ored, 2 ^ m ∣ x.toNat
  apart : d.ored.Pairwise fun x y => x &&& y = 0

variable {d : Division}

/-- By induction on the rounds: the mask comes down to the next bit of the quotient. -/
theorem alignDivisor_spec {fuel : ℕ} {value : ℕ} (h : d.Ok value dividend m k)
    (hvalue : value < 2 ^ 64) (hlarge : 2 ^ 64 ≤ d.reminder.toNat) (hfuel : k < fuel) :
    ∃ d' m' k', alignDivisor fuel d = some d' ∧ d'.Ok value dividend m' k' ∧ m' ≤ m ∧
      d'.divisor.toNat ≤ d'.reminder.toNat := by
  induction fuel generalizing d m k with
  | zero => exact absurd hfuel (Nat.not_lt_zero k)
  | succ fuel ih =>
    rw [alignDivisor]
    by_cases hless : d.reminder.toNat < d.divisor.toNat
    · rw [if_pos ((ucmp128_neg_iff _ _).mpr hless)]
      obtain ⟨divisor, hdivisor, hdivisor'⟩ := ushiftr128_one d.divisor
      obtain ⟨mask, hmask, hmask'⟩ := shiftRight64_spec d.resultMask (show 1 < 64 by decide)
      have hk : k ≠ 0 := by
        intro hzero
        rw [h.divisor, hzero] at hless
        omega
      obtain ⟨j, rfl⟩ := exists_eq_succ_of_ne_zero hk
      rw [h.divisor] at hless hdivisor'
      rw [h.mask] at hmask'
      have hdvd : 2 ^ (j + 1) ∣ 2 ^ m := Nat.pow_dvd_pow 2 h.place.1
      have hnext : Division.Ok { d with divisor := divisor, resultMask := mask } value dividend
          (j + 1) j :=
        { mask := by rw [hmask', pow_one, Nat.pow_succ, Nat.mul_div_cancel _ (by decide)]
          divisor := by
            rw [hdivisor', Nat.pow_succ, ← Nat.mul_assoc, Nat.mul_div_cancel _ (by decide)]
          place := ⟨le_succ j, le_refl _⟩
          less := hless
          result := hdvd.trans h.result
          total := h.total
          ored := fun x hx => hdvd.trans (h.ored x hx)
          apart := h.apart }
      obtain ⟨d', m', k', halign, hok, hm, hle⟩ := ih hnext hlarge (lt_of_succ_lt_succ hfuel)
      refine ⟨d', m', k', ?_, hok, Nat.le_trans hm h.place.1, hle⟩
      simp only [hdivisor, hmask]
      exact halign
    · rw [if_neg fun hneg => hless ((ucmp128_neg_iff _ _).mp hneg)]
      exact ⟨d, m, k, rfl, h, le_refl m, not_lt.mp hless⟩

theorem Division.Ok.subtract {value : ℕ} (h : d.Ok value dividend m k)
    (hle : d.divisor.toNat ≤ d.reminder.toNat) :
    k + 1 = m ∧ Division.Ok
      { d with
        reminder := udec128 d.reminder d.divisor
        resultLo := d.resultLo ||| d.resultMask
        ored := d.resultMask :: d.ored } value dividend k k := by
  have hm : k + 1 = m := by
    have hless := h.less
    rw [h.divisor] at hle
    have hpow : 2 ^ k < 2 ^ m := Nat.lt_of_mul_lt_mul_left (Nat.lt_of_le_of_lt hle hless)
    have hlt : k < m := (Nat.pow_lt_pow_iff_right (by decide)).mp hpow
    have := h.place.2
    omega
  have hmask : d.resultMask.toNat < 2 ^ m := by
    rw [h.mask, ← hm]
    exact Nat.pow_lt_pow_right (by decide) (lt_succ_self k)
  have hor : (d.resultLo ||| d.resultMask).toNat = d.resultLo.toNat + 2 ^ k := by
    rw [UInt64.toNat_or, or_eq_add h.result hmask, h.mask]
  have hdvd : 2 ^ k ∣ 2 ^ m := Nat.pow_dvd_pow 2 (by omega)
  have hreminder := udec128_toNat hle
  rw [h.divisor] at hle hreminder
  have hless := h.less
  have htotal := h.total
  have hdouble : value * 2 ^ m = value * 2 ^ k + value * 2 ^ k := by
    rw [← hm, Nat.pow_succ]
    ring
  refine ⟨hm,
    { mask := h.mask, divisor := h.divisor, place := ⟨le_refl k, le_succ k⟩
      less := ?_, result := ?_, total := ?_, ored := ?_, apart := ?_ }⟩
  · change (udec128 d.reminder d.divisor).toNat < value * 2 ^ k
    omega
  · change 2 ^ k ∣ (d.resultLo ||| d.resultMask).toNat
    rw [hor]
    exact (Nat.dvd_add_right (hdvd.trans h.result)).mpr (Nat.dvd_refl _)
  · change (d.resultLo ||| d.resultMask).toNat * value + (udec128 d.reminder d.divisor).toNat = _
    rw [hor, hreminder, Nat.add_mul, Nat.mul_comm (2 ^ k)]
    omega
  · intro x hx
    rcases List.mem_cons.mp hx with hnew | hold
    · rw [hnew, h.mask]
    · exact hdvd.trans (h.ored x hold)
  · refine List.pairwise_cons.mpr ⟨fun x hx => ?_, h.apart⟩
    rw [← UInt64.toNat_inj, UInt64.toNat_and]
    exact and_eq_zero (h.ored x hx) hmask

theorem UInt128.toNat_of_hi (h : value.hi = 0) : value.toNat = value.lo.toNat := by
  rw [toNat, h]
  simp

theorem UInt128.le_toNat_of_hi (h : value.hi ≠ 0) : 2 ^ 64 ≤ value.toNat := by
  have hpos : 0 < value.hi.toNat := Nat.pos_of_ne_zero fun hzero => h (UInt64.toNat_inj.mp hzero)
  rw [toNat]
  omega

theorem divideLoop_spec {fuel : ℕ} {value : ℕ} (h : d.Ok value dividend m k)
    (hvalue : value < 2 ^ 64) (hm : m ≤ 64) (hfuel : m < fuel) :
    ∃ d' m' k', divideLoop fuel d = some d' ∧ d'.Ok value dividend m' k' ∧ d'.reminder.hi = 0 := by
  induction fuel generalizing d m k with
  | zero => exact absurd hfuel (Nat.not_lt_zero m)
  | succ fuel ih =>
    rw [divideLoop]
    by_cases hhi : d.reminder.hi = 0
    · rw [if_neg (not_not.mpr hhi)]
      exact ⟨d, m, k, rfl, h, hhi⟩
    · rw [if_pos hhi]
      have hplace := h.place
      obtain ⟨aligned, m', k', halign, hok, hle, hsubtract⟩ :=
        alignDivisor_spec h hvalue (UInt128.le_toNat_of_hi hhi) (show k < 65 by omega)
      obtain ⟨hplace', hnext⟩ := hok.subtract hsubtract
      rw [halign]
      exact ih hnext (by omega) (by omega)

variable {reminder divisor : UInt128}

theorem Division.ok_start {value : ℕ} (hmask : mask.toNat = 2 ^ 63)
    (hdivisor : divisor.toNat = value * 2 ^ 64 / 2) (hless : reminder.toNat < value * 2 ^ 64) :
    Division.Ok ⟨reminder, divisor, mask, 0, []⟩ value reminder.toNat 64 63 where
  mask := hmask
  divisor := by
    change divisor.toNat = value * 2 ^ 63
    omega
  place := ⟨by decide, by decide⟩
  less := hless
  result := Nat.dvd_zero _
  total := by simp
  ored := fun x hx => absurd hx List.not_mem_nil
  apart := List.Pairwise.nil

theorem Division.Ok.finish {value : UInt64} (h : d.Ok value.toNat dividend m k)
    (hvalue : 0 < value.toNat) (hhi : d.reminder.hi = 0) :
    (d.resultLo ||| d.reminder.lo / value).toNat = dividend / value.toNat ∧
      (d.reminder.lo / value :: d.ored).Pairwise fun x y => x &&& y = 0 := by
  have hreminder := UInt128.toNat_of_hi hhi
  have hless := h.less
  have htotal := h.total
  rw [hreminder] at hless htotal
  have hlast : (d.reminder.lo / value).toNat < 2 ^ m := by
    rw [UInt64.toNat_div]
    exact Nat.div_lt_of_lt_mul hless
  constructor
  · rw [UInt64.toNat_or, or_eq_add h.result hlast, UInt64.toNat_div, ← htotal, Nat.mul_comm,
      mul_add_div hvalue]
  · refine List.pairwise_cons.mpr ⟨fun x hx => ?_, h.apart⟩
    rw [← UInt64.toNat_inj, UInt64.toNat_and]
    exact and_eq_zero (h.ored x hx) hlast

theorem divideLoop_start {value : UInt64} (hpos : 0 < value.toNat) (hmask : mask.toNat = 2 ^ 63)
    (hdivisor : divisor.toNat = UInt128.toNat ⟨value, 0⟩ / 2)
    (hless : reminder.toNat < value.toNat * 2 ^ 64) :
    ∃ d, divideLoop 65 ⟨reminder, divisor, mask, 0, []⟩ = some d ∧
      (d.resultLo ||| d.reminder.lo / value).toNat = reminder.toNat / value.toNat ∧
      (d.reminder.lo / value :: d.ored).Pairwise fun x y => x &&& y = 0 := by
  have hword : value.toNat < 2 ^ 64 := value.toNat_lt
  have hdivisor' : divisor.toNat = value.toNat * 2 ^ 64 / 2 := by
    rw [hdivisor]
    simp [UInt128.toNat]
  have hstart := Division.ok_start hmask hdivisor' hless
  obtain ⟨d, m, k, hloop, hok, hdone⟩ :=
    divideLoop_spec hstart hword (le_refl 64) (show 64 < 65 by decide)
  exact ⟨d, hloop, hok.finish hpos hdone⟩

theorem high_quotient (dividend : UInt128) {value : UInt64} (hpos : 0 < value.toNat) :
    UInt128.toNat ⟨dividend.hi - dividend.hi / value * value, dividend.lo⟩ < value.toNat * 2 ^ 64 ∧
      dividend.toNat = (dividend.hi / value).toNat * 2 ^ 64 * value.toNat +
        UInt128.toNat ⟨dividend.hi - dividend.hi / value * value, dividend.lo⟩ := by
  have hword := dividend.hi.toNat_lt
  have hlow := dividend.lo.toNat_lt
  have hmul : dividend.hi.toNat / value.toNat * value.toNat ≤ dividend.hi.toNat :=
    div_mul_le_self _ _
  have hproduct : (dividend.hi / value * value).toNat =
      dividend.hi.toNat / value.toNat * value.toNat := by
    rw [UInt64.toNat_mul, UInt64.toNat_div, mod_eq_of_lt (by omega)]
  have hrest : (dividend.hi - dividend.hi / value * value).toNat =
      dividend.hi.toNat % value.toNat := by
    have hmod := div_add_mod' dividend.hi.toNat value.toNat
    rw [UInt64.toNat_sub, hproduct]
    omega
  have hmod := mod_lt dividend.hi.toNat hpos
  have hsplit := div_add_mod' dividend.hi.toNat value.toNat
  constructor
  · rw [UInt128.toNat, hrest]
    change _ + dividend.lo.toNat < _
    omega
  · rw [UInt128.toNat, UInt128.toNat, hrest, UInt64.toNat_div]
    nth_rewrite 1 [← hsplit]
    ring

theorem zbxUdiv12864_spec (dividend : UInt128) {value : UInt64} (hvalue : value ≠ 0) :
    ∃ result ored, zbxUdiv12864 dividend value = some (result, ored) ∧
      result.toNat = dividend.toNat / value.toNat ∧ ored.Pairwise fun x y => x &&& y = 0 := by
  have hpos : 0 < value.toNat := Nat.pos_of_ne_zero fun hzero => hvalue (UInt64.toNat_inj.mp hzero)
  obtain ⟨mask, hmask, hmask'⟩ := shiftLeft64_spec 1 (show 63 < 64 by decide)
  obtain ⟨divisor, hdivisor, hdivisor'⟩ := ushiftr128_one ⟨value, 0⟩
  by_cases hhi : dividend.hi = 0
  · refine ⟨⟨0, dividend.lo / value⟩, [], ?_, ?_, List.Pairwise.nil⟩
    · simp [zbxUdiv12864, hmask, hhi]
    · simp [UInt128.toNat, hhi]
  · by_cases hge : dividend.hi ≥ value
    · obtain ⟨hless, hsplit⟩ := high_quotient dividend hpos
      obtain ⟨d, hloop, hlow, hored⟩ := divideLoop_start hpos hmask' hdivisor' hless
      refine ⟨⟨dividend.hi / value, d.resultLo ||| d.reminder.lo / value⟩,
        d.reminder.lo / value :: d.ored, ?_, ?_, hored⟩
      · simp [zbxUdiv12864, hmask, hhi, hge, hdivisor, hloop]
      · rw [hsplit, Nat.mul_comm _ value.toNat, mul_add_div hpos, UInt128.toNat, hlow]
    · have hless : dividend.toNat < value.toNat * 2 ^ 64 := by
        rw [ge_iff_le, UInt64.le_iff_toNat_le] at hge
        have hlow := dividend.lo.toNat_lt
        rw [UInt128.toNat]
        omega
      obtain ⟨d, hloop, hlow, hored⟩ := divideLoop_start hpos hmask' hdivisor' hless
      refine ⟨⟨0, d.resultLo ||| d.reminder.lo / value⟩, d.reminder.lo / value :: d.ored, ?_, ?_,
        hored⟩
      · simp [zbxUdiv12864, hmask, hhi, hge, hdivisor, hloop]
      · rw [UInt128.toNat, hlow]
        simp

/-- Division is exact, and undoes multiplication. -/
theorem zbx_udiv128_64_exact (dividend : UInt128) (value : UInt64) (hvalue : value ≠ 0) :
    (∃ result ored, zbxUdiv12864 dividend value = some (result, ored) ∧
      result.toNat = dividend.toNat / value.toNat ∧ ored.Pairwise fun x y => x &&& y = 0) ∧
    ∀ factor : UInt64, ∃ product ored, zbxUmul6464 factor value = some product ∧
      zbxUdiv12864 product value = some (⟨0, factor⟩, ored) := by
  refine ⟨zbxUdiv12864_spec dividend hvalue, fun factor => ?_⟩
  obtain ⟨product, hproduct, hproduct'⟩ := zbxUmul6464_spec factor value
  obtain ⟨result, ored, hdivision, hresult, -⟩ := zbxUdiv12864_spec product hvalue
  have hpos : 0 < value.toNat := Nat.pos_of_ne_zero fun hzero => hvalue (UInt64.toNat_inj.mp hzero)
  have hfactor : result = ⟨0, factor⟩ := by
    apply UInt128.toNat_inj
    rw [hresult, hproduct', Nat.mul_div_cancel _ hpos]
    simp [UInt128.toNat]
  exact ⟨product, ored, hproduct, hfactor ▸ hdivision⟩

theorem zbx_udiv128_64_exact_three :
    (∃ result ored, zbxUdiv12864 ⟨7, 5⟩ 3 = some (result, ored) ∧
      result.toNat = UInt128.toNat ⟨7, 5⟩ / (3 : UInt64).toNat ∧
      ored.Pairwise fun x y => x &&& y = 0) ∧
    ∀ factor : UInt64, ∃ product ored, zbxUmul6464 factor 3 = some product ∧
      zbxUdiv12864 product 3 = some (⟨0, factor⟩, ored) :=
  zbx_udiv128_64_exact ⟨7, 5⟩ 3 (by decide)

end Zabbix.Algo
