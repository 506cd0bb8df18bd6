import Zabbix.Crypto.Base64

/-!
# Base64 texts are validated, written and read as the standard has it
-/

namespace Zabbix.Crypto

open List Base64 Memory

variable {text : List UInt8}
variable {a rest c old : List UInt8} {i fuel k n : ℕ} {c₁ c₂ c₃ c₄ shift : UInt8}

theorem alphabet_codes : alphabet =
    (range' 65 26 ++ range' 97 26 ++ range' 48 10 ++ [43, 47]).map UInt8.ofNat := by
  decide +kernel

theorem symbol_iff (c : UInt8) : Base64.Symbol c ↔
    65 ≤ c.toNat ∧ c.toNat ≤ 90 ∨ 97 ≤ c.toNat ∧ c.toNat ≤ 122 ∨
      47 ≤ c.toNat ∧ c.toNat ≤ 57 ∨ c.toNat = 43 := by
  have hc := UInt8.toNat_lt c
  rw [Base64.Symbol, alphabet_codes, mem_map]
  constructor
  · rintro ⟨n, hn, rfl⟩
    simp only [mem_append, mem_range'_1, mem_cons, not_mem_nil, or_false] at hn
    rw [UInt8.toNat_ofNat', Nat.mod_eq_of_lt (by omega)]
    omega
  · intro h
    refine ⟨c.toNat, ?_, UInt8.ofNat_toNat⟩
    simp only [mem_append, mem_range'_1, mem_cons, not_mem_nil, or_false]
    omega

theorem isValidBase64Char_eq (c : UInt8) : isValidBase64Char c = decide (Symbol c) := by
  have hcodes : ascii 'A' = 65 ∧ ascii 'Z' = 90 ∧ ascii 'a' = 97 ∧ ascii 'z' = 122 ∧
      ascii '/' = 47 ∧ ascii '9' = 57 ∧ ascii '+' = 43 := by decide
  obtain ⟨hA, hZ, ha, hz, hslash, h9, hplus⟩ := hcodes
  rw [Bool.eq_iff_iff, decide_eq_true_eq, symbol_iff, isValidBase64Char, hA, hZ, ha, hz, hslash, h9,
    hplus]
  simp only [Bool.or_eq_true, Bool.and_eq_true, decide_eq_true_eq, ge_iff_le, UInt8.le_iff_toNat_le,
    ← UInt8.toNat_inj, UInt8.reduceToNat, or_assoc]
  omega

theorem digit_codes (n : ℕ) : isBase64 (digit n) = true ∧ digit n ≠ 0 ∧ digit n ≠ padding ∧
    charBase64Decode (digit n) = UInt8.ofNat (n % 64) := by
  have hall : ∀ k < 64, isBase64 (digit k) = true ∧ digit k ≠ 0 ∧ digit k ≠ padding ∧
      charBase64Decode (digit k) = UInt8.ofNat k := by
    simp only [digit, alphabet_codes]
    decide +kernel
  have hlow : digit n = digit (n % 64) := by rw [digit, digit, Nat.mod_mod]
  rw [hlow]
  exact hall (n % 64) (Nat.mod_lt n (by decide))

theorem charAt_append (hi : i = a.length) : charAt (a ++ rest) i = some (rest.headD 0) := by
  rw [charAt, hi, append_assoc]
  cases rest <;> simp

theorem validateLoop_skip (a rest : List UInt8) {c : UInt8} (fuel : ℕ) (hmod : a.length % 4 ≠ 0)
    (hc : c ≠ 0) : validateLoop (a ++ c :: rest) (fuel + 1) a.length =
      validateLoop (a ++ c :: rest) fuel (a.length + 1) := by
  rw [validateLoop, charAt_append rfl, Option.bind_some, headD_cons, if_pos (Or.inl hc),
    if_pos hmod]

theorem validateLoop_short (a : List UInt8) (hmod : a.length % 4 ≠ 0)
    (hshort : a.length % 4 + rest.length < 4) (hrest : ∀ c ∈ rest, c ≠ 0)
    (hfuel : rest.length < fuel) : validateLoop (a ++ rest) fuel a.length = some false := by
  induction rest generalizing a fuel with
  | nil =>
    obtain ⟨fuel, rfl⟩ := Nat.exists_eq_add_of_lt hfuel
    rw [validateLoop, charAt_append rfl, Option.bind_some, if_neg]
    rintro (hne | hzero)
    · exact hne rfl
    · exact hmod hzero
  | cons c rest ih =>
    rw [length_cons] at hshort hfuel
    obtain ⟨fuel, rfl⟩ : ∃ k, fuel = k + 1 := ⟨fuel - 1, by omega⟩
    rw [validateLoop_skip a rest fuel hmod (hrest c mem_cons_self)]
    have hlength : (a ++ [c]).length = a.length + 1 := by simp
    have hnext : validateLoop (a ++ [c] ++ rest) fuel (a ++ [c]).length = some false := by
      apply ih
      · omega
      · omega
      · exact fun x hx => hrest x (mem_cons_of_mem c hx)
      · omega
    rwa [hlength, append_assoc] at hnext

theorem validateLoop_group (hi : i = a.length + 4) (hmod : i % 4 = 0) (hrest : ∀ c ∈ rest, c ≠ 0) :
    validateLoop (a ++ c₁ :: c₂ :: c₃ :: c₄ :: rest) (fuel + 1) i =
      if Symbol c₁ ∧ Symbol c₂ ∧ Symbol c₃ ∧ Symbol c₄ then
        if rest = [] then some true
        else validateLoop (a ++ c₁ :: c₂ :: c₃ :: c₄ :: rest) fuel (i + 1)
      else some (rest = [] && Symbol c₁ && Symbol c₂ && (Symbol c₃ || c₃ = padding) &&
        c₄ = padding) := by
  have hsplit : a ++ c₁ :: c₂ :: c₃ :: c₄ :: rest = (a ++ [c₁, c₂, c₃, c₄]) ++ rest := by simp
  have hchar : charAt (a ++ c₁ :: c₂ :: c₃ :: c₄ :: rest) i = some (rest.headD 0) := by
    rw [hsplit]
    exact charAt_append (by simp [hi])
  have hblock : block (a ++ c₁ :: c₂ :: c₃ :: c₄ :: rest) (i - 4) 4 = some [c₁, c₂, c₃, c₄] := by
    rw [hsplit]
    exact block_append (by omega) rfl
  have hlast : rest.headD 0 = 0 ↔ rest = [] := by
    cases rest with
    | nil => simp
    | cons c rest => simp [hrest c mem_cons_self]
  rw [validateLoop, hchar, Option.bind_some, if_pos (Or.inr hmod),
    if_neg (not_not.mpr hmod), hblock, Option.bind_some]
  simp only [isValidBase64Char_eq, hlast, Bool.and_eq_true, decide_eq_true_eq, and_assoc]
  by_cases hall : Symbol c₁ ∧ Symbol c₂ ∧ Symbol c₃ ∧ Symbol c₄
  · rw [if_pos hall, if_pos hall]
  · simp only [if_neg hall]
    by_cases hempty : rest = []
    · rw [if_pos hempty]
      by_cases htwice : Symbol c₁ ∧ Symbol c₂ ∧ c₃ = ascii '=' ∧ c₄ = ascii '='
      · simp [htwice, hempty, padding]
      · rw [if_neg htwice]
        by_cases honce : Symbol c₁ ∧ Symbol c₂ ∧ Symbol c₃ ∧ c₄ = ascii '='
        · simp [honce, hempty, padding]
        · rw [if_neg honce]
          rw [Option.some.injEq, eq_comm, Bool.eq_false_iff, padding]
          intro htext
          simp only [Bool.and_eq_true, Bool.or_eq_true, decide_eq_true_eq] at htext
          tauto
    · rw [if_neg hempty]
      simp [hempty]

theorem validateLoop_skips (ha : a.length % 4 = 0) (h₂ : c₂ ≠ 0) (h₃ : c₃ ≠ 0) (h₄ : c₄ ≠ 0)
    (fuel : ℕ) :
    validateLoop (a ++ c₁ :: c₂ :: c₃ :: c₄ :: rest) (fuel + 3) (a.length + 1) =
      validateLoop (a ++ c₁ :: c₂ :: c₃ :: c₄ :: rest) fuel (a.length + 4) := by
  have hskip₂ := validateLoop_skip (a ++ [c₁]) (c₃ :: c₄ :: rest) (fuel + 2) (by simp; omega) h₂
  have hskip₃ := validateLoop_skip (a ++ [c₁, c₂]) (c₄ :: rest) (fuel + 1) (by simp; omega) h₃
  have hskip₄ := validateLoop_skip (a ++ [c₁, c₂, c₃]) rest fuel (by simp; omega) h₄
  simp only [append_assoc, cons_append, nil_append, length_append,
    length_cons, length_nil, Nat.add_assoc, Nat.zero_add, Nat.reduceAdd] at hskip₂ hskip₃ hskip₄
  rw [hskip₂, hskip₃, hskip₄]

theorem validateLoop_spec (ha : a.length % 4 = 0) (hne : rest ≠ []) (hrest : ∀ c ∈ rest, c ≠ 0)
    (hfuel : rest.length ≤ fuel) :
    validateLoop (a ++ rest) fuel (a.length + 1) = some (isText rest) := by
  fun_induction isText rest generalizing a fuel with
  | case1 c₁ c₂ c₃ c₄ rest hall ih =>
    simp only [forall_mem_cons] at hrest
    obtain ⟨-, h₂, h₃, h₄, hrest⟩ := hrest
    simp only [length_cons] at hfuel
    obtain ⟨fuel, rfl⟩ : ∃ k, fuel = k + 1 + 3 := ⟨fuel - 4, by omega⟩
    rw [validateLoop_skips ha h₂ h₃ h₄, validateLoop_group rfl (by omega) hrest, if_pos hall]
    by_cases hempty : rest = []
    · rw [if_pos hempty]
      simp [hempty]
    · have hnext : validateLoop (a ++ [c₁, c₂, c₃, c₄] ++ rest) fuel
          ((a ++ [c₁, c₂, c₃, c₄]).length + 1) = some (isText rest) := by
        apply ih _ hempty hrest
        · omega
        · simp
          omega
      simp only [append_assoc, cons_append, nil_append, length_append,
        length_cons, length_nil, Nat.zero_add, Nat.reduceAdd] at hnext
      rw [if_neg hempty, hnext]
      simp [hempty]
  | case2 c₁ c₂ c₃ c₄ rest hall =>
    simp only [forall_mem_cons] at hrest
    obtain ⟨-, h₂, h₃, h₄, hrest⟩ := hrest
    simp only [length_cons] at hfuel
    obtain ⟨fuel, rfl⟩ : ∃ k, fuel = k + 1 + 3 := ⟨fuel - 4, by omega⟩
    rw [validateLoop_skips ha h₂ h₃ h₄, validateLoop_group rfl (by omega) hrest, if_neg hall]
  | case3 rest hshort =>
    cases rest with
    | nil => exact absurd rfl hne
    | cons c₁ rest =>
      have hlength : rest.length < 3 := by
        rcases rest with _ | ⟨c₂, _ | ⟨c₃, _ | ⟨c₄, rest⟩⟩⟩
        · simp
        · simp
        · simp
        · exact absurd rfl (hshort _ _ _ _ _)
      have hend : validateLoop (a ++ [c₁] ++ rest) fuel (a ++ [c₁]).length = some false := by
        apply validateLoop_short
        · simp
          omega
        · simp
          omega
        · exact fun x hx => hrest x (mem_cons_of_mem c₁ hx)
        · exact hfuel
      simpa using hend

theorem zbxBase64Validate_spec (htext : ∀ c ∈ text, c ≠ 0) :
    zbxBase64Validate text = some (text = [] || isText text) := by
  cases text with
  | nil => rfl
  | cons c rest =>
    have hc := htext c mem_cons_self
    have hloop : validateLoop ([] ++ c :: rest) ((c :: rest).length + 1) (([] : List UInt8).length + 1) =
        some (isText (c :: rest)) := by
      apply validateLoop_spec rfl (cons_ne_nil c rest) htext
      exact Nat.le_succ _
    rw [zbxBase64Validate, show charAt (c :: rest) 0 = some c from rfl, Option.bind_some, if_neg hc]
    simpa using hloop

variable (x : UInt8)

theorem toNat_low {mask : UInt8} (hmask : mask.toNat = 2 ^ k - 1) :
    (x &&& mask).toNat = x.toNat % 2 ^ k := by
  rw [UInt8.toNat_and, hmask, Nat.and_two_pow_sub_one_eq_mod]

theorem toNat_high (hshift : shift.toNat = k) (hk : k < 8) :
    (x >>> shift).toNat = x.toNat / 2 ^ k := by
  rw [UInt8.toNat_shiftRight, hshift, Nat.mod_eq_of_lt hk, Nat.shiftRight_eq_div_pow]

theorem toNat_join (x y : UInt8) (hshift : shift.toNat = k) (hk : k < 8)
    (hx : x.toNat * 2 ^ k < 256) (hy : y.toNat < 2 ^ k) :
    ((x <<< shift) ||| y).toNat = x.toNat * 2 ^ k + y.toNat := by
  rw [UInt8.toNat_or, UInt8.toNat_shiftLeft, hshift, Nat.mod_eq_of_lt hk, Nat.shiftLeft_eq,
    Nat.mod_eq_of_lt hx, ← Nat.shiftLeft_eq, ← Nat.shiftLeft_add_eq_or_of_lt hy]

theorem charBase64Encode_digit {uc : UInt8} (h : uc.toNat = n % 64) :
    charBase64Encode uc = some (digit n) := by
  have hset : base64Set = alphabet ++ [0] := rfl
  have hbound : n % 64 < alphabet.length := Nat.mod_lt n (by decide)
  rw [charBase64Encode, hset, h, List.getElem?_append_left hbound, digit_eq]

theorem encodeGroup_spec (a b c : UInt8) (k : ℕ) :
    let n := a.toNat * 2 ^ 16 + b.toNat * 2 ^ 8 + c.toNat
    encodeGroup a b c k = some [digit (n / 2 ^ 18), digit (n / 2 ^ 12),
      if 1 < k then digit (n / 2 ^ 6) else padding, if 2 < k then digit n else padding] := by
  intro n
  have ha := a.toNat_lt
  have hb := b.toNat_lt
  have hc := c.toNat_lt
  have hlowA : (a &&& 0x3).toNat = a.toNat % 2 ^ 2 := toNat_low a rfl
  have hlowB : (b &&& 0xf).toNat = b.toNat % 2 ^ 4 := toNat_low b rfl
  have hlowC : (c &&& 0x3f).toNat = c.toNat % 2 ^ 6 := toNat_low c rfl
  have hhighA : (a >>> 2).toNat = a.toNat / 2 ^ 2 := toNat_high a rfl (by decide)
  have hhighB : (b >>> 4).toNat = b.toNat / 2 ^ 4 := toNat_high b rfl (by decide)
  have hhighC : (c >>> 6).toNat = c.toNat / 2 ^ 6 := toNat_high c rfl (by decide)
  have hto1 : charBase64Encode ((a >>> 2) &&& 0x3f) = some (digit (n / 2 ^ 18)) := by
    apply charBase64Encode_digit
    have hlow : ((a >>> 2) &&& 0x3f).toNat = (a >>> 2).toNat % 2 ^ 6 := toNat_low _ rfl
    rw [hlow, hhighA]
    omega
  have hto2 : charBase64Encode (((a &&& 0x3) <<< 4) ||| (b >>> 4)) = some (digit (n / 2 ^ 12)) := by
    apply charBase64Encode_digit
    have hjoin : (((a &&& 0x3) <<< 4) ||| (b >>> 4)).toNat =
        (a &&& 0x3).toNat * 2 ^ 4 + (b >>> 4).toNat :=
      toNat_join _ _ rfl (by decide) (by omega) (by omega)
    omega
  have hto3 : charBase64Encode (((b &&& 0xf) <<< 2) ||| (c >>> 6)) = some (digit (n / 2 ^ 6)) := by
    apply charBase64Encode_digit
    have hjoin : (((b &&& 0xf) <<< 2) ||| (c >>> 6)).toNat =
        (b &&& 0xf).toNat * 2 ^ 2 + (c >>> 6).toNat :=
      toNat_join _ _ rfl (by decide) (by omega) (by omega)
    omega
  have hto4 : charBase64Encode (c &&& 0x3f) = some (digit n) := by
    apply charBase64Encode_digit
    omega
  simp only [encodeGroup, hto1, hto2, hto3, hto4]
  split_ifs <;> rfl

theorem encodeGroup_one : encodeGroup x 0 0 1 = some (encode [x]) := by
  have hgroup := encodeGroup_spec x 0 0 1
  simpa [encode] using hgroup

theorem encodeGroup_two (x y : UInt8) : encodeGroup x y 0 2 = some (encode [x, y]) := by
  have hgroup := encodeGroup_spec x y 0 2
  simpa [encode] using hgroup

theorem encodeGroup_three (x y z : UInt8) : encodeGroup x y z 3 = some (encode [x, y, z]) := by
  have hgroup := encodeGroup_spec x y z 3
  simpa [encode] using hgroup

theorem overwrite_start {d : List UInt8} {p : ℕ} (hp : p = a.length) (hold : d.length ≤ old.length)
    :
    overwrite (a ++ old ++ c) p d = some (a ++ d ++ (old.drop d.length ++ c)) := by
  rw [append_assoc a old c, overwrite_within hp, drop_append_of_le_length hold]
  rw [length_append]
  omega

theorem encodeLoop_last {last : List UInt8} (hlast : last.length = 4)
    (hold : old.length = last.length) :
    (overwrite (a ++ old ++ c) a.length last).bind (fun memory => some (a.length + 4, memory)) =
      some (a.length + old.length, a ++ last ++ c) := by
  rw [overwrite_append rfl hold.symm, Option.bind_some, hold, hlast]

theorem encodeLoop_spec (start : ℕ) (bytes : List UInt8) (hstart : start ≤ a.length)
    (hold : old.length = (encode bytes).length) (hfit : a.length + old.length < start + maxB64Len) :
    encodeLoop start bytes a.length (a ++ old ++ c) =
      some (a.length + old.length, a ++ encode bytes ++ c) := by
  have hmax : maxB64Len = 16384 := rfl
  induction bytes using encode.induct generalizing a old with
  | case1 =>
    rw [encodeLoop, hold, eq_nil_of_length_eq_zero hold]
    rfl
  | case2 x =>
    have hlength : (encode [x]).length = 4 := rfl
    rw [encodeLoop, if_neg (by omega), encodeGroup_one, Option.bind_some]
    exact encodeLoop_last hlength hold
  | case3 x y =>
    have hlength : (encode [x, y]).length = 4 := rfl
    rw [encodeLoop, if_neg (by omega), encodeGroup_two, Option.bind_some]
    exact encodeLoop_last hlength hold
  | case4 x y z bytes ih =>
    have hlength : (encode [x, y, z]).length = 4 := rfl
    have hencode : encode (x :: y :: z :: bytes) = encode [x, y, z] ++ encode bytes :=
      encode_append [x, y, z] (Nat.dvd_refl 3) bytes
    rw [hencode, length_append, hlength] at hold
    rw [encodeLoop, if_neg (by omega), encodeGroup_three, Option.bind_some,
      overwrite_start rfl (by omega), Option.bind_some, hencode, hlength]
    have hplace : a.length + 4 = (a ++ encode [x, y, z]).length := by rw [length_append, hlength]
    have hdrop : (old.drop 4).length = (encode bytes).length := by
      rw [length_drop, hold, Nat.add_sub_cancel_left]
    rw [hplace, ← append_assoc _ (old.drop 4), ih (by omega) hdrop (by omega)]
    rw [← append_assoc a, hold, hdrop, ← hplace, Nat.add_assoc]

variable (bytes : List UInt8)

theorem zbxBase64Encode_spec (x : UInt8) (hold : old.length = (encode bytes).length)
    (hfit : old.length < maxB64Len) :
    ∃ y, zbxBase64Encode bytes a.length (a ++ old ++ x :: c) =
      some (a ++ encode bytes ++ y :: c) := by
  by_cases hempty : bytes = []
  · subst hempty
    refine ⟨x, ?_⟩
    rw [zbxBase64Encode, if_pos rfl, eq_nil_of_length_eq_zero hold]
    rfl
  · refine ⟨0, ?_⟩
    rw [zbxBase64Encode, if_neg hempty,
      encodeLoop_spec a.length bytes (Nat.le_refl _) hold (by omega), Option.bind_some]
    apply overwrite_one
    rw [length_append, hold]

theorem exists_split {l : List UInt8} (h : n < l.length) :
    ∃ old x later, l = old ++ x :: later ∧ old.length = n := by
  refine ⟨l.take n, l[n], l.drop (n + 1), ?_, ?_⟩
  · rw [getElem_cons_drop, take_append_drop]
  · rw [length_take, Nat.min_eq_left (Nat.le_of_lt h)]

theorem length_encode_block {chunk : List UInt8} (h : chunk.length = cPerBlock) :
    (encode chunk).length = bPerBlock := by
  rw [length_encode, h]
  rfl

theorem encodeBlocks_spec (n : ℕ) {front later : List UInt8} (hfront : 3 ∣ front.length)
    (hrest : n * cPerBlock ≤ rest.length) (hlater : later.length = (encode rest).length + 1) :
    ∃ front' rest' later', front' ++ rest' = front ++ rest ∧
      front'.length = front.length + n * cPerBlock ∧ later'.length = (encode rest').length + 1 ∧
      encodeBlocks (front ++ rest) n front.length (encode front).length (encode front ++ later) =
        some (front'.length, (encode front').length, encode front' ++ later') := by
  induction n generalizing front rest later with
  | zero => exact ⟨front, rest, later, rfl, by omega, hlater, rfl⟩
  | succ n ih =>
    have hblock : cPerBlock = 12285 := rfl
    have hbytes : bPerBlock = 16380 := rfl
    have hmax : maxB64Len = 16384 := rfl
    rw [Nat.succ_mul] at hrest
    obtain ⟨chunk, rest, rfl, hchunk⟩ : ∃ chunk rest', rest = chunk ++ rest' ∧
        chunk.length = cPerBlock := by
      refine ⟨rest.take cPerBlock, rest.drop cPerBlock, (take_append_drop _ _).symm, ?_⟩
      rw [length_take, Nat.min_eq_left (by omega)]
    have hchunkBytes := length_encode_block hchunk
    rw [encode_append chunk (by omega), length_append, hchunkBytes] at hlater
    obtain ⟨old, x, later, rfl, hold⟩ := exists_split (l := later) (n := bPerBlock) (by omega)
    obtain ⟨y, hencode⟩ := zbxBase64Encode_spec chunk (a := encode front) (c := later) x
      (hold.trans hchunkBytes.symm) (by omega)
    have hread : block (front ++ (chunk ++ rest)) front.length cPerBlock = some chunk := by
      rw [← append_assoc]
      exact block_append rfl hchunk.symm
    have hfront' : 3 ∣ (front ++ chunk).length := by
      rw [length_append]
      omega
    rw [length_append] at hrest
    have hlater' : (y :: later).length = (encode rest).length + 1 := by
      rw [length_append, length_cons] at hlater
      rw [length_cons]
      omega
    obtain ⟨front', rest', later', hwhole, hlength, hlength', hrun⟩ := ih hfront' (by omega) hlater'
    refine ⟨front', rest', later', ?_, ?_, hlength', ?_⟩
    · rw [hwhole, append_assoc]
    · rw [hlength, length_append, hchunk, Nat.succ_mul]
      omega
    · rw [encodeBlocks, hread, Option.bind_some, ← append_assoc (encode front), hencode,
        Option.bind_some, ← hrun, encode_append front hfront, length_append, length_append,
        hchunk, hchunkBytes, append_assoc front]

theorem zbxBase64EncodeDyn_spec (fresh : ℕ → UInt8) (bytes : List UInt8)
    (hsize : (bytes.length + 2) / 3 * 4 + 1 < 2 ^ 31) :
    zbxBase64EncodeDyn fresh bytes = some (encode bytes ++ [0]) := by
  have hblock : cPerBlock = 12285 := rfl
  have hmax : maxB64Len = 16384 := rfl
  have hfresh : ((range ((bytes.length + 2) / 3 * 4 + 1)).map fresh).length =
      (encode bytes).length + 1 := by
    rw [length_map, length_range, length_encode]
  obtain ⟨front, rest, later, hwhole, hfront, hlater, hrun⟩ :=
    encodeBlocks_spec (bytes.length / cPerBlock)
      (show 3 ∣ ([] : List UInt8).length from Nat.dvd_zero 3)
      (Nat.div_mul_le_self bytes.length cPerBlock) hfresh
  rw [nil_append] at hwhole
  have hlength := congrArg List.length hwhole
  rw [length_append] at hlength
  rw [length_nil, Nat.zero_add] at hfront
  have hrest : rest.length = bytes.length % cPerBlock := by
    have hdiv := Nat.div_add_mod' bytes.length cPerBlock
    omega
  have hfull : 3 ∣ front.length := by
    rw [hfront, hblock]
    omega
  have hencode : encode bytes = encode front ++ encode rest := by
    rw [← hwhole, encode_append front hfull]
  rw [zbxBase64EncodeDyn, if_neg (by omega)]
  have hstart : encodeBlocks bytes (bytes.length / cPerBlock) 0 0
      ((range ((bytes.length + 2) / 3 * 4 + 1)).map fresh) =
        some (front.length, (encode front).length, encode front ++ later) := hrun
  simp only [hstart, Option.bind_some]
  obtain ⟨old, x, more, rfl, hold⟩ : ∃ old x more, later = old ++ x :: more ∧
      old.length = (encode rest).length := exists_split (by omega)
  have hmore : more = [] := by
    rw [length_append, length_cons] at hlater
    exact eq_nil_of_length_eq_zero (by omega)
  subst hmore
  rw [hencode]
  by_cases hleft : bytes.length % cPerBlock = 0
  · have hempty : rest = [] := eq_nil_of_length_eq_zero (by omega)
    subst hempty
    have hnone : old = [] := eq_nil_of_length_eq_zero hold
    subst hnone
    rw [if_neg (by omega)]
    have hend := overwrite_one (a := encode front) (c := []) x 0 rfl
    simpa [encode] using hend
  · rw [if_pos hleft]
    have hread : block bytes front.length (bytes.length % cPerBlock) = some rest := by
      rw [← hwhole, ← append_nil (front ++ rest)]
      exact block_append rfl (by rw [append_nil, hwhole, hrest])
    have hbytesLeft : (bytes.length % cPerBlock + 2) / 3 * 4 = (encode rest).length := by
      rw [length_encode, hrest]
    have hfit : (encode rest).length < maxB64Len := by
      rw [← hbytesLeft, hblock, hmax]
      omega
    obtain ⟨y, hwrite⟩ := zbxBase64Encode_spec rest (a := encode front) (c := []) x hold (by omega)
    rw [hread, Option.bind_some, ← append_assoc (encode front), hwrite, Option.bind_some,
      hbytesLeft]
    apply overwrite_one
    rw [length_append]

theorem decoded_bytes (x y z : UInt8) (n : ℕ)
    (hn : n = x.toNat * 2 ^ 16 + y.toNat * 2 ^ 8 + z.toNat) :
    (charBase64Decode (digit (n / 2 ^ 18)) <<< 2) |||
        (charBase64Decode (digit (n / 2 ^ 12)) >>> 4) = x ∧
      ((charBase64Decode (digit (n / 2 ^ 12)) &&& 0xf) <<< 4) |||
        (charBase64Decode (digit (n / 2 ^ 6)) >>> 2) = y ∧
      ((charBase64Decode (digit (n / 2 ^ 6)) &&& 0x3) <<< 6) |||
        charBase64Decode (digit n) = z := by
  have hx := x.toNat_lt
  have hy := y.toNat_lt
  have hz := z.toNat_lt
  have hbits : ∀ k, (charBase64Decode (digit k)).toNat = k % 64 := by
    intro k
    rw [(digit_codes k).2.2.2, UInt8.toNat_ofNat']
    omega
  have hbits₁ := hbits (n / 2 ^ 18)
  have hbits₂ := hbits (n / 2 ^ 12)
  have hbits₃ := hbits (n / 2 ^ 6)
  have hbits₄ := hbits n
  generalize charBase64Decode (digit (n / 2 ^ 18)) = b₁ at *
  generalize charBase64Decode (digit (n / 2 ^ 12)) = b₂ at *
  generalize charBase64Decode (digit (n / 2 ^ 6)) = b₃ at *
  generalize charBase64Decode (digit n) = b₄ at *
  have hhigh₂ : (b₂ >>> 4).toNat = b₂.toNat / 2 ^ 4 := toNat_high b₂ rfl (by decide)
  have hhigh₃ : (b₃ >>> 2).toNat = b₃.toNat / 2 ^ 2 := toNat_high b₃ rfl (by decide)
  have hlow₂ : (b₂ &&& 0xf).toNat = b₂.toNat % 2 ^ 4 := toNat_low b₂ rfl
  have hlow₃ : (b₃ &&& 0x3).toNat = b₃.toNat % 2 ^ 2 := toNat_low b₃ rfl
  refine ⟨?_, ?_, ?_⟩
  · have hjoin : ((b₁ <<< 2) ||| (b₂ >>> 4)).toNat = b₁.toNat * 2 ^ 2 + (b₂ >>> 4).toNat :=
      toNat_join _ _ rfl (by decide) (by omega) (by omega)
    apply UInt8.toNat_inj.mp
    omega
  · have hjoin : (((b₂ &&& 0xf) <<< 4) ||| (b₃ >>> 2)).toNat =
        (b₂ &&& 0xf).toNat * 2 ^ 4 + (b₃ >>> 2).toNat :=
      toNat_join _ _ rfl (by decide) (by omega) (by omega)
    apply UInt8.toNat_inj.mp
    omega
  · have hjoin : (((b₃ &&& 0x3) <<< 6) ||| b₄).toNat = (b₃ &&& 0x3).toNat * 2 ^ 6 + b₄.toNat :=
      toNat_join _ _ rfl (by decide) (by omega) (by omega)
    apply UInt8.toNat_inj.mp
    omega

variable {maxsize : ℕ} {out : List UInt8}

theorem putByteIf_there (byte : UInt8) {out : List UInt8} (hroom : out.length < maxsize) :
    putByteIf maxsize true byte (false, out) =
      some (decide (out.length + 1 = maxsize), out ++ [byte]) := by
  have hput : putByte maxsize out byte =
      some (decide (out.length + 1 = maxsize), out ++ [byte]) := if_pos hroom
  exact hput

theorem putByteIf_not_there (byte : UInt8) (s : Bool × List UInt8) :
    putByteIf maxsize false byte s = some s := by
  rcases s with ⟨full | full, out⟩
  · rfl
  · rfl

theorem decodeBlock_four (c₁ c₂ c₃ c₄ : UInt8) :
    decodeBlock maxsize [c₁, c₂, c₃, c₄] out =
      (putByteIf maxsize true ((charBase64Decode c₁ <<< 2) ||| (charBase64Decode c₂ >>> 4))
        (false, out)).bind fun s =>
        (putByteIf maxsize (decide (padding ≠ c₃))
          (((charBase64Decode c₂ &&& 0xf) <<< 4) ||| (charBase64Decode c₃ >>> 2)) s).bind fun s =>
            putByteIf maxsize (decide (padding ≠ c₄))
              (((charBase64Decode c₃ &&& 0x3) <<< 6) ||| charBase64Decode c₄) s := rfl

theorem decodeBlock_one (hroom : out.length + 1 ≤ maxsize) :
    decodeBlock maxsize (encode [x]) out =
      some (decide (out.length + 1 = maxsize), out ++ [x]) := by
  obtain ⟨hx, -, -⟩ := decoded_bytes x 0 0 (x.toNat * 2 ^ 16) (by simp)
  rw [encode, decodeBlock_four, hx, putByteIf_there x (by omega), Option.bind_some,
    decide_eq_false (by simp), putByteIf_not_there, Option.bind_some, putByteIf_not_there]

theorem decodeBlock_two (x y : UInt8) (hroom : out.length + 2 ≤ maxsize) :
    decodeBlock maxsize (encode [x, y]) out =
      some (decide (out.length + 2 = maxsize), out ++ [x, y]) := by
  obtain ⟨hx, hy, -⟩ := decoded_bytes x y 0 (x.toNat * 2 ^ 16 + y.toNat * 2 ^ 8) (by simp)
  have hdigit := (digit_codes ((x.toNat * 2 ^ 16 + y.toNat * 2 ^ 8) / 2 ^ 6)).2.2.1
  have hsecond := putByteIf_there y (show (out ++ [x]).length < maxsize by simp; omega)
  rw [encode, decodeBlock_four, hx, hy, putByteIf_there x (by omega), Option.bind_some,
    decide_eq_true hdigit.symm, decide_eq_false (by omega), hsecond, Option.bind_some,
    decide_eq_false (by simp), putByteIf_not_there]
  simp

theorem decodeBlock_three (x y z : UInt8) (hroom : out.length + 3 ≤ maxsize) :
    decodeBlock maxsize (encode [x, y, z]) out =
      some (decide (out.length + 3 = maxsize), out ++ [x, y, z]) := by
  obtain ⟨hx, hy, hz⟩ := decoded_bytes x y z _ rfl
  have hdigit := fun n => (digit_codes n).2.2.1.symm
  have hsecond := putByteIf_there y (show (out ++ [x]).length < maxsize by simp; omega)
  have hthird := putByteIf_there z (show (out ++ [x] ++ [y]).length < maxsize by simp; omega)
  have hfirstRoom : ¬out.length + 1 = maxsize := by omega
  have hsecondRoom : ¬(out ++ [x]).length + 1 = maxsize := by
    simp
    omega
  rw [encode, encode, decodeBlock_four, hx, hy, hz, putByteIf_there x (by omega),
    Option.bind_some, decide_eq_true (hdigit _), decide_eq_false hfirstRoom, hsecond,
    Option.bind_some, decide_eq_true (hdigit _), decide_eq_false hsecondRoom, hthird]
  simp

theorem decodeLoop_four (c₁ c₂ c₃ c₄ : UInt8) (p : List UInt8)
    (hall : ∀ c ∈ [c₁, c₂, c₃, c₄], isBase64 c = true) :
    decodeLoop maxsize ([c₁, c₂, c₃, c₄] ++ p) [] out =
      (decodeBlock maxsize [c₁, c₂, c₃, c₄] out).bind fun (full, out) =>
        if full then some out else decodeLoop maxsize p [] out := by
  simp only [forall_mem_cons] at hall
  obtain ⟨h₁, h₂, h₃, h₄, -⟩ := hall
  simp [decodeLoop, h₁, h₂, h₃, h₄]

theorem isBase64_encode : ∀ c ∈ encode bytes, isBase64 c = true ∧ c ≠ 0 := by
  have hdigit := fun n => And.intro (digit_codes n).1 (digit_codes n).2.1
  have hpadding : isBase64 padding = true ∧ padding ≠ 0 := by decide
  fun_induction encode bytes with
  | case1 => simp
  | case2 x => simp [hdigit, hpadding]
  | case3 x y => simp [hdigit, hpadding]
  | case4 x y z bytes n ih =>
    simp only [forall_mem_cons]
    exact ⟨hdigit _, hdigit _, hdigit _, hdigit _, ih⟩

theorem decodeLoop_group {group bytes p : List UInt8} (hfour : (encode group).length = 4)
    (hblock : decodeBlock maxsize (encode group) out =
      some (decide (out.length + group.length = maxsize), out ++ group))
    (hroom : out.length + group.length + bytes.length ≤ maxsize)
    (hrest : decodeLoop maxsize p [] (out ++ group) = some (out ++ group ++ bytes)) :
    decodeLoop maxsize (encode group ++ p) [] out = some (out ++ group ++ bytes) := by
  obtain ⟨c₁, c₂, c₃, c₄, hchars⟩ := length_eq_four.mp hfour
  have hall : ∀ c ∈ [c₁, c₂, c₃, c₄], isBase64 c = true := by
    rw [← hchars]
    exact fun c hc => (isBase64_encode group c hc).1
  rw [hchars, decodeLoop_four c₁ c₂ c₃ c₄ p hall, ← hchars, hblock, Option.bind_some]
  by_cases hfull : out.length + group.length = maxsize
  · have hbytes : bytes = [] := eq_nil_of_length_eq_zero (by omega)
    simp [hfull, hbytes]
  · simp [hfull, hrest]

theorem decodeLoop_spec (hroom : out.length + bytes.length ≤ maxsize) :
    decodeLoop maxsize (encode bytes) [] out = some (out ++ bytes) := by
  have hend : ∀ rest, decodeLoop maxsize [] [] rest = some rest := fun rest => rfl
  induction bytes using encode.induct generalizing out with
  | case1 => simp [encode, hend]
  | case2 x =>
    have hgroup : decodeLoop maxsize (encode [x] ++ []) [] out = some (out ++ [x] ++ []) := by
      apply decodeLoop_group rfl (decodeBlock_one x hroom)
      · exact hroom
      · rw [hend, append_nil]
    simpa using hgroup
  | case3 x y =>
    have hgroup : decodeLoop maxsize (encode [x, y] ++ []) [] out = some (out ++ [x, y] ++ []) := by
      apply decodeLoop_group rfl (decodeBlock_two x y hroom)
      · exact hroom
      · rw [hend, append_nil]
    simpa using hgroup
  | case4 x y z bytes ih =>
    simp only [length_cons] at hroom
    have hencode : encode (x :: y :: z :: bytes) = encode [x, y, z] ++ encode bytes :=
      encode_append [x, y, z] (Nat.dvd_refl 3) bytes
    have hthree : out.length + [x, y, z].length + bytes.length ≤ maxsize := by
      simp only [length_cons, length_nil]
      omega
    have hrest : decodeLoop maxsize (encode bytes) [] (out ++ [x, y, z]) =
        some (out ++ [x, y, z] ++ bytes) := by
      apply ih
      rw [length_append]
      exact hthree
    rw [hencode, decodeLoop_group rfl (decodeBlock_three x y z (by omega)) hthree hrest]
    simp

theorem zbxBase64Decode_spec (hpos : 0 < maxsize) (hroom : bytes.length ≤ maxsize) :
    zbxBase64Decode (encode bytes) maxsize = some bytes := by
  rw [zbxBase64Decode, if_pos hpos, decodeLoop_spec bytes (by simpa using hroom), nil_append]

/-- Bytes whose encoding has a size that is an `int` are encoded as the standard has it and decoded
to themselves; exactly the empty text and the texts of full groups are valid. -/
theorem base64_round_trip (fresh : ℕ → UInt8) (bytes : List UInt8)
    (hsize : (bytes.length + 2) / 3 * 4 + 1 < 2 ^ 31) :
    zbxBase64EncodeDyn fresh bytes = some (encode bytes ++ [0]) ∧ (∀ c ∈ encode bytes, c ≠ 0) ∧
      zbxBase64Validate (encode bytes) = some true ∧
      (∀ maxsize, 0 < maxsize → bytes.length ≤ maxsize →
        zbxBase64Decode (encode bytes) maxsize = some bytes) ∧
      ∀ text, (∀ c ∈ text, c ≠ 0) → ∃ valid, zbxBase64Validate text = some valid ∧
        (valid = true ↔ text = [] ∨ Text text) := by
  have hvalid : ∀ text : List UInt8, (∀ c ∈ text, c ≠ 0) →
      ∃ valid, zbxBase64Validate text = some valid ∧ (valid = true ↔ text = [] ∨ Text text) := by
    intro text htext
    refine ⟨_, zbxBase64Validate_spec htext, ?_⟩
    rw [Bool.or_eq_true, decide_eq_true_eq, isText_iff]
  have hchars : ∀ c ∈ encode bytes, c ≠ 0 := fun c hc => (isBase64_encode bytes c hc).2
  refine ⟨zbxBase64EncodeDyn_spec fresh bytes hsize, hchars, ?_, ?_, hvalid⟩
  · obtain ⟨valid, hvalidate, hiff⟩ := hvalid (encode bytes) hchars
    rw [hvalidate, Option.some.injEq, hiff]
    by_cases hempty : bytes = []
    · left
      rw [hempty]
      rfl
    · right
      exact encode_text hempty
  · intro maxsize hpos hroom
    exact zbxBase64Decode_spec bytes hpos hroom

theorem base64_round_trip_five :
    zbxBase64EncodeDyn (fun _ => 1) [70, 111, 111, 0, 255] =
        some (encode [70, 111, 111, 0, 255] ++ [0]) ∧
      (∀ c ∈ encode [70, 111, 111, 0, 255], c ≠ 0) ∧
      zbxBase64Validate (encode [70, 111, 111, 0, 255]) = some true ∧
      (∀ maxsize, 0 < maxsize → 5 ≤ maxsize →
        zbxBase64Decode (encode [70, 111, 111, 0, 255]) maxsize = some [70, 111, 111, 0, 255]) ∧
      ∀ text, (∀ c ∈ text, c ≠ 0) → ∃ valid, zbxBase64Validate text = some valid ∧
        (valid = true ↔ text = [] ∨ Text text) :=
  base64_round_trip (fun _ => 1) [70, 111, 111, 0, 255] (by decide)

/-- The empty text is valid although there is no group in it, and the size for a long text is no
`int`. -/
theorem base64_outside_grammar :
    zbxBase64Validate [] = some true ∧ ¬Text [] ∧
      zbxBase64EncodeDyn (fun _ => 0) (replicate 1610612734 0) = none := by
  refine ⟨rfl, ?_, ?_⟩
  · intro htext
    cases htext
  · rw [zbxBase64EncodeDyn, length_replicate]
    exact if_pos (by omega)

end Zabbix.Crypto
