import Mathlib.Data.List.DropRight
import Zabbix.Foundation.JsonGrammar
import Zabbix.Json.Parser

/-!
# What the JSON parser accepts

The parser against the grammar.
-/

namespace Zabbix.Json

open Option List Zabbix.Expr Zabbix.JsonGrammar Computability

variable {start ptr rest w : List Char} {n left : ℕ}
variable {α β : Type} {c : Char} {bytes text s item items s' : List Char} {fuel : ℕ} {D : Dialect}
  {x : Except String α} {y : β}

def Sound (parse : List Char → Except String ℕ) (L : Language Char) : Prop :=
  ∀ start n, parse start = .ok n → ∃ rest, Reads L start rest ∧ n = start.length - rest.length

theorem ok_of_map {f : α → β} (h : x.map f = .ok y) : ∃ a, x = .ok a ∧ f a = y := by
  cases x with
  | error => cases h
  | ok a => exact ⟨a, rfl, Except.ok.inj h⟩

theorem ok_of_bind {f : α → Except String β} (h : x.bind f = .ok y) :
    ∃ a, x = .ok a ∧ f a = .ok y := by
  cases x with
  | error => cases h
  | ok a => exact ⟨a, rfl, h⟩

theorem guard_eq_ok {c : Prop} [Decidable c] {y : α} {message : String}
    {fragment : Option (List Char)} :
    (if c then jsonError message fragment else x) = .ok y ↔ ¬c ∧ x = .ok y := by
  split_ifs with hc
  · exact ⟨nofun, fun h => absurd hc h.1⟩
  · exact ⟨fun h => ⟨hc, h⟩, fun h => h.2⟩

theorem eq_cons_of_charAt (hc : c ≠ '\x00') (h : charAt ptr = c) : ptr = c :: ptr.tail := by
  cases ptr with
  | nil => exact absurd h.symm hc
  | cons d ptr => exact congrArg (· :: ptr) h

theorem reads_charAt (hc : c ≠ '\x00') (h : charAt ptr = c) : Reads (single c) ptr ptr.tail := by
  rw [eq_cons_of_charAt hc h]
  exact reads_single c ptr.tail

theorem reads_oneOf_charAt {p : Char → Bool} (hzero : p '\x00' = false) (h : p (charAt ptr)) :
    Reads (oneOf p) ptr ptr.tail := by
  cases ptr with
  | nil => exact absurd h (by rw [show charAt [] = '\x00' from rfl, hzero]; nofun)
  | cons c ptr => exact reads_oneOf h ptr

theorem reads_skipWhitespace (src : List Char) : Reads ws src (skipWhitespace src) :=
  reads_dropWhile isWhitespace src

theorem reads_digits (src : List Char) : Reads digits src (src.dropWhile isdigit) :=
  reads_dropWhile isdigit src

theorem char_le_iff {d : Char} : c ≤ d ↔ c.toNat ≤ d.toNat := by
  rw [Char.le_def, UInt32.le_iff_toNat_le, Char.toNat_val, Char.toNat_val]

theorem zbxHex2num_eq (hc : isHex c) : zbxHex2num c = hexDigit c := by
  simp only [isHex, isDigit, Bool.or_eq_true, Bool.and_eq_true, decide_eq_true_eq,
    char_le_iff] at hc
  simp only [zbxHex2num, hexDigit, isDigit, Bool.and_eq_true, decide_eq_true_eq, char_le_iff]
  have hcodes : '0'.toNat = 48 ∧ '9'.toNat = 57 ∧ 'a'.toNat = 97 ∧ 'f'.toNat = 102 ∧
      'A'.toNat = 65 ∧ 'F'.toNat = 70 := by decide
  split_ifs <;> omega

theorem validHex_cases (h : zbxIsValidJsonHex ptr) :
    ∃ a b c d, isHex a ∧ isHex b ∧ isHex c ∧ isHex d ∧ ptr = [a, b, c, d] ++ ptr.drop 4 := by
  have hhex : ∀ i < 4, isHex (charAt (ptr.drop i)) := by
    intro i hi
    exact List.all_eq_true.mp h i (mem_range.mpr hi)
  have hend : ¬isHex '\x00' := by decide
  match ptr with
  | [] => exact absurd (hhex 0 (by omega)) hend
  | [_] => exact absurd (hhex 1 (by omega)) hend
  | [_, _] => exact absurd (hhex 2 (by omega)) hend
  | [_, _, _] => exact absurd (hhex 3 (by omega)) hend
  | a :: b :: c :: d :: ptr =>
    exact ⟨a, b, c, d, hhex 0 (by omega), hhex 1 (by omega), hhex 2 (by omega),
      hhex 3 (by omega), rfl⟩

theorem mem_hex4 : w ∈ hex4 ↔
    ∃ a b c d, isHex a ∧ isHex b ∧ isHex c ∧ isHex d ∧ w = [a, b, c, d] := by
  constructor
  · rintro ⟨_, ⟨_, ⟨_, ⟨a, ha, rfl⟩, _, ⟨b, hb, rfl⟩, rfl⟩, _, ⟨c, hc, rfl⟩, rfl⟩,
      _, ⟨d, hd, rfl⟩, rfl⟩
    exact ⟨a, b, c, d, ha, hb, hc, hd, rfl⟩
  · rintro ⟨a, b, c, d, ha, hb, hc, hd, rfl⟩
    exact ⟨_, ⟨_, ⟨_, ⟨a, ha, rfl⟩, _, ⟨b, hb, rfl⟩, rfl⟩, _, ⟨c, hc, rfl⟩, rfl⟩,
      _, ⟨d, hd, rfl⟩, rfl⟩

theorem hexNum_append (hw : w ∈ hex4) (rest : List Char) : hexNum (w ++ rest) = hexNumber w := by
  obtain ⟨a, b, c, d, ha, hb, hc, hd, rfl⟩ := mem_hex4.mp hw
  simp only [hexNum, hexNumber, charAt, cons_append, nil_append, drop_succ_cons,
    drop_zero, headD_cons, foldl_cons, foldl_nil, zbxHex2num_eq ha,
    zbxHex2num_eq hb, zbxHex2num_eq hc, zbxHex2num_eq hd, Nat.shiftLeft_eq]
  omega

theorem reads_hex4 {p : ℕ → Prop} (h : zbxIsValidJsonHex ptr) (hp : p (hexNum ptr)) :
    Reads (codeUnit p) ptr (ptr.drop 4) := by
  obtain ⟨a, b, c, d, ha, hb, hc, hd, hptr⟩ := validHex_cases h
  have hmem : [a, b, c, d] ∈ hex4 := mem_hex4.mpr ⟨a, b, c, d, ha, hb, hc, hd, rfl⟩
  refine ⟨[a, b, c, d], ⟨hmem, ?_⟩, hptr.symm⟩
  rw [hptr, hexNum_append hmem] at hp
  exact hp

theorem decodeLowSurrogate_reads {num : ℕ} (h : decodeLowSurrogate num ptr = some (bytes, rest)) :
    Reads (single '\\' * single 'u' * codeUnit fun n => 0xdc00 ≤ n ∧ n ≤ 0xdfff) ptr rest := by
  obtain ⟨hescape, h⟩ := ite_none_left_eq_some.mp h
  obtain ⟨hlow, h⟩ := ite_none_left_eq_some.mp h
  obtain ⟨-, rfl⟩ := Prod.ext_iff.mp (Option.some.inj h)
  simp only [not_or, not_not, Bool.not_eq_true', Bool.not_eq_false] at hescape
  obtain ⟨hslash, hu, hhex⟩ := hescape
  refine ((reads_charAt (by decide) hslash).mul (reads_charAt (by decide) hu)).mul ?_
  have hunit := reads_hex4 hhex (p := fun n => 0xdc00 ≤ n ∧ n ≤ 0xdfff) (by omega)
  simpa only [drop_drop, drop_succ_cons, ← drop_one] using hunit

theorem decodeUnicode_reads (h : decodeUnicode ptr = some (bytes, rest)) :
    Reads codePoint ptr rest := by
  obtain ⟨hhex, h⟩ := ite_none_left_eq_some.mp h
  rw [Bool.not_eq_true', Bool.not_eq_false] at hhex
  have hbasic : hexNum ptr < 0xd800 ∨ 0xdfff < hexNum ptr → Reads codePoint ptr (ptr.drop 4) :=
    fun hnum => (reads_hex4 hhex hnum).add_left
  have hsnd : ∀ {b : List Char}, some (b, ptr.drop 4) = some (bytes, rest) → ptr.drop 4 = rest :=
    fun hb => congrArg Prod.snd (Option.some.inj hb)
  simp only at h
  split_ifs at h with h1 h2 h3 h4
  · exact hsnd h ▸ hbasic (by omega)
  · exact hsnd h ▸ hbasic (by omega)
  · exact hsnd h ▸ hbasic (by omega)
  · have hhigh := reads_hex4 hhex (p := fun n => 0xd800 ≤ n ∧ n ≤ 0xdbff) h4
    rw [codePoint, mul_assoc, mul_assoc]
    rw [← mul_assoc (single '\\')]
    exact (hhigh.mul (decodeLowSurrogate_reads h)).add_right

theorem decodeCharacter_u (hu : charAt ptr = 'u') :
    zbxJsonDecodeCharacter ptr = decodeUnicode ptr.tail := by
  rw [zbxJsonDecodeCharacter, hu]
  rfl

theorem shortEscape_isSome (c : Char) : (shortEscape c).isSome = isShortEscape c := by
  unfold shortEscape
  split <;> simp_all [isShortEscape]

def pairedSurrogates (fraction : Language Char) : Dialect where
  unicode := codePoint
  fraction := fraction

variable {F : Language Char}

theorem escapeStep_reads (hslash : charAt ptr = '\\') (h : escapeStep ptr = .ok rest) :
    Reads (char (pairedSurrogates F)) ptr rest := by
  refine ((reads_charAt (by decide) hslash).mul ?_).add_right
  obtain ⟨-, h⟩ := guard_eq_ok.mp h
  by_cases hu : charAt ptr.tail = 'u'
  · rw [if_pos hu, decodeCharacter_u hu] at h
    refine ((reads_charAt (by decide) hu).mul ?_).add_right
    split at h
    · next hdecode =>
      cases h
      exact decodeUnicode_reads hdecode
    · cases h
  · rw [if_neg hu] at h
    obtain ⟨hshort, h⟩ := guard_eq_ok.mp h
    obtain ⟨-, h⟩ := guard_eq_ok.mp h
    cases h
    rw [← not_isSome, Bool.not_eq_true', Bool.not_eq_false, shortEscape_isSome] at hshort
    exact (reads_oneOf_charAt rfl hshort).add_left

theorem isUnescaped_iff : isUnescaped c ↔ ¬c ≤ '\x1f' ∧ c ≠ '"' ∧ c ≠ '\\' := by
  have hcodes : ' '.toNat = 32 ∧ '\x1f'.toNat = 31 := by decide
  have hle : ' ' ≤ c ↔ ¬c ≤ '\x1f' := by
    rw [char_le_iff, char_le_iff]
    omega
  simp [isUnescaped, hle, and_assoc]

theorem stringStep_reads (hquote : charAt ptr ≠ '"') (h : stringStep ptr = .ok rest) :
    Reads (char (pairedSurrogates F)) ptr rest := by
  obtain ⟨hend, h⟩ := guard_eq_ok.mp h
  by_cases hslash : charAt ptr = '\\'
  · rw [if_pos hslash] at h
    exact escapeStep_reads hslash h
  · rw [if_neg hslash] at h
    obtain ⟨hcontrol, h⟩ := guard_eq_ok.mp h
    cases h
    have hplain := isUnescaped_iff.mpr ⟨hcontrol, hquote, hslash⟩
    exact (reads_oneOf_charAt (by decide) hplain).add_left

theorem stringEnd_reads (h : stringEnd fuel ptr = .ok rest) :
    Reads (char (pairedSurrogates F))∗ ptr rest ∧ charAt rest = '"' := by
  induction fuel generalizing ptr with
  | zero => cases h
  | succ fuel ih =>
    rw [stringEnd] at h
    split_ifs at h with hquote
    · cases h
      exact ⟨Reads.kstar_nil _ _, hquote⟩
    · obtain ⟨next, hstep, h⟩ := ok_of_bind h
      obtain ⟨hreads, hend⟩ := ih h
      exact ⟨(stringStep_reads hquote hstep).kstar_cons hreads, hend⟩

theorem sub_tail (hlen : ptr.length ≤ start.length) (hc : c ≠ '\x00') (h : charAt ptr = c) :
    start.length - ptr.length + 1 = start.length - ptr.tail.length := by
  rw [eq_cons_of_charAt hc h] at hlen ⊢
  simp only [List.length_cons, List.tail_cons] at hlen ⊢
  omega

theorem jsonParseString_sound (hquote : charAt start = '"') (h : jsonParseString start = .ok n) :
    ∃ rest, Reads (string (pairedSurrogates F)) start rest ∧ n = start.length - rest.length := by
  obtain ⟨ptr, hend, rfl⟩ := ok_of_map h
  obtain ⟨hchars, hclose⟩ := stringEnd_reads hend
  have hopen := (reads_charAt (by decide) hquote).mul hchars
  exact ⟨ptr.tail, hopen.mul (reads_charAt (by decide) hclose),
    sub_tail hopen.length_le (by decide) hclose⟩

theorem numberScan_point (digit : ℕ) (ptr : List Char) :
    numberScan true digit ptr = (ptr.dropWhile isdigit, digit) := by
  induction ptr with
  | nil => rfl
  | cons c ptr ih =>
    rw [numberScan, dropWhile_cons]
    by_cases hpoint : c = '.'
    · subst hpoint
      rfl
    · cases hdigit : isdigit c <;> simp [hpoint, ih]

theorem numberScan_eq (digit : ℕ) (ptr : List Char) :
    numberScan false digit ptr =
      (if charAt (ptr.dropWhile isdigit) = '.' then (ptr.dropWhile isdigit).tail.dropWhile isdigit
        else ptr.dropWhile isdigit,
        digit + (ptr.takeWhile isdigit).length) := by
  induction ptr generalizing digit with
  | nil => rfl
  | cons c ptr ih =>
    rw [numberScan, dropWhile_cons, takeWhile_cons]
    by_cases hpoint : c = '.'
    · subst hpoint
      exact numberScan_point digit ptr
    · cases hdigit : isdigit c
      · simp [hpoint, charAt]
      · simp [hpoint, ih, Nat.add_right_comm, Nat.add_assoc]

theorem powerScan_reads (h : powerScan ptr = .ok rest) :
    Reads ((1 + single '-' + single '+') * digits1) ptr rest := by
  obtain ⟨-, h⟩ := guard_eq_ok.mp h
  obtain ⟨-, h⟩ := guard_eq_ok.mp h
  obtain ⟨hdigit, h⟩ := guard_eq_ok.mp h
  rw [Bool.not_eq_true', Bool.not_eq_false] at hdigit
  cases h
  refine Reads.mul ?_ ((reads_oneOf_charAt (p := isDigit) rfl hdigit).mul (reads_digits _))
  split_ifs with hsigned
  · rcases hsigned with hplus | hminus
    · exact (reads_charAt (by decide) hplus).add_right
    · exact (reads_charAt (by decide) hminus).add_right.add_left
  · exact (Reads.refl ptr).add_left.add_left

theorem reads_int (hdigits : (ptr.takeWhile isdigit).length ≠ 0)
    (hzero : ¬(charAt ptr = '0' ∧ 1 < (ptr.takeWhile isdigit).length)) :
    Reads int ptr (ptr.dropWhile isdigit) := by
  cases ptr with
  | nil => exact absurd rfl hdigits
  | cons c ptr =>
    rw [takeWhile_cons] at hdigits hzero
    cases hc : isdigit c
    · rw [hc] at hdigits
      exact absurd rfl hdigits
    · rw [hc] at hzero
      rw [dropWhile_cons_of_pos hc]
      by_cases h0 : c = '0'
      · subst h0
        have hnone : ptr.takeWhile isdigit = [] := by
          rw [← length_eq_zero_iff]
          simp only [charAt, headD_cons, true_and, if_true, length_cons] at hzero
          omega
        have hself := takeWhile_append_dropWhile (p := isdigit) (l := ptr)
        rw [hnone, nil_append] at hself
        rw [hself]
        exact (reads_single '0' ptr).add_left
      · refine Reads.add_right ((reads_oneOf ?_ ptr).mul (reads_digits ptr))
        simpa [isDigit] using ⟨by simpa [isdigit] using hc, h0⟩

theorem jsonParseNumber_sound : Sound jsonParseNumber (number (pairedSurrogates digits)) := by
  intro start n h
  have hsign : Reads (1 + single '-') start (if charAt start = '-' then start.tail else start) := by
    split_ifs with hminus
    · exact (reads_charAt (by decide) hminus).add_right
    · exact (Reads.refl start).add_left
  unfold jsonParseNumber at h
  generalize (if charAt start = '-' then start.tail else start) = ptr at h hsign
  dsimp only at h
  rw [numberScan_eq] at h
  obtain ⟨hdigits, h⟩ := guard_eq_ok.mp h
  obtain ⟨hzero, h⟩ := guard_eq_ok.mp h
  rw [Nat.zero_add] at hdigits hzero
  have hint := hsign.mul (reads_int hdigits hzero)
  generalize ptr.dropWhile isdigit = point at h hint
  have hpoint : Reads (1 + single '.' * digits) point
      (if charAt point = '.' then point.tail.dropWhile isdigit else point) := by
    split_ifs with hdot
    · exact ((reads_charAt (by decide) hdot).mul (reads_digits _)).add_right
    · exact (Reads.refl point).add_left
  have hfraction := hint.mul hpoint
  generalize (if charAt point = '.' then point.tail.dropWhile isdigit else point) = power
    at h hfraction
  dsimp only at h
  split_ifs at h with he
  · obtain ⟨rest, hpower, rfl⟩ := ok_of_map h
    refine ⟨rest, hfraction.mul (Reads.add_right ?_), rfl⟩
    rw [exponent, mul_assoc]
    refine Reads.mul ?_ (powerScan_reads hpower)
    rcases he with he | he
    · exact (reads_charAt (by decide) he).add_left
    · exact (reads_charAt (by decide) he).add_right
  · cases h
    exact ⟨power, hfraction.mul (Reads.refl power).add_left, rfl⟩

theorem jsonParseLiteral_sound (htext : text ∈ literals) (h : jsonParseLiteral start text = .ok n) :
    ∃ rest, Reads literals start rest ∧ n = start.length - rest.length := by
  unfold jsonParseLiteral at h
  split_ifs at h with hmatch
  · obtain ⟨rest, rfl⟩ := hmatch
    cases h
    exact ⟨rest, ⟨text, htext, rfl⟩, by simp⟩
  · cases h

section

variable {parseValue : List Char → Except String ℕ} {V : Language Char}

theorem Sound.reads {L : Language Char} (hsound : Sound parseValue L)
    (h : parseValue start = .ok n) : Reads L start (start.drop n) := by
  obtain ⟨rest, hreads, rfl⟩ := hsound start n h
  rwa [hreads.drop_sub]

theorem ws_mul_ws : ws * ws = ws := kstar_mul_kstar _

variable (hvalue : Sound parseValue (ws * V))

include hvalue

theorem arrayElements_reads (h : arrayElements parseValue fuel ptr = .ok rest) :
    Reads (separated ',' (ws * V * ws)) ptr rest := by
  induction fuel generalizing ptr with
  | zero => cases h
  | succ fuel ih =>
    obtain ⟨len, hlen, h⟩ := ok_of_bind h
    have hitem := (hvalue.reads hlen).mul (reads_skipWhitespace _)
    dsimp only at h
    split_ifs at h with hcomma
    · cases h
      exact reads_separated_last hitem
    · rw [eq_cons_of_charAt (by decide) (not_not.mp hcomma)] at hitem
      exact reads_separated_cons hitem (ih h)

theorem jsonParseArray_sound (hopen : charAt start = '[')
    (h : jsonParseArray parseValue start = .ok n) :
    ∃ rest, Reads (array V) start rest ∧ n = start.length - rest.length := by
  have hbracket := reads_charAt (by decide) hopen
  unfold jsonParseArray at h
  dsimp only at h
  split_ifs at h with hempty
  · have hin := hbracket.mul ((reads_skipWhitespace _).add_left (M := separated ',' (ws * V * ws)))
    cases h
    exact ⟨_, hin.mul (reads_charAt (by decide) hempty), sub_tail hin.length_le (by decide) hempty⟩
  · obtain ⟨last, helements, h⟩ := ok_of_bind h
    obtain ⟨hclose, h⟩ := guard_eq_ok.mp h
    rw [not_not] at hclose
    cases h
    have hitems := (reads_skipWhitespace _).mul (arrayElements_reads hvalue helements)
    rw [separated, ← mul_assoc, ← mul_assoc, ← mul_assoc, ws_mul_ws] at hitems
    have hin := hbracket.mul (hitems.add_right (L := ws))
    exact ⟨_, hin.mul (reads_charAt (by decide) hclose), sub_tail hin.length_le (by decide) hclose⟩

theorem objectMember_reads (hws : Reads ws start ptr) (h : objectMember parseValue ptr = .ok rest) :
    Reads (member (pairedSurrogates F) V) start rest := by
  obtain ⟨hquote, h⟩ := guard_eq_ok.mp h
  obtain ⟨len, hlen, h⟩ := ok_of_bind h
  obtain ⟨hcolon, h⟩ := guard_eq_ok.mp h
  obtain ⟨len', hlen', rfl⟩ := ok_of_map h
  obtain ⟨behind, hname, rfl⟩ := jsonParseString_sound (F := F) (not_not.mp hquote) hlen
  rw [hname.drop_sub] at hcolon hlen'
  have hkey := ((hws.mul hname).mul (reads_skipWhitespace _)).mul
    (reads_charAt (by decide) (not_not.mp hcolon))
  have hpair := (hkey.mul (hvalue.reads hlen')).mul (reads_skipWhitespace _)
  rw [← mul_assoc] at hpair
  rwa [hname.drop_sub]

theorem objectMembers_reads (hws : Reads ws start ptr)
    (h : objectMembers parseValue fuel ptr = .ok rest) :
    Reads (separated ',' (member (pairedSurrogates F) V)) start rest := by
  induction fuel generalizing start ptr with
  | zero => cases h
  | succ fuel ih =>
    obtain ⟨behind, hmember, h⟩ := ok_of_bind h
    have hitem := objectMember_reads (F := F) hvalue hws hmember
    split_ifs at h with hcomma
    · cases h
      exact reads_separated_last hitem
    · rw [eq_cons_of_charAt (by decide) (not_not.mp hcomma)] at hitem
      exact reads_separated_cons hitem (ih (reads_skipWhitespace _) h)

omit hvalue

theorem skipWhitespace_of_charAt (hc : c ≠ '\x00') (hws : isWhitespace c = false)
    (h : charAt start = c) : skipWhitespace start = start := by
  rw [eq_cons_of_charAt hc h]
  exact dropWhile_cons_of_neg (by simp [hws])

theorem jsonParseObject_sound (hvalue : Sound parseValue (ws * V))
    (hopen : charAt start = '\x7b') (h : jsonParseObject parseValue start = .ok n) :
    ∃ rest, Reads (object (pairedSurrogates F) V) start rest ∧ n = start.length - rest.length := by
  have hbracket := reads_charAt (by decide) hopen
  unfold jsonParseObject at h
  rw [skipWhitespace_of_charAt (by decide) rfl hopen] at h
  dsimp only at h
  split_ifs at h with hempty
  · have hin := hbracket.mul ((reads_skipWhitespace _).add_left
      (M := separated ',' (member (pairedSurrogates F) V)))
    cases h
    exact ⟨_, hin.mul (reads_charAt (by decide) hempty), sub_tail hin.length_le (by decide) hempty⟩
  · obtain ⟨last, hmembers, h⟩ := ok_of_bind h
    obtain ⟨hclose, h⟩ := guard_eq_ok.mp h
    rw [not_not] at hclose
    cases h
    have hitems := objectMembers_reads (F := F) hvalue (reads_skipWhitespace _)
      hmembers
    have hin := hbracket.mul (hitems.add_right (L := ws))
    exact ⟨_, hin.mul (reads_charAt (by decide) hclose), sub_tail hin.length_le (by decide) hclose⟩

end

abbrev lenient : Dialect := pairedSurrogates digits

theorem parseValueAt_sound (left : ℕ) : Sound (parseValueAt left) (ws * value lenient left) := by
  induction left with
  | zero => nofun
  | succ left ih =>
    intro start n h
    obtain ⟨len, hlen, rfl⟩ := ok_of_map h
    have hws := reads_skipWhitespace start
    have hread : ∃ rest, Reads (value lenient (left + 1)) (skipWhitespace start) rest ∧
        len = (skipWhitespace start).length - rest.length := by
      split at hlen
      · cases hlen
      · next hquote =>
        obtain ⟨rest, hread, hn⟩ := jsonParseString_sound hquote hlen
        exact ⟨rest, hread.add_left.add_left.add_left, hn⟩
      · next hopen =>
        obtain ⟨rest, hread, hn⟩ := jsonParseObject_sound ih hopen hlen
        exact ⟨rest, hread.add_right.add_right, hn⟩
      · next hopen =>
        obtain ⟨rest, hread, hn⟩ := jsonParseArray_sound ih hopen hlen
        exact ⟨rest, hread.add_left.add_right, hn⟩
      · obtain ⟨rest, hread, hn⟩ := jsonParseLiteral_sound (.inl rfl) hlen
        exact ⟨rest, hread.add_right.add_left, hn⟩
      · obtain ⟨rest, hread, hn⟩ := jsonParseLiteral_sound (.inr (.inl rfl)) hlen
        exact ⟨rest, hread.add_right.add_left, hn⟩
      · obtain ⟨rest, hread, hn⟩ := jsonParseLiteral_sound (.inr (.inr rfl)) hlen
        exact ⟨rest, hread.add_right.add_left, hn⟩
      · split_ifs at hlen with hnumber
        · obtain ⟨rest, hread, hn⟩ := jsonParseNumber_sound _ _ hlen
          exact ⟨rest, hread.add_right.add_left.add_left, hn⟩
        · cases hlen
    obtain ⟨rest, hread, rfl⟩ := hread
    refine ⟨rest, hws.mul hread, ?_⟩
    have := hws.length_le
    have := hread.length_le
    omega

theorem zbxJsonValidate_sound (h : zbxJsonValidate start = .ok n) :
    ∃ rest, Reads (container lenient (value lenient (zbxMaxJsonDepth + 1))) (skipWhitespace start)
      rest ∧ n = (skipWhitespace start).length - rest.length ∧
        charAt (skipWhitespace rest) = '\x00' := by
  obtain ⟨len, hlen, h⟩ := ok_of_bind h
  obtain ⟨hend, h⟩ := guard_eq_ok.mp h
  cases h
  split_ifs at hlen with hobject harray
  · obtain ⟨rest, hread, hn⟩ :=
      jsonParseObject_sound (parseValueAt_sound (zbxMaxJsonDepth + 1)) hobject hlen
    rw [hn, hread.drop_sub, not_not] at hend
    exact ⟨rest, hread.add_right, hn, hend⟩
  · obtain ⟨rest, hread, hn⟩ :=
      jsonParseArray_sound (parseValueAt_sound (zbxMaxJsonDepth + 1)) harray hlen
    rw [hn, hread.drop_sub, not_not] at hend
    exact ⟨rest, hread.add_left, hn, hend⟩
  · cases hlen

theorem validHex_append (hw : w ∈ hex4) (rest : List Char) : zbxIsValidJsonHex (w ++ rest) := by
  obtain ⟨a, b, c, d, ha, hb, hc, hd, rfl⟩ := mem_hex4.mp hw
  refine List.all_eq_true.mpr fun i hi => ?_
  match i, mem_range.mp hi with
  | 0, _ => exact ha
  | 1, _ => exact hb
  | 2, _ => exact hc
  | 3, _ => exact hd

theorem drop_hex4 (hw : w ∈ hex4) (rest : List Char) : (w ++ rest).drop 4 = rest := by
  obtain ⟨a, b, c, d, -, -, -, -, rfl⟩ := mem_hex4.mp hw
  rfl

theorem decodeLowSurrogate_complete (num : ℕ) (hw : w ∈ codeUnit fun n => 0xdc00 ≤ n ∧ n ≤ 0xdfff) :
    ∃ bytes, ∀ rest, decodeLowSurrogate num ('\\' :: 'u' :: (w ++ rest)) = some (bytes, rest) := by
  obtain ⟨hhex, hlow⟩ := hw
  refine ⟨utf8Four (0x010000 + ((num &&& 0x03ff) <<< 10) + (hexNumber w &&& 0x03ff)),
    fun rest => ?_⟩
  have hnum := hexNum_append hhex rest
  have hdrop : ('\\' :: 'u' :: (w ++ rest)).drop 6 = rest := drop_hex4 hhex rest
  have htwo : ('\\' :: 'u' :: (w ++ rest)).drop 2 = w ++ rest := rfl
  rw [decodeLowSurrogate, if_neg (by simp [charAt, validHex_append hhex rest])]
  simp only [htwo, hnum, hdrop]
  rw [if_neg (by omega)]

theorem decodeUnicode_complete (hw : w ∈ codePoint) :
    ∃ bytes, ∀ rest, decodeUnicode (w ++ rest) = some (bytes, rest) := by
  rcases hw with ⟨hhex, hnum⟩ |
    ⟨_, ⟨_, ⟨high, ⟨hhex, hnum⟩, _, rfl, rfl⟩, _, rfl, rfl⟩, low, hlow, rfl⟩
  · refine ⟨if hexNumber w ≤ 0x007f then [Char.ofNat (hexNumber w)]
      else if hexNumber w ≤ 0x07ff then utf8Two (hexNumber w)
      else utf8Three (hexNumber w), fun rest => ?_⟩
    have hn := hexNum_append hhex rest
    rw [decodeUnicode, if_neg (by simp [validHex_append hhex rest])]
    simp only [hn, drop_hex4 hhex rest]
    split_ifs
    · rfl
    · rfl
    · rfl
    · omega
    · omega
  · obtain ⟨bytes, hbytes⟩ := decodeLowSurrogate_complete (hexNumber high) hlow
    refine ⟨bytes, fun rest => ?_⟩
    have hn := hexNum_append hhex ('\\' :: 'u' :: (low ++ rest))
    have happend : high ++ ['\\'] ++ ['u'] ++ low ++ rest =
        high ++ '\\' :: 'u' :: (low ++ rest) := by
      simp
    rw [happend, decodeUnicode, if_neg (by simp [validHex_append hhex])]
    simp only [hn, drop_hex4 hhex]
    rw [if_neg (by omega), if_neg (by omega), if_neg (by omega), if_pos hnum]
    exact hbytes rest

theorem stringStep_complete (hw : w ∈ char (pairedSurrogates F)) (rest : List Char) :
    charAt (w ++ rest) ≠ '"' ∧ stringStep (w ++ rest) = .ok rest := by
  rcases hw with ⟨c, hc, rfl⟩ | ⟨_, rfl, _, ⟨c, hc, rfl⟩ | ⟨_, rfl, code, hcode, rfl⟩, rfl⟩
  · obtain ⟨hcontrol, hquote, hslash⟩ := isUnescaped_iff.mp hc
    refine ⟨hquote, ?_⟩
    have hzero : c ≠ '\x00' := by
      rintro rfl
      exact hcontrol (by decide)
    simp [stringStep, charAt, hzero, hslash, hcontrol]
  · refine ⟨by simp [charAt], ?_⟩
    have hne : c ≠ '\x00' ∧ c ≠ 'u' ∧ ¬c ≤ '\x1f' := by
      simp only [isShortEscape, Bool.or_eq_true, decide_eq_true_eq] at hc
      rcases hc with ((((((rfl | rfl) | rfl) | rfl) | rfl) | rfl) | rfl) | rfl <;> decide
    obtain ⟨hzero, hu, hcontrol⟩ := hne
    have hshort : shortEscape c ≠ none :=
      Option.isSome_iff_ne_none.mp ((shortEscape_isSome c).trans hc)
    simp [stringStep, escapeStep, charAt, hzero, hu, hcontrol, hshort]
  · refine ⟨by simp [charAt], ?_⟩
    obtain ⟨bytes, hdecode⟩ := decodeUnicode_complete hcode
    have hu : zbxJsonDecodeCharacter ('u' :: (code ++ rest)) = some (bytes, rest) :=
      (decodeCharacter_u rfl).trans (hdecode rest)
    simp [stringStep, escapeStep, charAt, hu]

theorem char_ne_nil (hw : w ∈ char D) : 0 < w.length := by
  rcases hw with ⟨c, -, rfl⟩ | ⟨_, rfl, _, -, rfl⟩ <;> simp

theorem stringEnd_complete (hw : w ∈ (char (pairedSurrogates F))∗) (rest : List Char)
    (hfuel : w.length < fuel) :
    stringEnd fuel (w ++ '"' :: rest) = .ok ('"' :: rest) := by
  obtain ⟨parts, rfl, hparts⟩ := Language.mem_kstar.mp hw
  clear hw
  induction parts generalizing fuel with
  | nil =>
    obtain ⟨fuel, rfl⟩ := Nat.exists_eq_succ_of_ne_zero (by omega : fuel ≠ 0)
    simp [stringEnd, charAt]
  | cons part parts ih =>
    obtain ⟨fuel, rfl⟩ := Nat.exists_eq_succ_of_ne_zero (by omega : fuel ≠ 0)
    have hpart := hparts part List.mem_cons_self
    obtain ⟨hquote, hstep⟩ := stringStep_complete hpart (parts.flatten ++ '"' :: rest)
    rw [flatten_cons, append_assoc, stringEnd, if_neg hquote, hstep]
    have hlen := char_ne_nil hpart
    rw [flatten_cons, length_append] at hfuel
    exact ih (fun x hx => hparts x (mem_cons_of_mem _ hx)) (by omega)

theorem jsonParseString_complete (hw : w ∈ string (pairedSurrogates F))
    (rest : List Char) : jsonParseString (w ++ rest) = .ok w.length := by
  obtain ⟨_, ⟨_, rfl, chars, hchars, rfl⟩, _, rfl, rfl⟩ := hw
  have htext : ['"'] ++ chars ++ ['"'] ++ rest = '"' :: (chars ++ '"' :: rest) := by simp
  rw [jsonParseString, htext, tail_cons, stringEnd_complete hchars rest (by simp; omega)]
  simp only [Except.map, length_cons, length_append, length_nil]
  congr 1
  omega

theorem charAt_string (hw : w ∈ string D) (rest : List Char) : charAt (w ++ rest) = '"' := by
  obtain ⟨_, ⟨_, rfl, chars, -, rfl⟩, _, rfl, rfl⟩ := hw
  simp [charAt]

def Ends (rest : List Char) : Prop :=
  isdigit (charAt rest) = false ∧ charAt rest ≠ '.' ∧ charAt rest ≠ 'e' ∧ charAt rest ≠ 'E'

theorem digits_scan (hw : w ∈ digits) (hrest : isdigit (charAt rest) = false) :
    (w ++ rest).takeWhile isdigit = w ∧ (w ++ rest).dropWhile isdigit = rest := by
  have hdrop : (w ++ rest).dropWhile isdigit = rest := by
    refine dropWhile_append_of_mem hw ?_
    intro c hc
    rw [charAt, List.headD_eq_head?_getD, Option.mem_def.mp hc] at hrest
    exact hrest
  refine ⟨?_, hdrop⟩
  have hsplit := List.takeWhile_append_dropWhile (p := isdigit) (l := w ++ rest)
  rw [hdrop] at hsplit
  exact List.append_cancel_right hsplit

theorem int_digits (hw : w ∈ int) : w ∈ digits ∧ w ≠ [] ∧ (charAt w = '0' → w.length = 1) := by
  rcases hw with rfl | ⟨_, ⟨c, hc, rfl⟩, ds, hds, rfl⟩
  · exact ⟨mem_kstar_oneOf.mpr (List.forall_mem_cons.mpr ⟨rfl, nofun⟩), by simp, fun _ => rfl⟩
  · simp only [Bool.and_eq_true, decide_eq_true_eq] at hc
    refine ⟨mem_kstar_oneOf.mpr ?_, by simp, fun h => absurd h hc.2⟩
    rintro d (_ | ⟨_, hd⟩)
    · exact hc.1
    · exact mem_kstar_oneOf.mp hds d hd

theorem powerScan_complete (hw : w ∈ (1 + single '-' + single '+') * digits1)
    (hrest : isdigit (charAt rest) = false) : powerScan (w ++ rest) = .ok rest := by
  obtain ⟨sign, hsign, _, ⟨_, ⟨c, hc, rfl⟩, ds, hds, rfl⟩, rfl⟩ := hw
  have hdigits := (digits_scan hds hrest).2
  have hne : c ≠ '\x00' ∧ c ≠ '+' ∧ c ≠ '-' := by
    refine ⟨?_, ?_, ?_⟩ <;> rintro rfl <;> exact absurd hc (by decide)
  obtain ⟨hzero, hplus, hminus⟩ := hne
  have hdigit : isdigit c = true := hc
  rcases hsign with (rfl | rfl) | rfl
  · simp [powerScan, charAt, hzero, hplus, hminus, hdigit, hdigits]
  · simp [powerScan, charAt, hzero, hdigit, hdigits]
  · simp [powerScan, charAt, hzero, hdigit, hdigits]

theorem power_head (hw : w ∈ 1 + exponent) (hrest : Ends rest) :
    isdigit (charAt (w ++ rest)) = false ∧ charAt (w ++ rest) ≠ '.' := by
  rcases hw with rfl | ⟨_, ⟨_, rfl | rfl, _, _, rfl⟩, _, _, rfl⟩
  · exact ⟨hrest.1, hrest.2.1⟩
  · exact ⟨rfl, by simp [charAt]⟩
  · exact ⟨rfl, by simp [charAt]⟩

theorem digits1_le : digits1 ≤ digits := by
  rintro _ ⟨_, ⟨c, hc, rfl⟩, w, hw, rfl⟩
  exact mem_kstar_oneOf.mpr (List.forall_mem_cons.mpr ⟨hc, mem_kstar_oneOf.mp hw⟩)

theorem fraction_scan (hF : F ≤ digits) (hw : w ∈ 1 + single '.' * F)
    (hdigit : isdigit (charAt rest) = false) (hpoint : charAt rest ≠ '.') :
    isdigit (charAt (w ++ rest)) = false ∧
      (if charAt (w ++ rest) = '.' then (w ++ rest).tail.dropWhile isdigit else w ++ rest) =
        rest := by
  rcases hw with rfl | ⟨_, rfl, ds, hds, rfl⟩
  · exact ⟨hdigit, if_neg hpoint⟩
  · exact ⟨rfl, by simp [charAt, (digits_scan (hF hds) hdigit).2]⟩

theorem power_scan (hw : w ∈ 1 + exponent) (hrest : Ends rest) (start : List Char) :
    (if charAt (w ++ rest) = 'e' ∨ charAt (w ++ rest) = 'E' then
      (powerScan (w ++ rest).tail).map fun ptr => start.length - ptr.length
    else .ok (start.length - (w ++ rest).length)) = .ok (start.length - rest.length) := by
  have hdigit := hrest.1
  rcases hw with rfl | hw
  · rw [List.nil_append, if_neg (not_or.mpr hrest.2.2)]
  · rw [exponent, mul_assoc] at hw
    obtain ⟨_, rfl | rfl, power, hpower, rfl⟩ := hw
    · simp [charAt, powerScan_complete hpower hdigit, Except.map]
    · simp [charAt, powerScan_complete hpower hdigit, Except.map]

theorem jsonParseNumber_complete (hF : F ≤ digits) (hw : w ∈ number (pairedSurrogates F))
    (hrest : Ends rest) : jsonParseNumber (w ++ rest) = .ok w.length := by
  obtain ⟨_, ⟨_, ⟨sign, hsign, whole, hwhole, rfl⟩, fraction, hfraction, rfl⟩, power, hpower,
    rfl⟩ := hw
  obtain ⟨hpdigit, hppoint⟩ := power_head hpower hrest
  obtain ⟨hfdigit, hfscan⟩ := fraction_scan hF hfraction hpdigit hppoint
  obtain ⟨hdigits, hne, hzero⟩ := int_digits hwhole
  obtain ⟨htake, hdrop⟩ := digits_scan hdigits hfdigit
  have htext : sign ++ whole ++ fraction ++ power ++ rest =
      sign ++ (whole ++ (fraction ++ (power ++ rest))) := by simp
  have hlen : (sign ++ whole ++ fraction ++ power).length =
      (sign ++ whole ++ fraction ++ power ++ rest).length - rest.length :=
    Nat.eq_sub_of_add_eq List.length_append.symm
  have hhead : charAt (whole ++ (fraction ++ (power ++ rest))) = charAt whole := by
    obtain ⟨c, cs, rfl⟩ := List.exists_cons_of_ne_nil hne
    rfl
  have hminus : charAt whole ≠ '-' := by
    obtain ⟨c, cs, rfl⟩ := List.exists_cons_of_ne_nil hne
    have hc := mem_kstar_oneOf.mp hdigits c List.mem_cons_self
    rintro rfl
    exact absurd hc (by decide)
  have hptr : (if charAt (sign ++ whole ++ fraction ++ power ++ rest) = '-' then
      (sign ++ whole ++ fraction ++ power ++ rest).tail
      else sign ++ whole ++ fraction ++ power ++ rest) =
        whole ++ (fraction ++ (power ++ rest)) := by
    rw [htext]
    rcases hsign with rfl | rfl
    · rw [List.nil_append, hhead, if_neg hminus]
    · rfl
  rw [jsonParseNumber, hptr, hlen]
  generalize sign ++ whole ++ fraction ++ power ++ rest = start
  dsimp only
  rw [numberScan_eq, hdrop, htake, hfscan, hhead, Nat.zero_add, if_neg, if_neg]
  · exact power_scan hpower hrest start
  · rintro ⟨h0, h1⟩
    exact absurd (hzero h0) (by omega)
  · exact fun h => hne (List.length_eq_zero_iff.mp h)

section

variable {parseValue : List Char → Except String ℕ} {V : Language Char}

def Complete (parse : List Char → Except String ℕ) (L : Language Char) : Prop :=
  ∀ w ∈ L, ∀ rest, Ends rest → parse (w ++ rest) = .ok w.length

theorem skipWhitespace_append (hs : s ∈ ws) (hrest : isWs (charAt rest) = false) :
    skipWhitespace (s ++ rest) = rest := by
  refine dropWhile_append_of_mem hs ?_
  intro c hc
  rwa [charAt, List.headD_eq_head?_getD, Option.mem_def.mp hc] at hrest

theorem ends_ws (hs : s ∈ ws) (hrest : Ends rest) : Ends (s ++ rest) := by
  cases s with
  | nil => exact hrest
  | cons c s =>
    have hc := mem_kstar_oneOf.mp hs c List.mem_cons_self
    simp only [isWs, Bool.or_eq_true, decide_eq_true_eq] at hc
    rcases hc with ((rfl | rfl) | rfl) | rfl <;> exact ⟨rfl, by simp [charAt]⟩

theorem ends_cons (hc : c = ',' ∨ c = ']' ∨ c = '\x7d') (rest : List Char) :
    Ends (c :: rest) ∧ isWs c = false := by
  rcases hc with rfl | rfl | rfl <;> exact ⟨⟨rfl, by simp [charAt]⟩, rfl⟩

theorem item_scan (hvalue : Complete parseValue (ws * V)) (hitem : item ∈ ws * V * ws)
    (hc : c = ',' ∨ c = ']' ∨ c = '\x7d') (rest : List Char) :
    ∃ n, parseValue (item ++ c :: rest) = .ok n ∧
      skipWhitespace ((item ++ c :: rest).drop n) = c :: rest := by
  obtain ⟨v, hv, s, hs, rfl⟩ := hitem
  obtain ⟨hends, hws⟩ := ends_cons hc rest
  refine ⟨v.length, ?_, ?_⟩
  · rw [List.append_assoc]
    exact hvalue v hv _ (ends_ws hs hends)
  · rw [List.append_assoc, List.drop_left]
    exact skipWhitespace_append hs hws

theorem arrayElements_complete (hvalue : Complete parseValue (ws * V))
    (hitems : items ∈ separated ',' (ws * V * ws)) (rest : List Char) (hfuel : items.length < fuel)
    :
    arrayElements parseValue fuel (items ++ ']' :: rest) = .ok (']' :: rest) := by
  refine separated_induction (P := fun items => ∀ fuel, items.length < fuel →
    arrayElements parseValue fuel (items ++ ']' :: rest) = .ok (']' :: rest))
    ?_ ?_ hitems fuel hfuel
  · intro item hitem fuel hfuel
    obtain ⟨fuel, rfl⟩ := Nat.exists_eq_succ_of_ne_zero (by omega : fuel ≠ 0)
    obtain ⟨n, hparse, hskip⟩ := item_scan hvalue hitem (.inr (.inl rfl)) rest
    simp [arrayElements, hparse, hskip, Except.bind, charAt]
  · intro item hitem items hitems ih fuel hfuel
    obtain ⟨n, hparse, hskip⟩ := item_scan hvalue hitem (.inl rfl) (items ++ ']' :: rest)
    rw [List.length_append, List.length_cons] at hfuel
    obtain ⟨fuel, rfl⟩ := Nat.exists_eq_succ_of_ne_zero (by omega : fuel ≠ 0)
    rw [List.append_assoc, List.cons_append, arrayElements, hparse]
    simp only [Except.bind, hskip]
    exact ih fuel (by omega)

def Opens (V : Language Char) : Prop :=
  ∀ v ∈ V, ∀ rest, isWs (charAt (v ++ rest)) = false ∧ charAt (v ++ rest) ≠ ']'

theorem skip_items (hopens : Opens V) (hitems : items ∈ separated ',' (ws * V * ws))
    (rest : List Char) :
    ∃ items' ∈ separated ',' (ws * V * ws), items'.length ≤ items.length ∧
      skipWhitespace (items ++ rest) = items' ++ rest ∧ charAt (items' ++ rest) ≠ ']' := by
  obtain ⟨_, ⟨_, ⟨s, hs, v, hv, rfl⟩, s', hs', rfl⟩, others, hothers, rfl⟩ := hitems
  obtain ⟨hwhite, hclose⟩ := hopens v hv (s' ++ others ++ rest)
  refine ⟨v ++ s' ++ others, ?_, by simp, ?_, by simpa using hclose⟩
  · refine Language.append_mem_mul (Language.append_mem_mul ?_ hs') hothers
    exact ⟨[], Language.nil_mem_kstar _, v, hv, rfl⟩
  · have htext : s ++ v ++ s' ++ others ++ rest = s ++ (v ++ (s' ++ others ++ rest)) := by simp
    rw [htext, skipWhitespace_append hs hwhite]
    simp

theorem bracket_length (a c : Char) (inner rest : List Char) :
    (a :: (inner ++ c :: rest)).length - (c :: rest).length + 1 = ([a] ++ inner ++ [c]).length := by
  simp only [List.length_cons, List.length_append, List.length_nil]
  omega

variable (hvalue : Complete parseValue (ws * V))

include hvalue

theorem jsonParseArray_complete (hopens : Opens V) (hw : w ∈ array V) (rest : List Char) :
    jsonParseArray parseValue (w ++ rest) = .ok w.length := by
  obtain ⟨_, ⟨_, rfl, inner, hinner, rfl⟩, _, rfl, rfl⟩ := hw
  have htext : ['['] ++ inner ++ [']'] ++ rest = '[' :: (inner ++ ']' :: rest) := by simp
  rw [jsonParseArray, htext, List.tail_cons]
  rcases hinner with hs | hitems
  · rw [skipWhitespace_append hs rfl]
    exact congrArg Except.ok (bracket_length '[' ']' inner rest)
  · obtain ⟨items, hitems, hlen, hskip, hclose⟩ := skip_items hopens hitems (']' :: rest)
    simp only [hskip]
    rw [if_neg hclose, arrayElements_complete hvalue hitems rest (by simp; omega)]
    exact congrArg Except.ok (bracket_length '[' ']' inner rest)

theorem objectMember_complete (hitem : item ∈ member (pairedSurrogates F) V)
    (hc : c = ',' ∨ c = ']' ∨ c = '\x7d') (rest : List Char) :
    charAt (skipWhitespace (item ++ c :: rest)) = '"' ∧
      objectMember parseValue (skipWhitespace (item ++ c :: rest)) = .ok (c :: rest) := by
  obtain ⟨_, ⟨_, ⟨_, ⟨_, ⟨_, ⟨s, hs, name, hname, rfl⟩, s', hs', rfl⟩, _, rfl, rfl⟩,
    s'', hs'', rfl⟩,
    v, hv, rfl⟩, s''', hs''', rfl⟩ := hitem
  have htext : s ++ name ++ s' ++ [':'] ++ s'' ++ v ++ s''' ++ c :: rest =
      s ++ (name ++ (s' ++ ':' :: (s'' ++ v ++ s''' ++ c :: rest))) := by simp
  have hquote := charAt_string hname (s' ++ ':' :: (s'' ++ v ++ s''' ++ c :: rest))
  rw [htext, skipWhitespace_append hs (by rw [hquote]; rfl)]
  refine ⟨hquote, ?_⟩
  rw [objectMember, if_neg (not_not.mpr hquote), jsonParseString_complete hname]
  obtain ⟨n, hparse, hskip⟩ := item_scan hvalue
    (show s'' ++ v ++ s''' ∈ ws * V * ws from ⟨_, ⟨s'', hs'', v, hv, rfl⟩, s''', hs''', rfl⟩)
    hc rest
  have hcolon : skipWhitespace (s' ++ ':' :: (s'' ++ v ++ s''' ++ c :: rest)) =
      ':' :: (s'' ++ v ++ s''' ++ c :: rest) := skipWhitespace_append hs' rfl
  simp only [Except.bind, drop_left, hcolon]
  rw [if_neg (by simp [charAt]), tail_cons, hparse]
  exact congrArg Except.ok hskip

theorem objectMembers_complete (hitems : items ∈ separated ',' (member (pairedSurrogates F) V))
    (rest : List Char) (hfuel : items.length < fuel) :
    charAt (skipWhitespace (items ++ '\x7d' :: rest)) = '"' ∧
      objectMembers parseValue fuel (skipWhitespace (items ++ '\x7d' :: rest)) =
        .ok ('\x7d' :: rest) := by
  refine separated_induction (P := fun items => ∀ fuel, items.length < fuel →
    charAt (skipWhitespace (items ++ '\x7d' :: rest)) = '"' ∧
      objectMembers parseValue fuel (skipWhitespace (items ++ '\x7d' :: rest)) =
        .ok ('\x7d' :: rest)) ?_ ?_ hitems fuel hfuel
  · intro item hitem fuel hfuel
    obtain ⟨fuel, rfl⟩ := Nat.exists_eq_succ_of_ne_zero (by omega : fuel ≠ 0)
    obtain ⟨hquote, hmember⟩ := objectMember_complete hvalue hitem (.inr (.inr rfl)) rest
    refine ⟨hquote, ?_⟩
    simp [objectMembers, hmember, Except.bind, charAt]
  · intro item hitem items hitems ih fuel hfuel
    obtain ⟨fuel, rfl⟩ := Nat.exists_eq_succ_of_ne_zero (by omega : fuel ≠ 0)
    obtain ⟨hquote, hmember⟩ :=
      objectMember_complete hvalue hitem (.inl rfl) (items ++ '\x7d' :: rest)
    rw [length_append, length_cons] at hfuel
    rw [append_assoc, cons_append]
    refine ⟨hquote, ?_⟩
    rw [objectMembers, hmember]
    exact (ih fuel (by omega)).2

theorem jsonParseObject_complete (hw : w ∈ object (pairedSurrogates F) V) (rest : List Char) :
    jsonParseObject parseValue (w ++ rest) = .ok w.length := by
  obtain ⟨_, ⟨_, rfl, inner, hinner, rfl⟩, _, rfl, rfl⟩ := hw
  have htext : ['\x7b'] ++ inner ++ ['\x7d'] ++ rest =
      '\x7b' :: (inner ++ '\x7d' :: rest) := by simp
  have hself : skipWhitespace ('\x7b' :: (inner ++ '\x7d' :: rest)) =
      '\x7b' :: (inner ++ '\x7d' :: rest) := rfl
  rw [jsonParseObject, htext, hself, tail_cons]
  rcases hinner with hs | hitems
  · rw [skipWhitespace_append hs rfl]
    exact congrArg Except.ok (bracket_length '\x7b' '\x7d' inner rest)
  · have hfuel : inner.length < ('\x7b' :: (inner ++ '\x7d' :: rest)).length + 1 := by simp; omega
    obtain ⟨hquote, hmembers⟩ := objectMembers_complete hvalue hitems rest hfuel
    dsimp only
    rw [if_neg (by rw [hquote]; decide), hmembers]
    exact congrArg Except.ok (bracket_length '\x7b' '\x7d' inner rest)

omit hvalue

end

abbrev paired : Dialect := pairedSurrogates digits1

theorem charAt_number (hw : w ∈ number D) (rest : List Char) :
    isdigit (charAt (w ++ rest)) ∨ charAt (w ++ rest) = '-' := by
  obtain ⟨_, ⟨_, ⟨_, rfl | rfl, whole, hwhole, rfl⟩, fraction, -, rfl⟩, power, -, rfl⟩ := hw
  · obtain ⟨hdigits, hne, -⟩ := int_digits hwhole
    obtain ⟨c, cs, rfl⟩ := exists_cons_of_ne_nil hne
    exact .inl (mem_kstar_oneOf.mp hdigits c mem_cons_self)
  · exact .inr rfl

theorem charAt_array {V : Language Char} (hw : w ∈ array V) (rest : List Char) :
    charAt (w ++ rest) = '[' := by
  obtain ⟨_, ⟨_, rfl, _, _, rfl⟩, _, _, rfl⟩ := hw
  rfl

theorem charAt_object {V : Language Char} (hw : w ∈ object D V) (rest : List Char) :
    charAt (w ++ rest) = '\x7b' := by
  obtain ⟨_, ⟨_, rfl, _, _, rfl⟩, _, _, rfl⟩ := hw
  rfl

theorem opens_value (n : ℕ) : Opens (value D n) := by
  intro v hv rest
  cases n with
  | zero => exact absurd hv (Language.notMem_zero v)
  | succ n =>
    rcases hv with ((hstring | hnumber) | rfl | rfl | rfl) | hcontainer
    · rw [charAt_string hstring rest]
      decide
    · have hc := charAt_number hnumber rest
      generalize charAt (v ++ rest) = c at hc
      refine ⟨?_, by rintro rfl; exact absurd hc (by decide)⟩
      refine Bool.eq_false_iff.mpr ?_
      intro hws
      simp only [isWs, Bool.or_eq_true, decide_eq_true_eq] at hws
      rcases hws with ((rfl | rfl) | rfl) | rfl <;> exact absurd hc (by decide)
    · exact ⟨rfl, by simp [charAt]⟩
    · exact ⟨rfl, by simp [charAt]⟩
    · exact ⟨rfl, by simp [charAt]⟩
    · rcases hcontainer with harray | hobject
      · rw [charAt_array harray rest]
        decide
      · rw [charAt_object hobject rest]
        decide

theorem jsonParseLiteral_complete (rest : List Char) :
    jsonParseLiteral (text ++ rest) text = .ok text.length :=
  if_pos (prefix_append text rest)

theorem parseValueAt_complete (hF : F ≤ digits) (left : ℕ) :
    Complete (parseValueAt left) (ws * value (pairedSurrogates F) left) := by
  induction left with
  | zero =>
    rintro _ ⟨s, hs, v, hv, rfl⟩
    exact absurd hv (Language.notMem_zero v)
  | succ left ih =>
    rintro _ ⟨s, hs, v, hv, rfl⟩ rest hrest
    have hskip : skipWhitespace (s ++ v ++ rest) = v ++ rest := by
      rw [append_assoc]
      exact skipWhitespace_append hs (opens_value _ v hv rest).1
    have hlen : (s ++ v ++ rest).length - (v ++ rest).length + v.length = (s ++ v).length := by
      simp only [length_append]
      omega
    rw [parseValueAt, hskip]
    dsimp only
    rcases hv with ((hstring | hnumber) | rfl | rfl | rfl) | hcontainer
    · rw [charAt_string hstring rest, jsonParseString_complete hstring rest]
      exact congrArg Except.ok hlen
    · have hc := charAt_number hnumber rest
      have hparse := jsonParseNumber_complete hF hnumber hrest
      generalize charAt (v ++ rest) = c at hc
      split
      all_goals first
        | exact absurd hc (by decide)
        | rw [if_pos hc, hparse]; exact congrArg Except.ok hlen
    · exact congrArg (Except.map _) (jsonParseLiteral_complete rest) |>.trans
        (congrArg Except.ok hlen)
    · exact congrArg (Except.map _) (jsonParseLiteral_complete rest) |>.trans
        (congrArg Except.ok hlen)
    · exact congrArg (Except.map _) (jsonParseLiteral_complete rest) |>.trans
        (congrArg Except.ok hlen)
    · rcases hcontainer with harray | hobject
      · rw [charAt_array harray, jsonParseArray_complete ih (opens_value left) harray rest]
        exact congrArg Except.ok hlen
      · rw [charAt_object hobject, jsonParseObject_complete ih hobject rest]
        exact congrArg Except.ok hlen

theorem zbxJsonValidate_complete (hF : F ≤ digits) (hs : s ∈ ws)
    (hw : w ∈ container (pairedSurrogates F) (value (pairedSurrogates F) (zbxMaxJsonDepth + 1)))
    (hs' : s' ∈ ws) :
    zbxJsonValidate (s ++ w ++ s') = .ok w.length := by
  have hvalue := parseValueAt_complete hF (zbxMaxJsonDepth + 1)
  have hend : skipWhitespace s' = [] := by
    have hskip : skipWhitespace (s' ++ []) = [] := skipWhitespace_append hs' rfl
    rwa [append_nil] at hskip
  rw [append_assoc, zbxJsonValidate]
  rcases hw with harray | hobject
  · have hopen := charAt_array harray s'
    have hparse := jsonParseArray_complete hvalue (opens_value _) harray s'
    rw [skipWhitespace_append hs (by rw [hopen]; rfl)]
    dsimp only
    rw [hopen, if_neg (by decide), if_pos rfl]
    refine (congrArg (Except.bind · _) hparse).trans ?_
    simp [Except.bind, hend, charAt]
  · have hopen := charAt_object hobject s'
    have hparse := jsonParseObject_complete hvalue hobject s'
    rw [skipWhitespace_append hs (by rw [hopen]; rfl)]
    dsimp only
    rw [hopen, if_pos rfl]
    refine (congrArg (Except.bind · _) hparse).trans ?_
    simp [Except.bind, hend, charAt]

/-- The texts of the objects and arrays whose values all have at most
`ZBX_MAX_JSON_DEPTH + 1` objects and arrays around them. -/
def Document (D : Dialect) (s w s' : List Char) : Prop :=
  s ∈ ws ∧ w ∈ container D (value D (zbxMaxJsonDepth + 1)) ∧ s' ∈ ws

theorem charAt_container {V : Language Char} (hw : w ∈ container D V) (rest : List Char) :
    charAt (w ++ rest) = '[' ∨ charAt (w ++ rest) = '\x7b' := by
  rcases hw with harray | hobject
  · exact .inl (charAt_array harray rest)
  · exact .inr (charAt_object hobject rest)

theorem Document.skipWhitespace_eq (h : Document D s w s') :
    skipWhitespace (s ++ w ++ s') = w ++ s' ∧ charAt (w ++ s') ≠ '\x00' := by
  rcases charAt_container h.2.1 s' with hopen | hopen
  · rw [append_assoc, hopen]
    exact ⟨skipWhitespace_append h.1 (by rw [hopen]; rfl), by decide⟩
  · rw [append_assoc, hopen]
    exact ⟨skipWhitespace_append h.1 (by rw [hopen]; rfl), by decide⟩

theorem zbxJsonValidate_skip (text : List Char) :
    zbxJsonValidate (skipWhitespace text) = zbxJsonValidate text := by
  have htwice : skipWhitespace (skipWhitespace text) = skipWhitespace text :=
    dropWhile_idempotent _ _
  rw [zbxJsonValidate, zbxJsonValidate, htwice]

def opened (w s' : List Char) : JsonParse where
  start := w ++ s'
  last := (w ++ s').drop (w.length - 1)

theorem zbxJsonOpen_document (hF : F ≤ digits) (h : Document (pairedSurrogates F) s w s') :
    zbxJsonValidate (s ++ w ++ s') = .ok w.length ∧
      zbxJsonOpen (s ++ w ++ s') = .ok (opened w s') := by
  have hvalid := zbxJsonValidate_complete hF h.1 h.2.1 h.2.2
  obtain ⟨hskip, hchar⟩ := h.skipWhitespace_eq
  refine ⟨hvalid, ?_⟩
  rw [← zbxJsonValidate_skip, hskip] at hvalid
  rw [zbxJsonOpen, hskip, if_neg hchar, hvalid]
  rfl

theorem zbxJsonOpen_lenient (htext : '\x00' ∉ text) {jp : JsonParse}
    (hopen : zbxJsonOpen text = .ok jp) : ∃ s w s', text = s ++ w ++ s' ∧ Document lenient s w s' ∧
      zbxJsonValidate text = .ok w.length ∧ jp = opened w s' := by
  obtain ⟨s, hs, htrim⟩ := reads_skipWhitespace text
  have hskip := zbxJsonValidate_skip text
  unfold zbxJsonOpen at hopen
  by_cases hempty : charAt (skipWhitespace text) = '\x00'
  · rw [if_pos hempty] at hopen
    cases hopen
  rw [if_neg hempty] at hopen
  split at hopen
  · cases hopen
  · next len hvalid =>
    cases hopen
    rw [hskip] at hvalid
    obtain ⟨rest, ⟨w, hw, happend⟩, hlen, hend⟩ := zbxJsonValidate_sound hvalid
    have hrest : rest ∈ ws := by
      obtain ⟨s', hs', hrest⟩ := reads_skipWhitespace rest
      have hnil : skipWhitespace rest = [] := by
        cases hcons : skipWhitespace rest with
        | nil => rfl
        | cons c cs =>
          rw [hcons] at hend hrest
          refine absurd ?_ htext
          rw [← htrim, ← happend, ← hrest, show c = '\x00' from hend]
          simp
      rw [← hrest, hnil, append_nil]
      exact hs'
    refine ⟨s, w, rest, ?_, ⟨hs, hw, hrest⟩, ?_, ?_⟩
    · rw [append_assoc, happend, htrim]
    · rw [hvalid, hlen, ← happend, length_append, Nat.add_sub_cancel]
    · rw [hlen, ← happend, opened, length_append, Nat.add_sub_cancel]

theorem zbx_json_open_exact (text : List Char) (htext : '\x00' ∉ text) :
    (∀ s w s', text = s ++ w ++ s' → Document paired s w s' →
      zbxJsonValidate text = .ok w.length ∧ zbxJsonOpen text = .ok (opened w s')) ∧
    ∀ jp, zbxJsonOpen text = .ok jp → ∃ s w s', text = s ++ w ++ s' ∧ Document lenient s w s' ∧
      zbxJsonValidate text = .ok w.length ∧ jp = opened w s' := by
  constructor
  · rintro s w s' rfl hdoc
    exact zbxJsonOpen_document digits1_le hdoc
  · intro jp hopen
    exact zbxJsonOpen_lenient htext hopen

theorem zbx_json_open_exact_array :
    ∃ s w s', ['[', '1', ']', '\n'] = s ++ w ++ s' ∧ Document lenient s w s' ∧
      zbxJsonValidate ['[', '1', ']', '\n'] = .ok w.length ∧
      JsonParse.mk ['[', '1', ']', '\n'] [']', '\n'] = opened w s' :=
  (zbx_json_open_exact ['[', '1', ']', '\n'] (by decide)).2 _ rfl

/-- A string of one high surrogate alone is a string by RFC 8259. -/
theorem lone_surrogate_refused :
    ¬∀ text, '\x00' ∉ text →
      ((∃ s w s', text = s ++ w ++ s' ∧ Document rfc8259 s w s') ↔
        ∃ jp, zbxJsonOpen text = .ok jp) := by
  intro h
  have hstring : ['"', '\\', 'u', 'd', '8', '0', '0', '"'] ∈ string rfc8259 := by
    refine ⟨_, ⟨_, rfl, ['\\', 'u', 'd', '8', '0', '0'], ?_, rfl⟩, _, rfl, rfl⟩
    refine Language.mem_kstar.mpr ⟨[_], (append_nil _).symm, ?_⟩
    rintro _ (_ | ⟨_, ⟨⟩⟩)
    refine .inr ⟨_, rfl, _, .inr ⟨_, rfl, ['d', '8', '0', '0'], ?_, rfl⟩, rfl⟩
    exact mem_hex4.mpr ⟨_, _, _, _, by decide, by decide, by decide, by decide, rfl⟩
  have hdoc : Document rfc8259 [] ['[', '"', '\\', 'u', 'd', '8', '0', '0', '"', ']'] [] := by
    have hitem : ['"', '\\', 'u', 'd', '8', '0', '0', '"'] ∈
        ws * value rfc8259 (zbxMaxJsonDepth + 1) * ws :=
      ⟨_, ⟨[], Language.nil_mem_kstar _, _, .inl (.inl (.inl hstring)), rfl⟩, [],
        Language.nil_mem_kstar _, rfl⟩
    exact ⟨Language.nil_mem_kstar _,
      .inl ⟨_, ⟨['['], rfl, _, .inr (mem_separated_of_mem hitem), rfl⟩, [']'], rfl, rfl⟩,
      Language.nil_mem_kstar _⟩
  obtain ⟨jp, hjp⟩ := (h _ (by decide)).mp ⟨_, _, _, rfl, hdoc⟩
  cases hjp

end Zabbix.Json
