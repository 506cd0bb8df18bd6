import Zabbix.Json.Layout

/-!
# Decoding names

`json_copy_string` writes the bytes of a string one character after the other as long as the buffer
has room for them and the terminator.
-/

namespace Zabbix.Json

open List Zabbix.Expr Zabbix.JsonGrammar Computability

def charBytes : List Char → List Char
  | '\\' :: escape => ((zbxJsonDecodeCharacter escape).map (·.1)).getD []
  | w => w

def Name.decoded (m : Name) : List Char := m.chars.flatMap charBytes

variable {G : Language Char} {w rest out : List Char} {chars : List (List Char)} {m : Name}
  {size fuel : ℕ}

theorem decode_char (hw : w ∈ char (pairedSurrogates G)) :
    (∃ c, isUnescaped c ∧ w = [c] ∧ charBytes w = [c]) ∨
      ∃ escape, w = '\\' :: escape ∧
        ∀ rest, zbxJsonDecodeCharacter (escape ++ rest) = some (charBytes w, rest) := by
  have hdecoded : ∀ {escape bytes}, (∀ rest, zbxJsonDecodeCharacter (escape ++ rest) =
      some (bytes, rest)) → charBytes ('\\' :: escape) = bytes := by
    intro escape bytes hbytes
    have hnil := hbytes []
    rw [append_nil] at hnil
    rw [charBytes, hnil]
    rfl
  obtain ⟨c, hc, rfl⟩ | ⟨_, rfl, _, ⟨e, he, rfl⟩ | ⟨_, rfl, code, hcode, rfl⟩, rfl⟩ := hw
  · refine .inl ⟨c, hc, rfl, ?_⟩
    rw [charBytes]
    intro escape heq
    exact (isUnescaped_iff.mp hc).2.2 (cons_eq_cons.mp heq).1
  · right
    obtain ⟨byte, hbyte⟩ := Option.isSome_iff_exists.mp ((shortEscape_isSome e).trans he)
    have hbytes : ∀ rest, zbxJsonDecodeCharacter ([e] ++ rest) = some ([byte], rest) := by
      intro rest
      rw [zbxJsonDecodeCharacter, show charAt ([e] ++ rest) = e from rfl, hbyte]
      rfl
    refine ⟨[e], rfl, fun rest => ?_⟩
    rw [hbytes rest]
    exact congrArg (fun bytes => some (bytes, rest)) (hdecoded hbytes).symm
  · right
    obtain ⟨bytes, hcode⟩ := decodeUnicode_complete hcode
    have hbytes : ∀ rest, zbxJsonDecodeCharacter ('u' :: code ++ rest) = some (bytes, rest) := by
      intro rest
      exact (decodeCharacter_u rfl).trans (hcode rest)
    refine ⟨'u' :: code, rfl, fun rest => ?_⟩
    rw [hbytes rest]
    exact congrArg (fun bytes => some (bytes, rest)) (hdecoded hbytes).symm

theorem copyScan_char (hw : w ∈ char (pairedSurrogates G)) (hout : out.length < size)
    (rest : List Char) : copyScan size (fuel + 1) out (w ++ rest) =
      if out.length + (charBytes w).length < size then copyScan size fuel (out ++ charBytes w) rest
      else none := by
  obtain ⟨c, hc, rfl, hbytes⟩ | ⟨escape, rfl, hdecode⟩ := decode_char hw
  · obtain ⟨hcontrol, hquote, hslash⟩ := isUnescaped_iff.mp hc
    have hzero : c ≠ '\x00' := by
      intro heq
      exact hcontrol (heq ▸ by decide)
    have hfull : (out ++ [c]).length = size ↔ ¬ out.length + 1 < size := by
      rw [length_append, length_singleton]
      omega
    have hchar : charAt ([c] ++ rest) = c := rfl
    rw [hbytes, copyScan, hchar, if_neg hzero, if_neg hslash, if_neg hquote]
    simp only [hfull, length_singleton, ite_not]
    rfl
  · have hchar : charAt ('\\' :: escape ++ rest) = '\\' := rfl
    have htail : ('\\' :: escape ++ rest).tail = escape ++ rest := rfl
    rw [copyScan, hchar, if_neg (by decide), if_pos rfl, htail, hdecode rest]
    simp only [← not_lt, ite_not]

theorem copyScan_chars (hchars : ∀ x ∈ chars, x ∈ char (pairedSurrogates G))
    (hout : out.length < size) (hfuel : chars.length < fuel) (rest : List Char) :
    copyScan size fuel out (chars.flatten ++ '"' :: rest) =
      if out.length + (chars.flatMap charBytes).length < size then
        some (out ++ chars.flatMap charBytes, rest)
      else none := by
  induction chars generalizing fuel out with
  | nil =>
    obtain ⟨fuel, rfl⟩ := Nat.exists_eq_succ_of_ne_zero (Nat.ne_zero_of_lt hfuel)
    have hchar : charAt ([].flatten ++ '"' :: rest) = '"' := rfl
    rw [copyScan, hchar, if_neg (by decide), if_neg (by decide), if_pos rfl, List.flatMap_nil,
      List.length_nil, Nat.add_zero, if_pos hout, List.append_nil]
    rfl
  | cons x chars ih =>
    obtain ⟨hx, hchars⟩ := List.forall_mem_cons.mp hchars
    rw [List.length_cons] at hfuel
    obtain ⟨fuel, rfl⟩ := Nat.exists_eq_succ_of_ne_zero (Nat.ne_zero_of_lt hfuel)
    rw [List.flatten_cons, List.append_assoc, copyScan_char hx hout, List.flatMap_cons,
      List.length_append, ← Nat.add_assoc, ← List.append_assoc]
    by_cases hfits : out.length + (charBytes x).length < size
    · have hout' : (out ++ charBytes x).length < size := by
        rw [List.length_append]
        exact hfits
      rw [if_pos hfits, ih hchars hout' (Nat.lt_of_succ_lt_succ hfuel), List.length_append]
    · rw [if_neg hfits, if_neg (by omega)]

theorem jsonCopyString_token (hm : m.Formed G) (rest : List Char) (size : ℕ) :
    jsonCopyString (m.token ++ rest) size =
      if m.decoded.length < size then some (m.decoded, rest) else none := by
  rw [jsonCopyString]
  by_cases hsize : size = 0
  · rw [if_pos hsize, if_neg (by omega)]
  · have hcount : ∀ {chars : List (List Char)}, (∀ x ∈ chars, x ∈ char (pairedSurrogates G)) →
        chars.length ≤ chars.flatten.length := by
      intro chars hchars
      induction chars with
      | nil => exact Nat.le_refl 0
      | cons x chars ih =>
        obtain ⟨hx, hchars⟩ := List.forall_mem_cons.mp hchars
        have hpos := char_ne_nil hx
        have hle := ih hchars
        rw [List.length_cons, List.flatten_cons, List.length_append]
        omega
    have htail : (m.token ++ rest).tail = m.chars.flatten ++ '"' :: rest := by simp [Name.token]
    have hfuel : m.chars.length < (m.token ++ rest).length + 1 := by
      have := hcount hm.chars
      simp only [Name.token, length_append, length_cons]
      omega
    rw [if_neg hsize, htail, copyScan_chars hm.chars (Nat.pos_of_ne_zero hsize) hfuel,
      length_nil, Nat.zero_add, nil_append]
    rfl

end Zabbix.Json
