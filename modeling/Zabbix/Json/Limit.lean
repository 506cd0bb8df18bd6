import Zabbix.Foundation.Utf8
import Zabbix.Json.Building

/-!
# Strings of limited size

`zbx_json_addstring_limit`.
-/

namespace Zabbix.Json

open Option List Zabbix.Expr Zabbix.Utf8

def sizeScan (maxSize : ℕ) : ℕ → ℕ → Option (ℕ × ℕ) → List Char → ℕ × Option (ℕ × ℕ)
  | _, len, cutoff, [] => (len, cutoff)
  | sptr, len, cutoff, c :: string =>
    let next := len + charSize c
    let cutoff :=
      if cutoff = none ∧ maxSize ≠ 0 ∧ next > maxSize then some (sptr + 1, len) else cutoff
    sizeScan maxSize (sptr + 1) next cutoff string

def cutBack (string : List Char) : ℕ → ℕ → ℕ × ℕ
  | strCutoff, 0 => (strCutoff, 0)
  | strCutoff, lenCutoff + 1 =>
    if isContinuation (charAt (string.drop (strCutoff - 1))) then
      cutBack string (strCutoff - 1) lenCutoff
    else (strCutoff, lenCutoff + 1)

structure StringSize where
  size : ℕ
  fullLen : ℕ
  cutoff : ℕ
  deriving DecidableEq

def zbxJsonStringsizeLimit (string : Option (List Char)) (type : JsonType) (maxSize : ℕ) :
    StringSize :=
  let text := cString (string.getD ['n', 'u', 'l', 'l'])
  let scan := sizeScan maxSize 0 0 none text
  let quotes := if string.isSome ∧ type = .string then 2 else 0
  match scan.2 with
  | none => ⟨scan.1 + quotes, scan.1, 0⟩
  | some (strCutoff, lenCutoff) =>
    let cut := cutBack text strCutoff (lenCutoff + quotes)
    ⟨cut.2, scan.1, cut.1 - 1⟩

def zbxJsonInsstringLimit (string : Option (List Char)) (type : JsonType) (strLen : ℕ) :
    List Char :=
  let quote := if string.isSome ∧ type = .string then ['"'] else []
  let text := cString (string.getD ['n', 'u', 'l', 'l'])
  quote ++ (if strLen = 0 then text else text.take strLen).flatMap insChar ++ quote

/-- The bytes `zbx_json_addstring_limit` reserves. -/
def limitLen (j : ZbxJson) (name string : Option (List Char)) (type : JsonType) (maxSize : ℕ) : ℕ :=
  startLen j name + (zbxJsonStringsizeLimit string type maxSize).size

def limitText (j : ZbxJson) (name string : Option (List Char)) (type : JsonType) (maxSize : ℕ) :
    List Char :=
  startText j name ++
    zbxJsonInsstringLimit string type (zbxJsonStringsizeLimit string type maxSize).cutoff

def zbxJsonAddstringLimit (j : ZbxJson) (name string : Option (List Char)) (type : JsonType)
    (maxSize : ℕ) : ZbxJson × ℕ :=
  let text := limitText j name string type maxSize
  ({ j with
      buffer := writeAt (moveEnd j (limitLen j name string type maxSize)) j.bufferOffset text
      bufferOffset := j.bufferOffset + text.length
      status := .comma },
    (zbxJsonStringsizeLimit string type maxSize).fullLen)

def escapedSize (text : List Char) : ℕ := (text.map charSize).sum

variable {c : Char} {string front rest text conts : List Char} {maxSize sptr len n : ℕ}
  {cutoff : Option (ℕ × ℕ)}

@[simp] theorem escapedSize_nil : escapedSize [] = 0 := rfl

@[simp] theorem escapedSize_cons (c : Char) (text : List Char) :
    escapedSize (c :: text) = charSize c + escapedSize text := by
  rw [escapedSize, List.map_cons, List.sum_cons]
  rfl

@[simp] theorem escapedSize_append (front rest : List Char) :
    escapedSize (front ++ rest) = escapedSize front + escapedSize rest := by
  rw [escapedSize, List.map_append, List.sum_append]
  rfl

theorem escapedSize_eq (text : List Char) : escapedSize text = (text.flatMap insChar).length := by
  induction text with
  | nil => rfl
  | cons c text ih => rw [escapedSize_cons, List.flatMap_cons, List.length_append, charSize_eq, ih]

theorem charSize_high (hc : 128 ≤ c.toNat) : charSize c = 1 := by
  have hcontrol : ¬ c ≤ '\x1f' := by
    rw [char_le_iff]
    have : '\x1f'.toNat = 31 := by decide
    omega
  have hescape : c ∉ ['"', '\\', '\x08', '\x0c', '\n', '\r', '\t'] := by
    intro hmem
    have hlow : ∀ d ∈ ['"', '\\', '\x08', '\x0c', '\n', '\r', '\t'], d.toNat < 128 := by simp
    have := hlow c hmem
    omega
  rw [charSize, if_neg hescape, if_neg hcontrol]

theorem exists_over {α : Type*} (weight : α → ℕ) {l : List α} {n bound : ℕ} (hn : n ≤ bound)
    (h : bound < n + (l.map weight).sum) :
    ∃ front a back, l = front ++ a :: back ∧ n + (front.map weight).sum ≤ bound ∧
      bound < n + (front.map weight).sum + weight a := by
  induction l generalizing n with
  | nil => exact absurd h (Nat.not_lt.mpr hn)
  | cons a l ih =>
    rw [map_cons, sum_cons] at h
    by_cases ha : n + weight a ≤ bound
    · obtain ⟨front, b, back, rfl, hfront, hover⟩ := ih ha (by omega)
      refine ⟨a :: front, b, back, rfl, ?_, ?_⟩
      · rw [map_cons, sum_cons]
        omega
      · rw [map_cons, sum_cons]
        omega
    · exact ⟨[], a, l, rfl, hn, Nat.lt_of_not_le ha⟩

theorem sizeScan_size (maxSize sptr len : ℕ) (cutoff : Option (ℕ × ℕ)) (string : List Char) :
    (sizeScan maxSize sptr len cutoff string).1 = len + escapedSize string := by
  induction string generalizing sptr len cutoff with
  | nil => rfl
  | cons c string ih => rw [sizeScan, ih, escapedSize_cons, Nat.add_assoc]

theorem sizeScan_cut (cut : ℕ × ℕ) (string : List Char) :
    (sizeScan maxSize sptr len (some cut) string).2 = some cut := by
  induction string generalizing sptr len with
  | nil => rfl
  | cons c string ih =>
    rw [sizeScan, if_neg fun h => some_ne_none _ h.1]
    exact ih

theorem sizeScan_within (string : List Char)
    (h : maxSize = 0 ∨ len + escapedSize string ≤ maxSize) :
    (sizeScan maxSize sptr len none string).2 = none := by
  induction string generalizing sptr len with
  | nil => rfl
  | cons c string ih =>
    rw [escapedSize_cons] at h
    have hgo : ¬ ((none : Option (ℕ × ℕ)) = none ∧ maxSize ≠ 0 ∧ len + charSize c > maxSize) := by
      rintro ⟨-, hne, hover⟩
      omega
    rw [sizeScan, if_neg hgo]
    apply ih
    omega

theorem sizeScan_over (front : List Char) (hmax : maxSize ≠ 0)
    (hfront : len + escapedSize front ≤ maxSize)
    (hover : maxSize < len + escapedSize front + charSize c) :
    (sizeScan maxSize sptr len none (front ++ c :: rest)).2 =
      some (sptr + front.length + 1, len + escapedSize front) := by
  induction front generalizing sptr len with
  | nil =>
    rw [escapedSize_nil] at hover
    rw [nil_append, sizeScan, if_pos ⟨rfl, hmax, hover⟩, sizeScan_cut]
    rfl
  | cons d front ih =>
    rw [escapedSize_cons] at hfront hover
    have hgo : ¬ ((none : Option (ℕ × ℕ)) = none ∧ maxSize ≠ 0 ∧ len + charSize d > maxSize) := by
      rintro ⟨-, -, h⟩
      omega
    rw [cons_append, sizeScan, if_neg hgo, ih (by omega) (by omega), escapedSize_cons, length_cons]
    congr 2
    · omega
    · rw [Nat.add_assoc]

theorem cutBack_continuations (front : List Char) (hc : isContinuation c = false)
    (hconts : ∀ x ∈ conts, isContinuation x = true) {k : ℕ} (hk : k ≤ conts.length) :
    cutBack (front ++ c :: (conts ++ rest)) (front.length + 1 + k) (n + k) =
      (front.length + 1, n) := by
  induction k with
  | zero =>
    cases n with
    | zero => rfl
    | succ n =>
      have hstart : charAt ((front ++ c :: (conts ++ rest)).drop (front.length + 1 + 0 - 1)) = c := by
        rw [Nat.add_zero, Nat.add_sub_cancel, drop_left]
        rfl
      rw [Nat.add_zero, cutBack, hstart, if_neg (Bool.eq_false_iff.mp hc)]
  | succ k ih =>
    have hbyte : charAt ((front ++ c :: (conts ++ rest)).drop (front.length + 1 + (k + 1) - 1)) =
        conts.get ⟨k, hk⟩ := by
      have hindex : front.length + 1 + (k + 1) - 1 = front.length + (k + 1) := by omega
      rw [hindex, ← drop_drop, drop_left, drop_succ_cons,
        drop_append_of_le_length (Nat.le_of_lt hk), drop_eq_getElem_cons hk]
      rfl
    have hcont := hconts _ (get_mem conts ⟨k, hk⟩)
    rw [← hbyte] at hcont
    rw [← Nat.add_assoc n k 1, cutBack, if_pos hcont]
    exact ih (Nat.le_of_lt hk)

theorem escapedSize_encodeAll (chars : List Char) :
    (chars.map fun c => escapedSize (encode c)).sum = escapedSize (encodeAll chars) := by
  induction chars with
  | nil => rfl
  | cons c chars ih => rw [map_cons, sum_cons, ih, encodeAll_cons, escapedSize_append]

theorem escapedSize_front {pre post : List Char} {b : Char} (h : encode c = pre ++ b :: post) :
    escapedSize pre = pre.length := by
  by_cases hc : c.toNat < 128
  · rw [encode_ascii hc] at h
    have hlength := congrArg List.length h
    rw [length_singleton, length_append, length_cons] at hlength
    have hnil : pre = [] := eq_nil_of_length_eq_zero (by omega)
    rw [hnil]
    rfl
  · have hhigh : ∀ x ∈ pre, charSize x = 1 := by
      intro x hx
      apply charSize_high
      apply encode_high (Nat.le_of_not_lt hc)
      rw [h]
      exact mem_append_left _ hx
    have hall : ∀ {l : List Char}, (∀ x ∈ l, charSize x = 1) → escapedSize l = l.length := by
      intro l
      induction l with
      | nil => exact fun _ => rfl
      | cons x l ih =>
        intro hl
        obtain ⟨hx, hl⟩ := forall_mem_cons.mp hl
        rw [escapedSize_cons, hx, ih hl, length_cons, Nat.add_comm]
    exact hall hhigh

variable {chars : List Char}

theorem zbxJsonStringsizeLimit_whole (hnul : '\x00' ∉ string)
    (h : maxSize = 0 ∨ escapedSize string ≤ maxSize) :
    zbxJsonStringsizeLimit (some string) .string maxSize =
      ⟨escapedSize string + 2, escapedSize string, 0⟩ := by
  have hscan : (sizeScan maxSize 0 0 none string).2 = none := by
    apply sizeScan_within
    rw [Nat.zero_add]
    exact h
  rw [zbxJsonStringsizeLimit]
  simp only [getD_some, cString_eq hnul, hscan, sizeScan_size, Nat.zero_add,
    isSome_some, and_self, if_true]

theorem zbxJsonStringsizeLimit_cut (hnul : '\x00' ∉ encodeAll chars) (hmax : maxSize ≠ 0)
    (h : maxSize < escapedSize (encodeAll chars)) :
    ∃ done c rest, chars = done ++ c :: rest ∧ escapedSize (encodeAll done) ≤ maxSize ∧
      maxSize < escapedSize (encodeAll done) + escapedSize (encode c) ∧
      zbxJsonStringsizeLimit (some (encodeAll chars)) .string maxSize =
        ⟨escapedSize (encodeAll done) + 2, escapedSize (encodeAll chars),
          (encodeAll done).length⟩ := by
  have hsum : maxSize < 0 + (chars.map fun c => escapedSize (encode c)).sum := by
    rw [escapedSize_encodeAll, Nat.zero_add]
    exact h
  obtain ⟨done, c, rest, hchars, hdone, hover⟩ := exists_over _ (Nat.zero_le maxSize) hsum
  rw [Nat.zero_add, escapedSize_encodeAll] at hdone hover
  refine ⟨done, c, rest, hchars, hdone, hover, ?_⟩
  -- the byte of the character that goes over the limit
  obtain ⟨pre, b, post, hencode, hpre, hbyte⟩ := exists_over charSize hdone hover
  obtain ⟨lead, conts, hstart, hlead, hconts⟩ := encode_starts c
  have hbytes : encodeAll chars = (encodeAll done ++ pre) ++ b :: (post ++ encodeAll rest) := by
    rw [hchars, encodeAll_append, encodeAll_cons, hencode]
    simp only [append_assoc, cons_append]
  have hshape : encodeAll chars = encodeAll done ++ lead :: (conts ++ encodeAll rest) := by
    rw [hchars, encodeAll_append, encodeAll_cons, hstart, cons_append]
  have hfront : escapedSize (encodeAll done ++ pre) =
      escapedSize (encodeAll done) + pre.length := by
    rw [escapedSize_append, escapedSize_front hencode]
  have hscan : (sizeScan maxSize 0 0 none (encodeAll chars)).2 =
      some ((encodeAll done).length + 1 + pre.length,
        escapedSize (encodeAll done) + pre.length) := by
    have hwithin : 0 + escapedSize (encodeAll done ++ pre) ≤ maxSize := by
      rw [Nat.zero_add, escapedSize_append]
      exact hpre
    have habove : maxSize < 0 + escapedSize (encodeAll done ++ pre) + charSize b := by
      rw [Nat.zero_add, escapedSize_append]
      exact hbyte
    rw [hbytes, sizeScan_over _ hmax hwithin habove, hfront, length_append]
    congr 2
    · omega
    · omega
  have hcount : pre.length ≤ conts.length := by
    have hlength := congrArg List.length (hstart.symm.trans hencode)
    rw [length_cons, length_append, length_cons] at hlength
    omega
  have hquotes : escapedSize (encodeAll done) + pre.length + 2 =
      escapedSize (encodeAll done) + 2 + pre.length := by omega
  have hcut : cutBack (encodeAll chars) ((encodeAll done).length + 1 + pre.length)
      (escapedSize (encodeAll done) + pre.length + 2) =
        ((encodeAll done).length + 1, escapedSize (encodeAll done) + 2) := by
    rw [hshape, hquotes]
    exact cutBack_continuations _ hlead hconts hcount
  rw [zbxJsonStringsizeLimit]
  simp only [getD_some, cString_eq hnul, hscan, sizeScan_size, Nat.zero_add,
    isSome_some, and_self, if_true, hcut, Nat.add_sub_cancel]

theorem limitText_prefix (j : ZbxJson) (name : Option (List Char)) (hnul : '\x00' ∉ chars)
    (hfits : maxSize = 0 ∨ ∀ c ∈ chars.head?, escapedSize (encode c) ≤ maxSize) :
    ∃ k, limitText j name (some (encodeAll chars)) .string maxSize =
        startText j name ++ quoted (encodeAll (chars.take k)) ∧
      limitLen j name (some (encodeAll chars)) .string maxSize =
        (startText j name ++ quoted (encodeAll (chars.take k))).length ∧
      (zbxJsonStringsizeLimit (some (encodeAll chars)) .string maxSize).fullLen =
        escapedSize (encodeAll chars) ∧
      (maxSize ≠ 0 → escapedSize (encodeAll (chars.take k)) ≤ maxSize) ∧
      (maxSize = 0 ∨ escapedSize (encodeAll chars) ≤ maxSize → chars.take k = chars) := by
  have hbytes : '\x00' ∉ encodeAll chars := fun h => hnul ((mem_encodeAll_iff (by decide)).mp h)
  have hquoted : ∀ text, (startText j name ++ quoted text).length =
      startLen j name + (escapedSize text + 2) := by
    intro text
    rw [length_append, startLen_eq, quoted, length_cons, length_append,
      ← escapedSize_eq, length_singleton]
  unfold limitText limitLen zbxJsonInsstringLimit
  simp only [getD_some, cString_eq hbytes, isSome_some, and_self, if_true]
  by_cases hwhole : maxSize = 0 ∨ escapedSize (encodeAll chars) ≤ maxSize
  · rw [zbxJsonStringsizeLimit_whole hbytes hwhole]
    refine ⟨chars.length, ?_, ?_, rfl, ?_, fun _ => take_length⟩
    · rw [take_length, if_pos rfl]
      rfl
    · rw [hquoted, take_length]
    · intro hmax
      rw [take_length]
      exact hwhole.resolve_left hmax
  · obtain ⟨hmax, hlong⟩ := not_or.mp hwhole
    obtain ⟨done, c, rest, rfl, hdone, hover, hsize⟩ :=
      zbxJsonStringsizeLimit_cut hbytes hmax (Nat.lt_of_not_le hlong)
    -- the first character fits, so something is left
    have hne : (encodeAll done).length ≠ 0 := by
      intro hzero
      have hnil : done = [] := encodeAll_eq_nil (eq_nil_of_length_eq_zero hzero)
      rw [hnil, encodeAll_nil, escapedSize_nil, Nat.zero_add] at hover
      have hfirst := hfits.resolve_left hmax c (by rw [hnil]; rfl)
      omega
    have htake : (encodeAll (done ++ c :: rest)).take (encodeAll done).length = encodeAll done := by
      rw [encodeAll_append, take_left]
    rw [hsize]
    refine ⟨done.length, ?_, ?_, rfl, ?_, fun h => absurd h hwhole⟩
    · rw [take_left]
      simp only [if_neg hne, htake]
      rfl
    · rw [hquoted, take_left]
    · intro _
      rw [take_left]
      exact hdone

theorem zbxJsonStringsizeLimit_unlimited (string : Option (List Char)) (type : JsonType) :
    zbxJsonStringsizeLimit string type 0 = ⟨zbxJsonStringsize string type,
      escapedSize (cString (string.getD ['n', 'u', 'l', 'l'])), 0⟩ := by
  have hscan : (sizeScan 0 0 0 none (cString (string.getD ['n', 'u', 'l', 'l']))).2 = none :=
    sizeScan_within _ (.inl rfl)
  rw [zbxJsonStringsizeLimit, zbxJsonStringsize]
  simp only [hscan, sizeScan_size, Nat.zero_add]
  split
  · rfl
  · rfl

theorem zbxJsonAddstringLimit_unlimited (j : ZbxJson) (name string : Option (List Char))
    (type : JsonType) :
    (zbxJsonAddstringLimit j name string type 0).1 = zbxJsonAddstring j name string type := by
  rw [zbxJsonAddstringLimit, limitText, limitLen, zbxJsonStringsizeLimit_unlimited]
  rfl

/-- With a limit of zero or one that the first character does not go over, a prefix of the string goes
in that ends with a character and is within the limit. -/
theorem zbxJsonAddstringLimit_prefix (j : ZbxJson) (hj : j.bufferOffset ≤ j.buffer.length)
    (name : Option (List Char)) (hnul : '\x00' ∉ chars)
    (hfits : maxSize = 0 ∨ ∀ c ∈ chars.head?, escapedSize (encode c) ≤ maxSize) :
    ∃ k, limitLen j name (some (encodeAll chars)) .string maxSize =
        (startText j name ++ quoted (encodeAll (chars.take k))).length ∧
      zbxJsonAddstringLimit j name (some (encodeAll chars)) .string maxSize =
        ({ j with
            buffer := j.buffer.take j.bufferOffset ++
              (startText j name ++ quoted (encodeAll (chars.take k))) ++
              j.buffer.drop j.bufferOffset
            bufferOffset := j.bufferOffset +
              (startText j name ++ quoted (encodeAll (chars.take k))).length
            status := .comma },
          escapedSize (encodeAll chars)) ∧
      (∀ rest size, (encodeAll (chars.take k)).length < size →
        jsonCopyString (quoted (encodeAll (chars.take k)) ++ rest) size =
          some (encodeAll (chars.take k), rest)) ∧
      (maxSize ≠ 0 → escapedSize (encodeAll (chars.take k)) ≤ maxSize) ∧
      (maxSize = 0 ∨ escapedSize (encodeAll chars) ≤ maxSize → chars.take k = chars) := by
  obtain ⟨k, htext, hlen, hfull, hwithin, hwhole⟩ := limitText_prefix j name hnul hfits
  refine ⟨k, hlen, ?_, ?_, hwithin, hwhole⟩
  · rw [zbxJsonAddstringLimit, htext, hfull, writeAt_moveEnd hj hlen]
  · intro rest size hsize
    apply jsonCopyString_quoted _ hsize
    intro hmem
    exact hnul (mem_of_mem_take ((mem_encodeAll_iff (by decide)).mp hmem))

/-- The second character goes over the limit with its second byte. -/
theorem zbxJsonAddstringLimit_prefix_cut :
    ∃ k, (zbxJsonAddstringLimit zbxJsonInit none (some (encodeAll ['\n', 'é', 'z'])) .string 3).2 = 5 ∧
      escapedSize (encodeAll (['\n', 'é', 'z'].take k)) ≤ 3 := by
  have hnul : '\x00' ∉ ['\n', 'é', 'z'] := by decide
  have hfirst : 3 = 0 ∨ ∀ c ∈ ['\n', 'é', 'z'].head?, escapedSize (encode c) ≤ 3 := by
    right
    intro c hc
    cases hc
    decide
  obtain ⟨k, -, hadd, -, hwithin, -⟩ :=
    zbxJsonAddstringLimit_prefix zbxJsonInit (by decide) none hnul hfirst
  refine ⟨k, ?_, hwithin (by decide)⟩
  rw [hadd]
  change escapedSize (encodeAll ['\n', 'é', 'z']) = 5
  decide

/-- A limit of zero is no limit. -/
theorem zbxJsonAddstringLimit_zero :
    ¬ ∀ (chars : List Char) (maxSize : ℕ), '\x00' ∉ chars →
      ∃ k, limitText zbxJsonInit none (some (encodeAll chars)) .string maxSize =
          startText zbxJsonInit none ++ quoted (encodeAll (chars.take k)) ∧
        escapedSize (encodeAll (chars.take k)) ≤ maxSize := by
  intro h
  obtain ⟨k, htext, hsize⟩ := h ['a'] 0 (by decide)
  have hlength := congrArg List.length htext
  cases k with
  | zero => exact absurd hlength (by decide)
  | succ k =>
    rw [take_succ_cons, take_nil] at hsize
    exact absurd hsize (by decide)

end Zabbix.Json
