import Zabbix.Foundation.Except
import Zabbix.Foundation.Utf8
import Zabbix.Preproc.CsvToJson

/-!
# Scanning rendered tables

What the scanner of `item_preproc_csv_to_json` does on the text of a table: it goes over a field
without changing anything but what it needs to find the field again, and adds it where it ends.
-/

namespace Zabbix.Preproc

open List Zabbix.Expr Zabbix.Json Zabbix.Utf8

variable {csv : Csv} {n : ℕ} {f done : List Char}

structure Cell where
  text : List Char
  quoted : Bool
  deriving DecidableEq

def Special (delim quote c : Char) : Prop := c = delim ∨ c = quote ∨ c = '\r' ∨ c = '\n'

instance (delim quote c : Char) : Decidable (Special delim quote c) :=
  inferInstanceAs (Decidable (_ ∨ _ ∨ _ ∨ _))

def Cell.Proper (delim quote : Char) (x : Cell) : Prop :=
  '\x00' ∉ x.text ∧ (x.quoted = false → ∀ c ∈ x.text, ¬ Special delim quote c)

-- all characters of a text are looked at, not all characters there are
instance (delim quote : Char) (text : List Char) :
    Decidable (∀ c ∈ text, ¬ Special delim quote c) :=
  List.decidableBAll _ text

instance (delim quote : Char) (x : Cell) : Decidable (x.Proper delim quote) :=
  inferInstanceAs (Decidable (_ ∧ _))

def doubled (quote : Char) (text : List Char) : List Char :=
  text.flatMap fun c => if c = quote then [c, c] else [c]

def Cell.render (quote : Char) (x : Cell) : List Char :=
  if x.quoted then quote :: (doubled quote x.text ++ [quote]) else x.text

def rowText (delim quote : Char) : List Cell → List Char
  | [] => []
  | [x] => x.render quote
  | x :: y :: row => x.render quote ++ delim :: rowText delim quote (y :: row)

def tableText (delim quote : Char) (eol : List Char) : List (List Cell) → List Char
  | [] => []
  | [row] => rowText delim quote row
  | row :: next :: rows =>
    rowText delim quote row ++ (eol ++ tableText delim quote eol (next :: rows))

variable {c d delim quote : Char} {rest bytes : List Char} {len p : ℕ} {s t u : Scan} {header : Bool}

theorem masks_one : ∀ n < 128, n &&& 0x80 = 0 := by decide

theorem masks_two : ∀ n < 32, ¬ (n + 0xc0) &&& 0x80 = 0 ∧ (n + 0xc0) &&& 0xe0 = 0xc0 := by decide

theorem masks_three : ∀ n < 16, ¬ (n + 0xe0) &&& 0x80 = 0 ∧ ¬ (n + 0xe0) &&& 0xe0 = 0xc0 ∧
    (n + 0xe0) &&& 0xf0 = 0xe0 := by
  decide

theorem masks_four : ∀ n < 8, ¬ (n + 0xf0) &&& 0x80 = 0 ∧ ¬ (n + 0xf0) &&& 0xe0 = 0xc0 ∧
    ¬ (n + 0xf0) &&& 0xf0 = 0xe0 ∧ (n + 0xf0) &&& 0xf8 = 0xf0 := by
  decide

theorem zbxUtf8CharLen_encode (c : Char) (bytes : List Char) :
    zbxUtf8CharLen (encode c ++ bytes) = (encode c).length := by
  unfold zbxUtf8CharLen
  obtain ⟨hc, h⟩ | ⟨-, n, hn, x, -, h⟩ | ⟨-, n, hn, x, y, -, -, h⟩ |
    ⟨-, n, hn, x, y, z, -, -, -, h⟩ := encode_cases c
  · rw [h]
    exact if_pos (masks_one c.toNat hc)
  · have hfirst : (charAt (encode c ++ bytes)).toNat = n + 0xc0 := by
      rw [h]
      exact toNat_ofNat (by omega)
    obtain ⟨h1, h2⟩ := masks_two n hn
    rw [hfirst, if_neg h1, if_pos h2, h]
    rfl
  · have hfirst : (charAt (encode c ++ bytes)).toNat = n + 0xe0 := by
      rw [h]
      exact toNat_ofNat (by omega)
    obtain ⟨h1, h2, h3⟩ := masks_three n hn
    rw [hfirst, if_neg h1, if_neg h2, if_pos h3, h]
    rfl
  · have hfirst : (charAt (encode c ++ bytes)).toNat = n + 0xf0 := by
      rw [h]
      exact toNat_ofNat (by omega)
    obtain ⟨h1, h2, h3, h4⟩ := masks_four n hn
    rw [hfirst, if_neg h1, if_neg h2, if_neg h3, if_pos h4, h]
    rfl

theorem charAt_encode_iff (hd : d.toNat < 128) : charAt (encode c ++ bytes) = d ↔ c = d :=
  headD_encode_iff hd

theorem atChar_encode (h : s.at p = encode c ++ bytes) :
    s.atChar p (encode c).length (encode d) ↔ c = d := by
  unfold Scan.atChar
  rw [h, take_left]
  constructor
  · exact fun hd => encode_injective hd.2
  · rintro rfl
    exact ⟨rfl, rfl⟩

structure Ahead (s : Scan) (len : ℕ) (rest : List Char) : Prop where
  bytes : s.at s.data = encodeAll rest
  length : s.data + (encodeAll rest).length = len

def Reaches (csv : Csv) (len : ℕ) (s t : Scan) : Prop :=
  ∃ n, s.data + n ≤ t.data ∧ ∀ fuel, s.loop csv len (fuel + n) = t.loop csv len fuel

theorem Reaches.refl (csv : Csv) (len : ℕ) (s : Scan) : Reaches csv len s s :=
  ⟨0, Nat.le_refl _, fun _ => rfl⟩

theorem Reaches.trans (h : Reaches csv len s t) (h' : Reaches csv len t u) :
    Reaches csv len s u := by
  obtain ⟨n, hn, hloop⟩ := h
  obtain ⟨n', hn', hloop'⟩ := h'
  refine ⟨n' + n, by omega, fun fuel => ?_⟩
  rw [← Nat.add_assoc, hloop, hloop']

theorem Reaches.step (hdata : s.data ≤ len) (hstep : s.step csv = .ok t) (hlt : s.data < t.data) :
    Reaches csv len s t := by
  refine ⟨1, hlt, fun fuel => ?_⟩
  rw [Scan.loop, if_neg (by omega), hstep]
  rfl

theorem Reaches.loop (h : Reaches csv len s t) (ht : t.data = len + 1) :
    s.loop csv len (len + 1) = .ok t := by
  obtain ⟨n, hn, hloop⟩ := h
  obtain ⟨fuel, hfuel⟩ : ∃ fuel, len + 1 = fuel + n := ⟨len + 1 - n, by omega⟩
  rw [hfuel, hloop]
  cases fuel with
  | zero => rfl
  | succ fuel => exact if_pos (by omega)

namespace Ahead

theorem data_le (h : Ahead s len rest) : s.data ≤ len := by
  have hlength := h.length
  omega

variable (h : Ahead s len (c :: rest))

include h

theorem cons : s.at s.data = encode c ++ encodeAll rest := h.bytes

theorem at_next : s.at (s.data + (encode c).length) = encodeAll rest := by
  rw [Scan.at, ← drop_drop]
  exact (congrArg (List.drop _) h.cons).trans drop_left

theorem next (hvalue : t.value.drop t.data = s.value.drop t.data)
    (hdata : t.data = s.data + (encode c).length) : Ahead t len rest := by
  constructor
  · rw [Scan.at, hvalue, hdata]
    exact h.at_next
  · have hlength := h.length
    rw [encodeAll_cons, length_append] at hlength
    omega

theorem charLen : zbxUtf8CharLen (s.at s.data) = (encode c).length := by
  rw [h.cons, zbxUtf8CharLen_encode]

theorem charAt_iff (hd : d.toNat < 128) : charAt (s.at s.data) = d ↔ c = d := by
  rw [h.cons, charAt_encode_iff hd]

omit h

end Ahead

theorem length_encode_pos (c : Char) : 0 < (encode c).length := length_pos_iff.mpr (encode_ne_nil c)

theorem step_plain (hsize : zbxUtf8CharLen (s.at s.data) = n) (hn : 0 < n)
    (hstate : s.state ≠ .fieldQuoted) :
    s.step csv = (s.plainStep csv n).map fun s => { s with data := s.data + n } := by
  unfold Scan.step
  rw [hsize]
  simp only [if_neg (Nat.ne_of_gt hn), if_pos hstate]

theorem Ahead.step (h : Ahead s len (c :: rest)) (hstate : s.state ≠ .fieldQuoted)
    (hplain : s.plainStep csv (encode c).length = .ok t) :
    s.step csv = .ok { t with data := t.data + (encode c).length } := by
  rw [step_plain h.charLen (length_encode_pos c) hstate, hplain]
  rfl

def csvOf (delim quote : Char) (header : Bool) : Csv := ⟨encode delim, encode quote, header⟩

theorem plainStep_eq (h : Ahead s len (c :: rest)) (hcr : c ≠ '\r') (hlf : c ≠ '\n')
    (hzero : c ≠ '\x00') :
    s.plainStep (csvOf delim quote header) (encode c).length =
      if c = delim then
        ((s.cut s.data).table.addField (s.cut s.data).fieldText header).map fun t =>
          (s.cut s.data).startField { t with fldNum := t.fldNum + 1 }
      else if s.state = .delim ∧ c = quote then .ok { s with state := .fieldQuoted }
      else if s.state ≠ .field then .ok { s with field := some (.value s.data), state := .field }
      else .ok s := by
  have hr := mt (h.charAt_iff (d := '\r') (by decide)).mp hcr
  have hn := mt (h.charAt_iff (d := '\n') (by decide)).mp hlf
  have hz := mt (h.charAt_iff (d := '\x00') (by decide)).mp hzero
  unfold Scan.plainStep
  simp only [hr, hn, hz, if_false, false_and, or_self, csvOf, atChar_encode h.cons]

structure AtStart (s : Scan) : Prop where
  state : s.state = .delim
  field : s.field = none
  fieldEsc : s.fieldEsc = none

def FieldHas (s : Scan) (f : List Char) : Prop :=
  match s.field with
  | none => f = []
  | some .esc => s.fieldEsc = some f
  | some (.value p) => ∃ bytes, s.value.drop p = f ++ bytes ∧ p + f.length ≤ s.data ∧
      (p + f.length = s.data ∨ charAt bytes = '\x00')

theorem cString_append (hzero : '\x00' ∉ f) (hend : charAt bytes = '\x00') :
    cString (f ++ bytes) = f := by
  unfold cString
  have hf : ∀ c ∈ f, decide (c ≠ '\x00') = true := fun c hc => by
    rw [decide_eq_true_iff]
    rintro rfl
    exact hzero hc
  rw [takeWhile_append_of_pos hf]
  cases bytes with
  | nil => exact append_nil f
  | cons b bytes =>
    have hb : b = '\x00' := hend
    rw [hb, takeWhile_cons_of_neg (by simp), append_nil]

theorem drop_set_append {value : List Char} (h : value.drop p = f ++ bytes) (hn : p + f.length ≤ n)
    (hend : p + f.length = n ∨ charAt bytes = '\x00') :
    ∃ bytes', (value.set n '\x00').drop p = f ++ bytes' ∧ charAt bytes' = '\x00' := by
  refine ⟨bytes.set (n - (p + f.length)) '\x00', ?_, ?_⟩
  · rw [drop_set, if_neg (by omega), h, set_append, if_neg (by omega)]
    congr 2
    omega
  · cases bytes with
    | nil => rfl
    | cons b bytes =>
      obtain hend | hend := hend
      · rw [hend, Nat.sub_self]
        rfl
      · cases n - (p + f.length) with
        | zero => rfl
        | succ m => exact hend

theorem FieldHas.fieldText (h : FieldHas s f) (hzero : '\x00' ∉ f) :
    (s.cut s.data).fieldText.getD [] = f := by
  unfold FieldHas at h
  unfold Scan.fieldText Scan.cut
  cases hfield : s.field with
  | none =>
    rw [hfield] at h
    exact h.symm
  | some ptr =>
    rw [hfield] at h
    cases ptr with
    | esc =>
      have h : s.fieldEsc = some f := h
      rw [Option.map_some, Option.getD_some, h, Option.getD_some]
    | value p =>
      obtain ⟨bytes, hdrop, hle, hend⟩ := h
      obtain ⟨bytes', hdrop', hzero'⟩ := drop_set_append hdrop hle hend
      change cString ((s.value.set s.data '\x00').drop p) = f
      rw [hdrop', cString_append hzero hzero']

theorem FieldHas.cut (h : FieldHas s f) : FieldHas { s.cut s.data with data := s.data + 1 } f := by
  unfold FieldHas at h ⊢
  unfold Scan.cut
  cases hfield : s.field with
  | none =>
    rw [hfield] at h
    exact h
  | some ptr =>
    rw [hfield] at h
    cases ptr with
    | esc => exact h
    | value p =>
      obtain ⟨bytes, hdrop, hle, hend⟩ := h
      obtain ⟨bytes', hdrop', hzero'⟩ := drop_set_append hdrop hle hend
      exact ⟨bytes', hdrop', Nat.le_succ_of_le hle, .inr hzero'⟩

variable {text : List Char}

theorem not_special_ne (h : ¬ Special delim quote c) :
    c ≠ delim ∧ c ≠ quote ∧ c ≠ '\r' ∧ c ≠ '\n' := by
  unfold Special at h
  tauto

variable (header) in
theorem reaches_unquoted (htext : ∀ c ∈ text, c ≠ '\x00' ∧ ¬ Special delim quote c) :
    ∀ {s : Scan}, Ahead s len (text ++ rest) → s.state = .field →
      Reaches (csvOf delim quote header) len s { s with data := s.data + (encodeAll text).length } ∧
        Ahead { s with data := s.data + (encodeAll text).length } len rest := by
  induction text with
  | nil => exact fun hahead _ => ⟨Reaches.refl .., hahead⟩
  | cons c text ih =>
    intro s hahead hstate
    obtain ⟨⟨hzero, hspecial⟩, htext⟩ := forall_mem_cons.mp htext
    obtain ⟨hdelim, -, hcr, hlf⟩ := not_special_ne hspecial
    have hahead : Ahead s len (c :: (text ++ rest)) := hahead
    have hstep : s.step (csvOf delim quote header) =
        .ok { s with data := s.data + (encode c).length } := by
      apply hahead.step (t := s) (by simp [hstate])
      rw [plainStep_eq hahead hcr hlf hzero, if_neg hdelim, if_neg (by simp [hstate]),
        if_neg (by simp [hstate])]
    have hnext : Ahead { s with data := s.data + (encode c).length } len (text ++ rest) :=
      hahead.next rfl rfl
    obtain ⟨hreaches, hend⟩ := ih htext hnext hstate
    have hone := Reaches.step hahead.data_le hstep (Nat.lt_add_of_pos_right (length_encode_pos c))
    rw [encodeAll_cons, length_append, ← Nat.add_assoc]
    exact ⟨hone.trans hreaches, hend⟩

def EndsField (delim : Char) (rest : List Char) : Prop :=
  ∀ c ∈ rest.head?, c = delim ∨ c = '\r' ∨ c = '\n'

structure Scanned (csv : Csv) (len : ℕ) (s t : Scan) (f rest : List Char) : Prop where
  reaches : Reaches csv len s t
  ahead : Ahead t len rest
  has : FieldHas t f
  state : t.state = .field ∨ AtStart t
  table : t.table = s.table

variable (header) in
theorem scanned_unquoted (hahead : Ahead s len (text ++ rest)) (hstart : AtStart s)
    (htext : ∀ c ∈ text, c ≠ '\x00' ∧ ¬ Special delim quote c) :
    ∃ t, Scanned (csvOf delim quote header) len s t (encodeAll text) rest ∧
      (t.state = .field ↔ text ≠ []) := by
  cases text with
  | nil =>
    refine ⟨s, ⟨Reaches.refl .., hahead, ?_, .inr hstart, rfl⟩, by simp [hstart.state]⟩
    unfold FieldHas
    rw [hstart.field]
    rfl
  | cons c text =>
    obtain ⟨⟨hzero, hspecial⟩, htail⟩ := forall_mem_cons.mp htext
    obtain ⟨hdelim, hquote, hcr, hlf⟩ := not_special_ne hspecial
    have hahead : Ahead s len (c :: (text ++ rest)) := hahead
    let t : Scan :=
      { s with
        field := some (.value s.data)
        state := .field
        data := s.data + (encode c).length }
    have hstep : s.step (csvOf delim quote header) = .ok t := by
      apply hahead.step (t := { s with field := some (.value s.data), state := .field })
        (by simp [hstart.state])
      rw [plainStep_eq hahead hcr hlf hzero, if_neg hdelim, if_neg (by simp [hquote]),
        if_pos (by simp [hstart.state])]
    have hnext : Ahead t len (text ++ rest) := hahead.next rfl rfl
    obtain ⟨hreaches, hend⟩ := reaches_unquoted header htail hnext rfl
    have hone := Reaches.step hahead.data_le hstep (Nat.lt_add_of_pos_right (length_encode_pos c))
    refine ⟨_, ⟨hone.trans hreaches, hend, ?_, .inl rfl, rfl⟩, by simp [t]⟩
    refine ⟨encodeAll rest, ?_, ?_⟩
    · rw [← encodeAll_append]
      exact hahead.bytes
    · have hlength : s.data + (encodeAll (c :: text)).length =
          t.data + (encodeAll text).length := by
        rw [encodeAll_cons, length_append]
        exact (Nat.add_assoc ..).symm
      exact ⟨Nat.le_of_eq hlength, .inl hlength⟩

/-- Inside quotes: what `field_esc` and the text from `field` on hold together. -/
structure Collected (s : Scan) (done : List Char) : Prop where
  state : s.state = .fieldQuoted
  text : match s.field with
    | none => s.fieldEsc.getD [] = done
    | some .esc => False
    | some (.value p) => ∃ part bytes, done = s.fieldEsc.getD [] ++ part ∧
        s.value.drop p = part ++ bytes ∧ p + part.length = s.data

theorem Collected.part (h : Collected s done) :
    ∃ p part, s.field.getD (.value s.data) = .value p ∧ done = s.fieldEsc.getD [] ++ part ∧
      s.value.drop p = part ++ s.at s.data ∧ p + part.length = s.data := by
  have htext := h.text
  cases hfield : s.field with
  | none =>
    rw [hfield] at htext
    exact ⟨s.data, [], rfl, by rw [append_nil, htext], rfl, rfl⟩
  | some ptr =>
    rw [hfield] at htext
    cases ptr with
    | esc => exact htext.elim
    | value p =>
      obtain ⟨part, bytes, hdone, hdrop, hp⟩ := htext
      refine ⟨p, part, rfl, hdone, ?_, hp⟩
      rw [Scan.at, ← hp, ← drop_drop, hdrop, drop_left]

def Scan.pointed (s : Scan) : Scan := { s with field := some (s.field.getD (.value s.data)) }

theorem pointed_eq (s : Scan) :
    (if s.field = none then { s with field := some (.value s.data) } else s) = s.pointed := by
  obtain ⟨value, data, state, field, fieldEsc, table⟩ := s
  cases field <;> rfl

theorem step_quoted (h : Ahead s len (c :: rest)) (hstate : s.state = .fieldQuoted) :
    s.step (csvOf delim quote header) =
      (if c = quote then s.quoteStep (csvOf delim quote header) else .ok s.pointed).map fun s =>
        { s with data := s.data + (encode c).length } := by
  unfold Scan.step
  rw [h.charLen, ← pointed_eq, apply_ite Except.ok]
  simp only [if_neg (Nat.ne_of_gt (length_encode_pos c)), hstate, ne_eq, not_true_eq_false,
    if_false, csvOf, atChar_encode h.cons]

theorem Collected.step (hs : Collected s done) (h : Ahead s len (c :: rest)) (hc : c ≠ quote) :
    ∃ t, s.step (csvOf delim quote header) = .ok t ∧ Ahead t len rest ∧
      Collected t (done ++ encode c) ∧ t.table = s.table ∧ s.data < t.data := by
  obtain ⟨p, part, hfield, hdone, hdrop, hp⟩ := hs.part
  have hstep : s.step (csvOf delim quote header) =
      .ok { s.pointed with data := s.data + (encode c).length } := by
    rw [step_quoted h hs.state, if_neg hc]
    rfl
  refine ⟨_, hstep, h.next rfl rfl, ⟨hs.state, ?_⟩, rfl,
    Nat.lt_add_of_pos_right (length_encode_pos c)⟩
  simp only [Scan.pointed, hfield]
  refine ⟨part ++ encode c, encodeAll rest, ?_, ?_, ?_⟩
  · rw [hdone, append_assoc]
  · rw [hdrop, h.cons, append_assoc]
  · rw [length_append, ← Nat.add_assoc, hp]

theorem Collected.doubled (hs : Collected s done) (h : Ahead s len (quote :: quote :: rest))
    (hzero : '\x00' ∉ done ++ encode quote) :
    ∃ t, s.step (csvOf delim quote header) = .ok t ∧ Ahead t len rest ∧
      Collected t (done ++ encode quote) ∧ t.table = s.table ∧ s.data < t.data := by
  obtain ⟨p, part, hfield, hdone, hdrop, hp⟩ := hs.part
  have hpos := length_encode_pos quote
  have hnext : s.at (s.data + (encode quote).length) = encode quote ++ encodeAll rest := h.at_next
  -- the zero goes over the second quote
  have htext : cString ((s.value.set (s.data + (encode quote).length) '\x00').drop p) =
      part ++ encode quote := by
    have hvalue : s.value.drop p = (part ++ encode quote) ++ (encode quote ++ encodeAll rest) := by
      rw [hdrop, h.cons, encodeAll_cons, append_assoc]
    have hlen : p + (part ++ encode quote).length = s.data + (encode quote).length := by
      rw [length_append, ← Nat.add_assoc, hp]
    obtain ⟨bytes, hbytes, hend⟩ := drop_set_append hvalue (Nat.le_of_eq hlen) (.inl hlen)
    rw [hbytes]
    refine cString_append ?_ hend
    rw [hdone, append_assoc] at hzero
    exact fun hmem => hzero (mem_append_right _ hmem)
  have hquote : s.quoteStep (csvOf delim quote header) = .ok
      { s with
        value := s.value.set (s.data + (encode quote).length) '\x00'
        fieldEsc := some (done ++ encode quote)
        field := none
        data := s.data + (encode quote).length } := by
    unfold Scan.quoteStep
    simp only [csvOf, hnext, zbxUtf8CharLen_encode, if_neg (Nat.ne_of_gt hpos), pointed_eq]
    rw [if_pos ((atChar_encode hnext).mpr rfl)]
    simp only [Scan.cut, Scan.fieldText, Scan.pointed, Scan.at, hfield, Option.map_some,
      Option.getD_some, htext, hdone, append_assoc]
  let t : Scan :=
    { s with
      value := s.value.set (s.data + (encode quote).length) '\x00'
      fieldEsc := some (done ++ encode quote)
      field := none
      data := s.data + (encode quote).length + (encode quote).length }
  have hstep : s.step (csvOf delim quote header) = .ok t := by
    rw [step_quoted h hs.state, if_pos rfl, hquote]
    rfl
  have hsecond : Ahead { s with data := s.data + (encode quote).length } len (quote :: rest) :=
    h.next rfl rfl
  have hlt : s.data + (encode quote).length < t.data := Nat.lt_add_of_pos_right hpos
  refine ⟨t, hstep, hsecond.next (drop_set_of_lt hlt) rfl, ⟨hs.state, rfl⟩, rfl, ?_⟩
  exact Nat.lt_of_le_of_lt (Nat.le_add_right ..) hlt

theorem endsField_bytes (hbytes : s.at p = encodeAll rest) (hends : EndsField delim rest)
    (hdelim : delim ≠ quote) (hcr : quote ≠ '\r') (hlf : quote ≠ '\n') :
    zbxUtf8CharLen (s.at p) ≠ 0 ∧
      ¬ s.atChar p (zbxUtf8CharLen (s.at p)) (encode quote) ∧
      (charAt (s.at p) = '\r' ∨ charAt (s.at p) = '\n' ∨ charAt (s.at p) = '\x00' ∨
        s.atChar p (zbxUtf8CharLen (s.at p)) (encode delim)) := by
  cases rest with
  | nil =>
    have hat : s.at p = [] := hbytes
    rw [hat]
    refine ⟨by decide, fun hquote => ?_, .inr (.inr (.inl rfl))⟩
    have htake : (s.at p).take 1 = encode quote := hquote.2
    rw [hat] at htake
    exact encode_ne_nil quote htake.symm
  | cons c rest =>
    have hat : s.at p = encode c ++ encodeAll rest := hbytes
    have hc : c = delim ∨ c = '\r' ∨ c = '\n' := hends c rfl
    rw [hat, zbxUtf8CharLen_encode, atChar_encode hat, atChar_encode hat,
      charAt_encode_iff (by decide), charAt_encode_iff (by decide)]
    refine ⟨Nat.ne_of_gt (length_encode_pos c), ?_, by tauto⟩
    obtain rfl | rfl | rfl := hc
    · exact hdelim
    · exact hcr.symm
    · exact hlf.symm

theorem quoteStep_closing (h : Ahead s len (quote :: rest)) (hends : EndsField delim rest)
    (hdelim : delim ≠ quote) (hcr : quote ≠ '\r') (hlf : quote ≠ '\n') :
    s.quoteStep (csvOf delim quote header) =
      match s.fieldEsc with
      | none => .ok { s.cut s.data with state := .field }
      | some esc => .ok
          { s.cut s.data with
            state := .field
            fieldEsc := some (esc ++ (s.cut s.data).fieldText.getD [])
            field := some .esc } := by
  obtain ⟨hsize, hnot, hyes⟩ := endsField_bytes h.at_next hends hdelim hcr hlf
  unfold Scan.quoteStep
  simp only [csvOf, hsize, hnot, hyes, if_false, if_true]
  rfl

theorem Collected.fieldText (hs : Collected s done) (hzero : '\x00' ∉ done) :
    s.fieldEsc.getD [] ++ (s.cut s.data).fieldText.getD [] = done := by
  have htext := hs.text
  unfold Scan.fieldText Scan.cut
  cases hfield : s.field with
  | none =>
    rw [hfield] at htext
    exact (append_nil _).trans htext
  | some ptr =>
    rw [hfield] at htext
    cases ptr with
    | esc => exact htext.elim
    | value p =>
      obtain ⟨part, bytes, hdone, hdrop, hp⟩ := htext
      obtain ⟨bytes', hdrop', hend⟩ := drop_set_append hdrop (Nat.le_of_eq hp) (.inl hp)
      have hpart : '\x00' ∉ part := fun hmem => hzero (hdone ▸ mem_append_right _ hmem)
      change s.fieldEsc.getD [] ++ cString ((s.value.set s.data '\x00').drop p) = done
      rw [hdrop', cString_append hpart hend, hdone]

theorem Collected.fieldHas (hs : Collected s done) (hesc : s.fieldEsc = none)
    (htfield : t.field = s.field) (htvalue : t.value = s.value.set s.data '\x00')
    (htdata : s.data ≤ t.data) : FieldHas t done := by
  have htext := hs.text
  unfold FieldHas
  rw [htfield, htvalue]
  rw [hesc] at htext
  cases hfield : s.field with
  | none =>
    rw [hfield] at htext
    exact htext.symm
  | some ptr =>
    rw [hfield] at htext
    cases ptr with
    | esc => exact htext.elim
    | value p =>
      obtain ⟨part, bytes, rfl, hdrop, hp⟩ := htext
      obtain ⟨bytes', hdrop', hend⟩ := drop_set_append hdrop (Nat.le_of_eq hp) (.inl hp)
      exact ⟨bytes', hdrop', Nat.le_trans (Nat.le_of_eq hp) htdata, .inr hend⟩

variable (header) in
theorem Collected.closing (hs : Collected s done) (h : Ahead s len (quote :: rest))
    (hends : EndsField delim rest) (hdelim : delim ≠ quote) (hcr : quote ≠ '\r')
    (hlf : quote ≠ '\n') (hzero : '\x00' ∉ done) :
    ∃ t, s.step (csvOf delim quote header) = .ok t ∧ Ahead t len rest ∧ FieldHas t done ∧
      t.state = .field ∧ t.table = s.table ∧ s.data < t.data := by
  have hpos := length_encode_pos quote
  have hstep : s.step (csvOf delim quote header) = _ := step_quoted h hs.state
  rw [if_pos rfl, quoteStep_closing h hends hdelim hcr hlf] at hstep
  have hvalue : (s.value.set s.data '\x00').drop (s.data + (encode quote).length) =
      s.value.drop (s.data + (encode quote).length) :=
    drop_set_of_lt (Nat.lt_add_of_pos_right hpos)
  have htext := hs.fieldText hzero
  cases hesc : s.fieldEsc with
  | none =>
    rw [hesc] at hstep
    refine ⟨_, hstep, h.next hvalue rfl, ?_, rfl, rfl, Nat.lt_add_of_pos_right hpos⟩
    exact hs.fieldHas hesc rfl rfl (Nat.le_add_right ..)
  | some esc =>
    rw [hesc] at hstep htext
    refine ⟨_, hstep, h.next hvalue rfl, ?_, rfl, rfl, Nat.lt_add_of_pos_right hpos⟩
    exact congrArg some htext

variable (header) in
theorem reaches_quoted (hends : EndsField delim rest) (hdelim : delim ≠ quote) (hcr : quote ≠ '\r')
    (hlf : quote ≠ '\n') :
    ∀ {text : List Char} {s : Scan} {done : List Char}, Collected s done →
      Ahead s len (doubled quote text ++ quote :: rest) → '\x00' ∉ done ++ encodeAll text →
      ∃ t, Scanned (csvOf delim quote header) len s t (done ++ encodeAll text) rest ∧
        t.state = .field := by
  intro text
  induction text with
  | nil =>
    intro s done hs hahead hzero
    rw [encodeAll_nil, append_nil] at hzero ⊢
    obtain ⟨t, hstep, hnext, hhas, hstate, htable, hlt⟩ :=
      hs.closing header hahead hends hdelim hcr hlf hzero
    exact ⟨t, ⟨Reaches.step hahead.data_le hstep hlt, hnext, hhas, .inl hstate, htable⟩, hstate⟩
  | cons c text ih =>
    intro s done hs hahead hzero
    rw [encodeAll_cons, ← append_assoc] at hzero ⊢
    have hc : '\x00' ∉ done ++ encode c := fun hmem => hzero (mem_append_left _ hmem)
    have hone : ∃ u, s.step (csvOf delim quote header) = .ok u ∧
        Ahead u len (doubled quote text ++ quote :: rest) ∧ Collected u (done ++ encode c) ∧
        u.table = s.table ∧ s.data < u.data := by
      unfold doubled at hahead
      rw [flatMap_cons] at hahead
      by_cases hquote : c = quote
      · rw [if_pos hquote, hquote] at hahead
        rw [hquote] at hc ⊢
        exact hs.doubled hahead hc
      · rw [if_neg hquote] at hahead
        exact hs.step hahead hquote
    obtain ⟨u, hstep, hnext, hu, htable, hlt⟩ := hone
    obtain ⟨t, ht, hstate⟩ := ih hu hnext hzero
    exact ⟨t, ⟨(Reaches.step hahead.data_le hstep hlt).trans ht.reaches, ht.ahead, ht.has,
      ht.state, ht.table.trans htable⟩, hstate⟩

variable (header) in
theorem step_open (hahead : Ahead s len (quote :: rest)) (hstart : AtStart s)
    (hdelim : delim ≠ quote) (hcr : quote ≠ '\r') (hlf : quote ≠ '\n') (hzero : quote ≠ '\x00') :
    ∃ t, s.step (csvOf delim quote header) = .ok t ∧ Ahead t len rest ∧ Collected t [] ∧
      t.table = s.table ∧ s.data < t.data := by
  have hstep : s.step (csvOf delim quote header) =
      .ok { s with state := .fieldQuoted, data := s.data + (encode quote).length } := by
    apply hahead.step (t := { s with state := .fieldQuoted }) (by simp [hstart.state])
    rw [plainStep_eq hahead hcr hlf hzero, if_neg hdelim.symm, if_pos ⟨hstart.state, rfl⟩]
  refine ⟨_, hstep, hahead.next rfl rfl, ⟨rfl, ?_⟩, rfl,
    Nat.lt_add_of_pos_right (length_encode_pos quote)⟩
  simp only [hstart.field, hstart.fieldEsc, Option.getD_none]

/-- The two characters are different and none of those that end lines or values. -/
structure Separators (delim quote : Char) : Prop where
  delim_ne_quote : delim ≠ quote
  delim_line : delim ≠ '\r' ∧ delim ≠ '\n' ∧ delim ≠ '\x00'
  quote_line : quote ≠ '\r' ∧ quote ≠ '\n' ∧ quote ≠ '\x00'

def Cell.Blank (x : Cell) : Prop := x.text = [] ∧ x.quoted = false

instance (x : Cell) : Decidable x.Blank := inferInstanceAs (Decidable (_ ∧ _))

variable (header) in
theorem scanned_cell {x : Cell} (hsep : Separators delim quote) (hx : x.Proper delim quote)
    (hahead : Ahead s len (x.render quote ++ rest)) (hstart : AtStart s)
    (hends : EndsField delim rest) :
    ∃ t, Scanned (csvOf delim quote header) len s t (encodeAll x.text) rest ∧
      (t.state = .field ↔ ¬ x.Blank) := by
  obtain ⟨hzero, hspecial⟩ := hx
  obtain ⟨hcr, hlf, hquote⟩ := hsep.quote_line
  unfold Cell.render at hahead
  unfold Cell.Blank
  cases hquoted : x.quoted with
  | false =>
    rw [hquoted] at hahead
    have htext : ∀ c ∈ x.text, c ≠ '\x00' ∧ ¬ Special delim quote c := fun c hc =>
      ⟨fun h => hzero (h ▸ hc), hspecial hquoted c hc⟩
    obtain ⟨t, ht, hstate⟩ := scanned_unquoted header hahead hstart htext
    exact ⟨t, ht, by simp [hstate]⟩
  | true =>
    rw [hquoted, if_pos rfl, cons_append, append_assoc, singleton_append] at hahead
    obtain ⟨u, hstep, hnext, hu, htable, hlt⟩ :=
      step_open header hahead hstart hsep.delim_ne_quote hcr hlf hquote
    have htext : '\x00' ∉ [] ++ encodeAll x.text := by
      rwa [nil_append, mem_encodeAll_iff (by decide)]
    obtain ⟨t, ht, hstate⟩ := reaches_quoted header hends hsep.delim_ne_quote hcr hlf hu hnext htext
    refine ⟨t, ⟨(Reaches.step hahead.data_le hstep hlt).trans ht.reaches, ht.ahead, ht.has,
      ht.state, ht.table.trans htable⟩, by simp [hstate]⟩

theorem addField_getD (table : CsvTable) (field : Option (List Char)) :
    table.addField field header = table.addField (some (field.getD [])) header := rfl

theorem endRow_getD (table : CsvTable) (field : Option (List Char)) :
    table.endRow field header = table.endRow (some (field.getD [])) header := by
  unfold CsvTable.endRow CsvTable.fillRow
  rw [addField_getD]

def CsvTable.addCell (header : Bool) (table : CsvTable) (x : Cell) : Except (List Char) CsvTable :=
  (table.addField (some (encodeAll x.text)) header).map fun t => { t with fldNum := t.fldNum + 1 }

def CsvTable.lastCell (header : Bool) (table : CsvTable) (x : Cell) : Except (List Char) CsvTable :=
  if ¬ x.Blank ∨ header ∨ table.fldNum ≠ 0 then table.endRow (some (encodeAll x.text)) header
  else .ok table.emptyRow

def CsvTable.addRow (header : Bool) : CsvTable → List Cell → Except (List Char) CsvTable
  | table, [] => table.lastCell header ⟨[], false⟩
  | table, [x] => table.lastCell header x
  | table, x :: y :: row =>
    (table.addCell header x).bind fun table => CsvTable.addRow header table (y :: row)

structure Behind (s : Scan) (x : Cell) : Prop where
  has : FieldHas s (encodeAll x.text)
  state : s.state = .field ∨ AtStart s
  blank : s.state = .field ↔ ¬ x.Blank
  zero : '\x00' ∉ x.text

namespace Behind

variable {x : Cell} {table : CsvTable}

theorem unquoted (h : Behind s x) : s.state ≠ .fieldQuoted := by
  obtain hstate | hstart := h.state
  · simp [hstate]
  · simp [hstart.state]

theorem fieldText (h : Behind s x) : (s.cut s.data).fieldText.getD [] = encodeAll x.text :=
  h.has.fieldText (mt (mem_encodeAll_iff (by decide)).mp h.zero)

theorem step_delim (h : Behind s x) (hsep : Separators delim quote)
    (hahead : Ahead s len (delim :: rest)) (htable : s.table.addCell header x = .ok table) :
    ∃ t, s.step (csvOf delim quote header) = .ok t ∧ Ahead t len rest ∧ AtStart t ∧
      t.table = table ∧ s.data < t.data := by
  obtain ⟨hcr, hlf, hnul⟩ := hsep.delim_line
  have hpos := length_encode_pos delim
  obtain ⟨added, hadded, rfl⟩ := map_eq_ok htable
  let t : Scan := (s.cut s.data).startField { added with fldNum := added.fldNum + 1 }
  have hstep : s.step (csvOf delim quote header) =
      .ok { t with data := s.data + (encode delim).length } := by
    apply hahead.step (t := t) h.unquoted
    rw [plainStep_eq hahead hcr hlf hnul, if_pos rfl, addField_getD, h.fieldText,
      show (s.cut s.data).table = s.table from rfl, hadded]
    rfl
  refine ⟨_, hstep, hahead.next ?_ rfl, ⟨rfl, rfl, rfl⟩, rfl, Nat.lt_add_of_pos_right hpos⟩
  exact drop_set_of_lt (Nat.lt_add_of_pos_right hpos)

variable (header) in
theorem endRow (h : Behind s x) (htable : s.table.lastCell header x = .ok table) :
    ∃ t, s.endRow header = .ok t ∧ AtStart t ∧ t.table = table ∧ t.data = s.data ∧
      ∀ n, s.data < n → t.value.drop n = s.value.drop n := by
  unfold CsvTable.lastCell at htable
  unfold Scan.endRow
  simp only [← h.blank] at htable
  split_ifs at htable with hadd
  · refine ⟨(s.cut s.data).startField table, ?_, ⟨rfl, rfl, rfl⟩, rfl, rfl, fun n hn =>
      drop_set_of_lt hn⟩
    rw [if_pos hadd]
    change ((s.cut s.data).table.endRow (s.cut s.data).fieldText header).map _ = _
    rw [endRow_getD, h.fieldText, show (s.cut s.data).table = s.table from rfl, htable]
    rfl
  · rw [if_neg hadd]
    obtain hstate | hstart := h.state
    · exact absurd (.inl hstate) hadd
    · exact ⟨_, rfl, ⟨rfl, hstart.field, hstart.fieldEsc⟩, Except.ok.inj htable, rfl,
        fun _ _ => rfl⟩

theorem cut (h : Behind s x) : Behind { s.cut s.data with data := s.data + 1 } x where
  has := h.has.cut
  state := h.state.imp id fun hstart => ⟨hstart.state, hstart.field, hstart.fieldEsc⟩
  blank := h.blank
  zero := h.zero

theorem step_lf (h : Behind s x) (hahead : Ahead s len ('\n' :: rest))
    (htable : s.table.lastCell header x = .ok table) :
    ∃ t, s.step (csvOf delim quote header) = .ok t ∧ Ahead t len rest ∧ AtStart t ∧
      t.table = table ∧ s.data < t.data := by
  obtain ⟨t, ht, hstart, htable, hdata, hvalue⟩ := h.endRow header htable
  have hat : charAt (s.at s.data) = '\n' := (hahead.charAt_iff (by decide)).mpr rfl
  have hplain : s.plainStep (csvOf delim quote header) (encode '\n').length = .ok t := by
    unfold Scan.plainStep
    simp only [hat, Char.reduceEq, if_false, false_and, true_or, if_true]
    exact ht
  have hlt : s.data < t.data + (encode '\n').length := by
    rw [hdata]
    exact Nat.lt_add_of_pos_right (length_encode_pos _)
  exact ⟨_, hahead.step h.unquoted hplain, hahead.next (hvalue _ hlt) (by rw [hdata]),
    ⟨hstart.state, hstart.field, hstart.fieldEsc⟩, htable, hlt⟩

theorem step_crlf (h : Behind s x) (hahead : Ahead s len ('\r' :: '\n' :: rest))
    (htable : s.table.lastCell header x = .ok table) :
    ∃ t, s.step (csvOf delim quote header) = .ok t ∧ Ahead t len rest ∧ AtStart t ∧
      t.table = table ∧ s.data < t.data := by
  have hcr : encode '\r' = ['\r'] := encode_ascii (by decide)
  obtain ⟨t, ht, hstart, htable, hdata, hvalue⟩ := h.cut.endRow header htable
  have hat : charAt (s.at s.data) = '\r' := (hahead.charAt_iff (by decide)).mpr rfl
  have hcut : (s.cut s.data).at (s.data + 1) = s.at (s.data + 1) :=
    drop_set_of_lt (Nat.lt_succ_self _)
  have hsecond : Ahead { s.cut s.data with data := s.data + 1 } len ('\n' :: rest) :=
    hahead.next hcut (by rw [hcr]; rfl)
  have hlf : charAt ((s.cut s.data).value.drop (s.data + 1)) = '\n' :=
    (hsecond.charAt_iff (by decide)).mpr rfl
  have hplain : s.plainStep (csvOf delim quote header) (encode '\r').length = .ok t := by
    unfold Scan.plainStep
    simp only [hat, if_true, true_and]
    simp only [Scan.at, hlf, ne_eq, not_true_eq_false, false_and, if_false, true_or, if_true]
    exact ht
  have hlt : s.data + 1 < t.data + (encode '\n').length := by
    rw [hdata]
    exact Nat.lt_add_of_pos_right (length_encode_pos _)
  exact ⟨_, hahead.step h.unquoted hplain, hsecond.next (hvalue _ hlt) (by rw [hdata]; rfl),
    ⟨hstart.state, hstart.field, hstart.fieldEsc⟩, htable, Nat.lt_of_succ_lt hlt⟩

theorem step_end (h : Behind s x) (hahead : Ahead s len [])
    (htable : s.table.lastCell header x = .ok table) :
    ∃ t, s.step (csvOf delim quote header) = .ok t ∧ t.data = len + 1 ∧ AtStart t ∧
      t.table = table ∧ s.data < t.data := by
  obtain ⟨t, ht, hstart, htable, hdata, -⟩ := h.endRow header htable
  have hat : s.at s.data = [] := hahead.bytes
  have hend : s.data = len := hahead.length
  have hplain : s.plainStep (csvOf delim quote header) 1 = .ok t := by
    unfold Scan.plainStep
    simp only [hat, charAt, headD_nil, Char.reduceEq, if_false, false_and, or_true, if_true]
    exact ht
  refine ⟨{ t with data := t.data + 1 }, ?_, by rw [hdata, hend],
    ⟨hstart.state, hstart.field, hstart.fieldEsc⟩, htable, by simp only; omega⟩
  rw [step_plain (by rw [hat]; rfl) Nat.one_pos h.unquoted, hplain]
  rfl

end Behind

variable {x : Cell} {row : List Cell} {rows : List (List Cell)} {table : CsvTable} {eol : List Char}

theorem Scanned.behind (h : Scanned csv len s t (encodeAll x.text) rest)
    (hblank : t.state = .field ↔ ¬ x.Blank) (hx : x.Proper delim quote) : Behind t x :=
  ⟨h.has, h.state, hblank, hx.1⟩

def EndsRow (rest : List Char) : Prop := ∀ c ∈ rest.head?, c = '\r' ∨ c = '\n'

theorem EndsRow.endsField (h : EndsRow rest) : EndsField delim rest := fun c hc => .inr (h c hc)

theorem reaches_lastCell (hsep : Separators delim quote) (hends : EndsRow rest) :
    ∀ {row : List Cell} {s : Scan}, (∀ x ∈ row, x.Proper delim quote) →
      Ahead s len (rowText delim quote row ++ rest) → AtStart s →
      s.table.addRow header row = .ok table →
      ∃ t x, Reaches (csvOf delim quote header) len s t ∧ Ahead t len rest ∧ Behind t x ∧
        t.table.lastCell header x = .ok table
  | [], s, _, hahead, hstart, htable => by
    have hblank : s.state = .field ↔ ¬ Cell.Blank ⟨[], false⟩ := by
      rw [hstart.state]
      decide
    have hhas : FieldHas s (encodeAll []) := by
      unfold FieldHas
      rw [hstart.field]
      rfl
    exact ⟨s, ⟨[], false⟩, Reaches.refl .., hahead, ⟨hhas, .inr hstart, hblank, not_mem_nil⟩,
      htable⟩
  | [x], s, hrow, hahead, hstart, htable => by
    have hx := hrow x mem_cons_self
    obtain ⟨t, ht, hblank⟩ := scanned_cell header hsep hx hahead hstart hends.endsField
    have htable : s.table.lastCell header x = .ok table := htable
    rw [← ht.table] at htable
    exact ⟨t, x, ht.reaches, ht.ahead, ht.behind hblank hx, htable⟩
  | x :: y :: row, s, hrow, hahead, hstart, htable => by
    obtain ⟨hx, hrow⟩ := forall_mem_cons.mp hrow
    have hahead : Ahead s len
        ((x.render quote ++ delim :: rowText delim quote (y :: row)) ++ rest) := hahead
    rw [append_assoc, cons_append] at hahead
    obtain ⟨added, hadded, htable⟩ := bind_eq_ok htable
    have hdelim : EndsField delim (delim :: (rowText delim quote (y :: row) ++ rest)) :=
      fun c hc => .inl (Option.some_inj.mp hc).symm
    obtain ⟨t, ht, hblank⟩ := scanned_cell header hsep hx hahead hstart hdelim
    rw [← ht.table] at hadded
    obtain ⟨u, hstep, hnext, hu, rfl, hlt⟩ := (ht.behind hblank hx).step_delim hsep ht.ahead hadded
    obtain ⟨v, z, hreaches, hv⟩ := reaches_lastCell hsep hends hrow hnext hu htable
    exact ⟨v, z, (ht.reaches.trans (Reaches.step ht.ahead.data_le hstep hlt)).trans hreaches, hv⟩

def LineEnd (eol : List Char) : Prop := eol = ['\n'] ∨ eol = ['\r', '\n']

instance (eol : List Char) : Decidable (LineEnd eol) := inferInstanceAs (Decidable (_ ∨ _))

theorem reaches_row (hsep : Separators delim quote) (heol : LineEnd eol)
    (hrow : ∀ x ∈ row, x.Proper delim quote)
    (hahead : Ahead s len (rowText delim quote row ++ (eol ++ rest))) (hstart : AtStart s)
    (htable : s.table.addRow header row = .ok table) :
    ∃ t, Reaches (csvOf delim quote header) len s t ∧ Ahead t len rest ∧ AtStart t ∧
      t.table = table := by
  have hends : EndsRow (eol ++ rest) := by
    obtain rfl | rfl := heol
    · exact fun c hc => .inr (Option.some_inj.mp hc).symm
    · exact fun c hc => .inl (Option.some_inj.mp hc).symm
  obtain ⟨t, x, hreaches, ht, hx, hlast⟩ := reaches_lastCell hsep hends hrow hahead hstart htable
  have hstep : ∃ u, t.step (csvOf delim quote header) = .ok u ∧ Ahead u len rest ∧ AtStart u ∧
      u.table = table ∧ t.data < u.data := by
    obtain rfl | rfl := heol
    · exact hx.step_lf ht hlast
    · exact hx.step_crlf ht hlast
  obtain ⟨u, hstep, hnext, hu, htable, hlt⟩ := hstep
  exact ⟨u, hreaches.trans (Reaches.step ht.data_le hstep hlt), hnext, hu, htable⟩

theorem reaches_table (hsep : Separators delim quote) (heol : LineEnd eol) :
    ∀ {rows : List (List Cell)} {s : Scan}, rows ≠ [] →
      (∀ row ∈ rows, ∀ x ∈ row, x.Proper delim quote) →
      Ahead s len (tableText delim quote eol rows) → AtStart s →
      rows.foldlM (CsvTable.addRow header) s.table = .ok table →
      ∃ t, Reaches (csvOf delim quote header) len s t ∧ t.data = len + 1 ∧ AtStart t ∧
        t.table = table
  | [], _, hrows, _, _, _, _ => absurd rfl hrows
  | [row], s, _, hrows, hahead, hstart, htable => by
    have hrow := hrows row mem_cons_self
    have hahead : Ahead s len (rowText delim quote row ++ []) := by rwa [append_nil]
    obtain ⟨added, hadded, htable⟩ := bind_eq_ok htable
    obtain rfl : added = table := Except.ok.inj htable
    have hends : EndsRow [] := fun c hc => nomatch hc
    obtain ⟨t, x, hreaches, ht, hx, hlast⟩ := reaches_lastCell hsep hends hrow hahead hstart hadded
    have hstep : ∃ u, t.step (csvOf delim quote header) = .ok u ∧ u.data = len + 1 ∧ AtStart u ∧
        u.table = added ∧ t.data < u.data := hx.step_end ht hlast
    obtain ⟨u, hstep, hdata, hu, htable, hlt⟩ := hstep
    exact ⟨u, hreaches.trans (Reaches.step ht.data_le hstep hlt), hdata, hu, htable⟩
  | row :: next :: rows, s, _, hrows, hahead, hstart, htable => by
    obtain ⟨hrow, hrows⟩ := forall_mem_cons.mp hrows
    obtain ⟨added, hadded, htable⟩ := bind_eq_ok htable
    obtain ⟨t, hreaches, ht, hstart, rfl⟩ := reaches_row hsep heol hrow hahead hstart hadded
    obtain ⟨u, hreaches', hu⟩ :=
      reaches_table hsep heol (cons_ne_nil next rows) hrows ht hstart htable
    exact ⟨u, hreaches.trans hreaches', hu⟩

theorem loop_tableText (hsep : Separators delim quote) (heol : LineEnd eol) (hrows : rows ≠ [])
    (hproper : ∀ row ∈ rows, ∀ x ∈ row, x.Proper delim quote) (hstart : AtStart s)
    (hdata : s.data = 0) (hvalue : s.value = encodeAll (tableText delim quote eol rows))
    (htable : rows.foldlM (CsvTable.addRow header) s.table = .ok table) :
    ∃ t, s.loop (csvOf delim quote header) s.value.length (s.value.length + 1) = .ok t ∧
      t.state = .delim ∧ t.table = table := by
  have hahead : Ahead s s.value.length (tableText delim quote eol rows) := by
    constructor
    · rw [Scan.at, hdata, drop_zero, hvalue]
    · rw [hdata, Nat.zero_add, hvalue]
  obtain ⟨t, hreaches, ht, htstart, htable⟩ :=
    reaches_table hsep heol hrows hproper hahead hstart htable
  exact ⟨t, hreaches.loop ht, htstart.state, htable⟩

end Zabbix.Preproc
