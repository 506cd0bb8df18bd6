import Zabbix.Preproc.CsvTable

/-!
# Memory safety of the conversion of CSV to JSON

`item_preproc_csv_to_json` with every access to the value checked against its bytes and its
terminator, which is at `len`. An access elsewhere and a loop that does not end give nothing.
-/

namespace Zabbix.Preproc

open Expr Json Utf8

variable {xs tail : List Char}

section Accesses

variable (s : Scan) (len : ℕ)

def Scan.readByte (p : ℕ) : Option Char := if p ≤ len then some (charAt (s.at p)) else none

def Scan.readCharLen (p : ℕ) : Option ℕ :=
  if p ≤ len then some (zbxUtf8CharLen (s.at p)) else none

def Scan.writeZero (p : ℕ) : Option Scan := if p ≤ len then some (s.cut p) else none

def Scan.compareChar (p step : ℕ) (character : List Char) : Option Bool :=
  if step = character.length then
    if p + step ≤ len + 1 then some ((s.at p).take step = character) else none
  else some false

/-- The string at `field`, which ends at the terminator at the latest. -/
def Scan.readField : Option (Option (List Char)) :=
  match s.field with
  | some (.value p) => if p ≤ len then some s.fieldText else none
  | _ => some s.fieldText

end Accesses

def Scan.checkedEndRow (len : ℕ) (s : Scan) (header : Bool) : Option (Except (List Char) Scan) :=
  if s.state = .field ∨ header ∨ s.table.fldNum ≠ 0 then
    (s.writeZero len s.data).bind fun s =>
      (s.readField len).map fun field => (s.table.endRow field header).map s.startField
  else some (.ok { s with table := s.table.emptyRow, state := .delim })

def Scan.checkedCharacter (csv : Csv) (len : ℕ) (s : Scan) (step : ℕ) :
    Option (Except (List Char) Scan) :=
  (s.compareChar len s.data step csv.delim).bind fun atDelim =>
    if atDelim then
      (s.writeZero len s.data).bind fun s =>
        (s.readField len).map fun field =>
          (s.table.addField field csv.hdrLine).map fun t =>
            s.startField { t with fldNum := t.fldNum + 1 }
    else
      (if s.state = .delim then s.compareChar len s.data step csv.quote else some false).bind
        fun atQuote =>
          if atQuote then some (.ok { s with state := .fieldQuoted })
          else if s.state ≠ .field then
            some (.ok { s with field := some (.value s.data), state := .field })
          else some (.ok s)

def Scan.checkedPlainStep (csv : Csv) (len : ℕ) (s : Scan) (step : ℕ) :
    Option (Except (List Char) Scan) :=
  (s.readByte len s.data).bind fun first =>
    if first = '\r' then
      (s.writeZero len s.data).bind fun s =>
        (s.readByte len (s.data + 1)).bind fun c =>
          if c ≠ '\n' ∧ c ≠ '\x00' then some (csvError "unsupported line break".toList)
          else Scan.checkedEndRow len { s with data := s.data + 1 } csv.hdrLine
    else if first = '\n' ∨ first = '\x00' then s.checkedEndRow len csv.hdrLine
    else s.checkedCharacter csv len step

def Scan.checkedQuoteStep (csv : Csv) (len : ℕ) (s : Scan) : Option (Except (List Char) Scan) :=
  let next := s.data + csv.quote.length
  (s.readCharLen len next).bind fun size =>
    if size = 0 then some (.ok s)
    else
      (s.compareChar len next size csv.quote).bind fun again =>
        if again then
          let s := if s.field = none then { s with field := some (.value s.data) } else s
          (s.writeZero len next).bind fun s =>
            (s.readField len).map fun field =>
              .ok
                { s with
                  fieldEsc := some (s.fieldEsc.getD [] ++ field.getD [])
                  field := none
                  data := next }
        else
          (s.readByte len next).bind fun c =>
            (if c = '\r' ∨ c = '\n' ∨ c = '\x00' then some true
              else s.compareChar len next size csv.delim).bind fun ends =>
              if ends then
                (s.writeZero len s.data).bind fun s =>
                  let s := { s with state := .field }
                  match s.fieldEsc with
                  | none => some (.ok s)
                  | some esc =>
                    (s.readField len).map fun field =>
                      .ok { s with fieldEsc := some (esc ++ field.getD []), field := some .esc }
              else
                (s.readField len).map fun field =>
                  let shown := (field.getD "(null)".toList).take (s.data - match s.field with
                    | some (.value p) => p
                    | _ => 0)
                  csvError
                    ("delimiter character or end of line are not detected after quoted field \"".toList
                      ++ shown ++ ['"'])

def Scan.checkedStep (csv : Csv) (len : ℕ) (s : Scan) : Option (Except (List Char) Scan) :=
  (s.readCharLen len s.data).bind fun step =>
    (if step = 0 then some (csvError "invalid UTF-8 character in value".toList)
      else if s.state ≠ .fieldQuoted then s.checkedPlainStep csv len step
      else
        (s.compareChar len s.data step csv.quote).bind fun atQuote =>
          if atQuote then s.checkedQuoteStep csv len
          else if s.field = none then some (.ok { s with field := some (.value s.data) })
          else some (.ok s)).map fun next =>
      next.map fun s => { s with data := s.data + step }

def Scan.checkedLoop (csv : Csv) (len : ℕ) : ℕ → Scan → Option (Except (List Char) Scan)
  | 0, s => if len < s.data then some (.ok s) else none
  | fuel + 1, s =>
    if len < s.data then some (.ok s)
    else
      (s.checkedStep csv len).bind fun
        | .ok s => Scan.checkedLoop csv len fuel s
        | .error errmsg => some (.error errmsg)

def csvParameters (params : List Char) :
    Except (List Char) (Option (List Char) × Option (List Char) × List Char) :=
  (charParam "cannot find second parameter" "invalid first parameter" params).bind
    fun (delim, params) =>
      (charParam "cannot find third parameter" "invalid second parameter" params.tail).map
        fun (quote, params) => (delim, quote, params)

def scanFrom (text : List Char) (data : ℕ) : Scan where
  value := text
  data
  state := .delim
  field := none
  fieldEsc := none
  table := { fldNum := 0, fldNumMax := 0, names := [], json := zbxJsonInitarray }

/-- `item_preproc_csv_to_json` from the first access to the text behind the separator line on. -/
def checkedConvert (csv : Csv) (text : List Char) (data : ℕ) :
    Option (Except (List Char) (List Char)) :=
  ((scanFrom text data).readByte text.length data).bind fun c =>
    if c = '\x00' then some (.ok zbxJsonInitarray.buffer)
    else
      ((scanFrom text data).checkedLoop csv text.length (text.length + 1)).bind fun
        | .error errmsg => some (.error errmsg)
        | .ok s =>
          if s.state = .fieldQuoted then
            (s.readField text.length).map fun field =>
              csvError ("unclosed quoted field \"".toList ++ field.getD "(null)".toList ++ ['"'])
          else some (.ok s.table.json.buffer)

def checkedCsvToJson (text params : List Char) : Option (Except (List Char) (List Char)) :=
  match csvParameters params with
  | .error errmsg => some (.error errmsg)
  | .ok (delim, quote, params) =>
    let sep := sepLine text
    checkedConvert ⟨delim.getD (sep.elim [','] Prod.fst), quote.getD [], charAt params.tail = '1'⟩
      text (sep.elim 0 Prod.snd)

variable {csv : Csv} {s t : Scan} {len p step : ℕ} {rest : List Char}

theorem readByte_eq (hp : p ≤ len) : s.readByte len p = some (charAt (s.at p)) := if_pos hp

theorem readCharLen_eq (hp : p ≤ len) : s.readCharLen len p = some (zbxUtf8CharLen (s.at p)) :=
  if_pos hp

theorem writeZero_eq (hp : p ≤ len) : s.writeZero len p = some (s.cut p) := if_pos hp

theorem compareChar_eq (character : List Char) (hp : p + step ≤ len + 1) :
    s.compareChar len p step character = some (decide (s.atChar p step character)) := by
  rw [Scan.compareChar]
  by_cases hstep : step = character.length
  · rw [if_pos hstep, if_pos hp]
    simp [Scan.atChar, ← hstep]
  · rw [if_neg hstep]
    simp [Scan.atChar, hstep]

def Scan.FieldWithin (s : Scan) (len : ℕ) : Prop :=
  ∀ p, s.field = some (.value p) → p ≤ len

theorem readField_eq (h : s.FieldWithin len) : s.readField len = some s.fieldText := by
  rw [Scan.readField]
  split
  · rename_i p hfield
    exact if_pos (h p hfield)
  · rfl

structure Kept (s t : Scan) (len : ℕ) : Prop where
  behind : ∀ q, t.data < q → t.value.drop q = s.value.drop q
  field : t.FieldWithin len

theorem drop_cut {q : ℕ} (hq : p < q) : (s.cut p).value.drop q = s.value.drop q := by
  rw [Scan.cut, List.drop_set_of_lt hq]

theorem checkedEndRow_eq (header : Bool) (hfield : s.FieldWithin len) (hdata : s.data ≤ len) :
    s.checkedEndRow len header = some (s.endRow header) := by
  rw [Scan.checkedEndRow, Scan.endRow]
  have hread : (s.cut s.data).readField len = some (s.cut s.data).fieldText := readField_eq hfield
  split_ifs
  · rw [writeZero_eq hdata, Option.bind_some, hread, Option.map_some]
  · rfl

theorem startField_kept (table : CsvTable) : Kept s ((s.cut s.data).startField table) len := by
  constructor
  · intro q hq
    exact drop_cut hq
  · intro p hp
    cases hp

theorem endRow_kept {header : Bool} (hfield : s.FieldWithin len) (h : s.endRow header = .ok t) :
    t.data = s.data ∧ Kept s t len := by
  rw [Scan.endRow] at h
  split_ifs at h
  · obtain ⟨table, -, rfl⟩ := map_eq_ok h
    exact ⟨rfl, startField_kept table⟩
  · obtain rfl := Except.ok.inj h
    exact ⟨rfl, fun q _ => rfl, hfield⟩

def Scan.overReturn (s : Scan) : Scan := { s.cut s.data with data := s.data + 1 }

theorem plainStep_return (hr : charAt (s.at s.data) = '\r') :
    s.plainStep csv step =
      if charAt (s.overReturn.at (s.data + 1)) ≠ '\n' ∧
          charAt (s.overReturn.at (s.data + 1)) ≠ '\x00' then
        csvError "unsupported line break".toList
      else s.overReturn.endRow csv.hdrLine := by
  unfold Scan.plainStep
  simp only [hr, if_true, true_and]
  rw [show ({ s.cut s.data with data := s.data + 1 } : Scan) = s.overReturn from rfl]
  by_cases hbad : charAt (s.overReturn.at (s.data + 1)) ≠ '\n' ∧
      charAt (s.overReturn.at (s.data + 1)) ≠ '\x00'
  · rw [if_pos hbad, if_pos hbad]
  · have hend : charAt (s.overReturn.at (s.data + 1)) = '\n' ∨
        charAt (s.overReturn.at (s.data + 1)) = '\x00' := by
      by_contra hnot
      exact hbad (not_or.mp hnot)
    rw [if_neg hbad, if_pos hend, if_neg hbad]

theorem checkedCharacter_eq (hfield : s.FieldWithin len) (hdata : s.data ≤ len)
    (hstep : s.data + step ≤ len + 1) :
    s.checkedCharacter csv len step = some
      (if s.atChar s.data step csv.delim then
        ((s.cut s.data).table.addField (s.cut s.data).fieldText csv.hdrLine).map fun t =>
          (s.cut s.data).startField { t with fldNum := t.fldNum + 1 }
      else if s.state = .delim ∧ s.atChar s.data step csv.quote then
        .ok { s with state := .fieldQuoted }
      else if s.state ≠ .field then .ok { s with field := some (.value s.data), state := .field }
      else .ok s) := by
  have hcut : (s.cut s.data).readField len = some (s.cut s.data).fieldText := readField_eq hfield
  rw [Scan.checkedCharacter, compareChar_eq csv.delim hstep, Option.bind_some]
  by_cases hdelim : s.atChar s.data step csv.delim
  · rw [if_pos (decide_eq_true hdelim), if_pos hdelim, writeZero_eq hdata, Option.bind_some, hcut,
      Option.map_some]
  · rw [if_neg (by simpa using hdelim), if_neg hdelim]
    by_cases hstate : s.state = .delim
    · rw [if_pos hstate, compareChar_eq csv.quote hstep, Option.bind_some]
      by_cases hquote : s.atChar s.data step csv.quote
      · rw [if_pos (decide_eq_true hquote), if_pos ⟨hstate, hquote⟩]
      · have hnone : ¬(s.state = .delim ∧ s.atChar s.data step csv.quote) := fun h => hquote h.2
        rw [if_neg (by simpa using hquote), if_neg hnone]
        split_ifs <;> rfl
    · have hnone : ¬(s.state = .delim ∧ s.atChar s.data step csv.quote) := fun h => hstate h.1
      rw [if_neg hstate, Option.bind_some, if_neg Bool.false_ne_true, if_neg hnone]
      split_ifs <;> rfl

theorem plainStep_character (hr : charAt (s.at s.data) ≠ '\r') :
    s.plainStep csv step =
      if charAt (s.at s.data) = '\n' ∨ charAt (s.at s.data) = '\x00' then s.endRow csv.hdrLine
      else if s.atChar s.data step csv.delim then
        ((s.cut s.data).table.addField (s.cut s.data).fieldText csv.hdrLine).map fun t =>
          (s.cut s.data).startField { t with fldNum := t.fldNum + 1 }
      else if s.state = .delim ∧ s.atChar s.data step csv.quote then
        .ok { s with state := .fieldQuoted }
      else if s.state ≠ .field then .ok { s with field := some (.value s.data), state := .field }
      else .ok s := by
  unfold Scan.plainStep
  simp only [hr, if_false, false_and]

theorem checkedPlainStep_eq (hfield : s.FieldWithin len) (hdata : s.data ≤ len)
    (hstep : s.data + step ≤ len + 1)
    (hreturn : charAt (s.at s.data) = '\r' → s.data + 1 ≤ len) :
    s.checkedPlainStep csv len step = some (s.plainStep csv step) := by
  rw [Scan.checkedPlainStep, readByte_eq hdata, Option.bind_some]
  by_cases hr : charAt (s.at s.data) = '\r'
  · have hover : s.overReturn.FieldWithin len := hfield
    rw [if_pos hr, plainStep_return hr, writeZero_eq hdata, Option.bind_some]
    have hbyte : (s.cut s.data).readByte len (s.data + 1) =
        some (charAt (s.overReturn.at (s.data + 1))) := readByte_eq (hreturn hr)
    rw [show (s.cut s.data).data = s.data from rfl, hbyte, Option.bind_some]
    split_ifs
    · rfl
    · exact checkedEndRow_eq csv.hdrLine hover (hreturn hr)
  · rw [if_neg hr, plainStep_character hr, checkedCharacter_eq hfield hdata hstep]
    split_ifs with hend
    · exact checkedEndRow_eq csv.hdrLine hfield hdata
    all_goals rfl

theorem plainStep_kept (hfield : s.FieldWithin len) (hdata : s.data ≤ len)
    (h : s.plainStep csv step = .ok t) :
    Kept s t len ∧ (t.data = s.data ∧ charAt (s.at s.data) ≠ '\r' ∨
      t.data = s.data + 1 ∧ charAt (s.at s.data) = '\r' ∧
        (charAt (s.at (s.data + 1)) = '\n' ∨ charAt (s.at (s.data + 1)) = '\x00')) := by
  by_cases hr : charAt (s.at s.data) = '\r'
  · have hsame : s.overReturn.at (s.data + 1) = s.at (s.data + 1) := drop_cut (Nat.lt_succ_self _)
    rw [plainStep_return hr, hsame] at h
    by_cases hbad : charAt (s.at (s.data + 1)) ≠ '\n' ∧ charAt (s.at (s.data + 1)) ≠ '\x00'
    · rw [if_pos hbad] at h
      cases h
    · rw [if_neg hbad] at h
      have hover : s.overReturn.FieldWithin len := hfield
      obtain ⟨hdata', hkept⟩ := endRow_kept hover h
      refine ⟨⟨fun q hq => ?_, hkept.field⟩, Or.inr ⟨hdata', hr, ?_⟩⟩
      · rw [hkept.behind q hq]
        apply drop_cut
        rw [hdata'] at hq
        exact Nat.lt_of_succ_lt hq
      · by_contra hnot
        exact hbad (not_or.mp hnot)
  · rw [plainStep_character hr] at h
    split_ifs at h
    · obtain ⟨hsame, hkept⟩ := endRow_kept hfield h
      exact ⟨hkept, Or.inl ⟨hsame, hr⟩⟩
    · obtain ⟨table, -, rfl⟩ := map_eq_ok h
      exact ⟨startField_kept _, Or.inl ⟨rfl, hr⟩⟩
    · obtain rfl := Except.ok.inj h
      exact ⟨⟨fun q _ => rfl, hfield⟩, Or.inl ⟨rfl, hr⟩⟩
    · obtain rfl := Except.ok.inj h
      refine ⟨⟨fun q _ => rfl, ?_⟩, Or.inl ⟨rfl, hr⟩⟩
      intro p hp
      obtain rfl := FieldPtr.value.inj (Option.some.inj hp)
      exact hdata
    · obtain rfl := Except.ok.inj h
      exact ⟨⟨fun q _ => rfl, hfield⟩, Or.inl ⟨rfl, hr⟩⟩

theorem pointed_within (hfield : s.FieldWithin len) (hdata : s.data ≤ len) :
    s.pointed.FieldWithin len := by
  intro p hp
  rw [Scan.pointed, Option.some.injEq] at hp
  cases hs : s.field with
  | none =>
    rw [hs] at hp
    obtain rfl := FieldPtr.value.inj hp
    exact hdata
  | some field =>
    rw [hs] at hp
    exact hfield p (by rw [hs]; exact congrArg some hp)

def Scan.Closes (csv : Csv) (s : Scan) (next : ℕ) : Prop :=
  charAt (s.at next) = '\r' ∨ charAt (s.at next) = '\n' ∨ charAt (s.at next) = '\x00' ∨
    s.atChar next (zbxUtf8CharLen (s.at next)) csv.delim

instance (csv : Csv) (s : Scan) (next : ℕ) : Decidable (s.Closes csv next) :=
  inferInstanceAs (Decidable (_ ∨ _ ∨ _ ∨ _))

theorem closes_eq (hsize : p + zbxUtf8CharLen (s.at p) ≤ len + 1) :
    (if charAt (s.at p) = '\r' ∨ charAt (s.at p) = '\n' ∨ charAt (s.at p) = '\x00' then some true
      else s.compareChar len p (zbxUtf8CharLen (s.at p)) csv.delim) =
      some (decide (s.Closes csv p)) := by
  by_cases hend : charAt (s.at p) = '\r' ∨ charAt (s.at p) = '\n' ∨ charAt (s.at p) = '\x00'
  · have hcloses : s.Closes csv p := by
      obtain hend | hend | hend := hend
      · exact Or.inl hend
      · exact Or.inr (Or.inl hend)
      · exact Or.inr (Or.inr (Or.inl hend))
    rw [if_pos hend, decide_eq_true hcloses]
  · obtain ⟨hr, hn, hz⟩ : charAt (s.at p) ≠ '\r' ∧ charAt (s.at p) ≠ '\n' ∧
        charAt (s.at p) ≠ '\x00' := by
      rwa [not_or, not_or] at hend
    rw [if_neg hend, compareChar_eq csv.delim hsize]
    simp only [Scan.Closes, hr, hn, hz, false_or]

theorem quoteStep_eq :
    s.quoteStep csv =
      if zbxUtf8CharLen (s.at (s.data + csv.quote.length)) = 0 then .ok s
      else if s.atChar (s.data + csv.quote.length)
          (zbxUtf8CharLen (s.at (s.data + csv.quote.length))) csv.quote then
        .ok
          { s.pointed.cut (s.data + csv.quote.length) with
            fieldEsc := some (s.fieldEsc.getD [] ++
              (s.pointed.cut (s.data + csv.quote.length)).fieldText.getD [])
            field := none
            data := s.data + csv.quote.length }
      else if s.Closes csv (s.data + csv.quote.length) then
        match s.fieldEsc with
        | none => .ok { s.cut s.data with state := .field }
        | some esc => .ok
            { s.cut s.data with
              state := .field
              fieldEsc := some (esc ++ (s.cut s.data).fieldText.getD [])
              field := some .esc }
      else
        csvError
          ("delimiter character or end of line are not detected after quoted field \"".toList ++
            (s.fieldText.getD "(null)".toList).take (s.data - match s.field with
              | some (.value p) => p
              | _ => 0) ++ ['"']) := by
  rw [Scan.quoteStep]
  simp only [pointed_eq]
  rfl

theorem checkedQuoteStep_eq (hfield : s.FieldWithin len) (hdata : s.data ≤ len)
    (hnext : s.data + csv.quote.length ≤ len)
    (hsize : s.data + csv.quote.length + zbxUtf8CharLen (s.at (s.data + csv.quote.length)) ≤
      len + 1) :
    s.checkedQuoteStep csv len = some (s.quoteStep csv) := by
  have hread : s.readField len = some s.fieldText := readField_eq hfield
  have hpointed : (s.pointed.cut (s.data + csv.quote.length)).readField len =
      some (s.pointed.cut (s.data + csv.quote.length)).fieldText :=
    readField_eq (pointed_within hfield hdata)
  rw [Scan.checkedQuoteStep, quoteStep_eq]
  simp only [readCharLen_eq hnext, readByte_eq hnext, Option.bind_some, closes_eq hsize]
  simp only [compareChar_eq csv.quote hsize, Option.bind_some, pointed_eq, decide_eq_true_eq]
  split_ifs
  · rfl
  · rw [writeZero_eq hnext, Option.bind_some, hpointed]
    rfl
  · rw [writeZero_eq hdata, Option.bind_some]
    obtain ⟨value, data, state, field, fieldEsc, table⟩ := s
    cases fieldEsc with
    | none => rfl
    | some esc =>
      apply (congrArg (Option.map _) (readField_eq _)).trans
      · rfl
      · exact hfield
  · rw [hread, Option.map_some]

theorem quoteStep_kept (hfield : s.FieldWithin len) (h : s.quoteStep csv = .ok t) :
    Kept s t len ∧ (t.data = s.data ∨ t.data = s.data + csv.quote.length ∧
      s.atChar (s.data + csv.quote.length)
        (zbxUtf8CharLen (s.at (s.data + csv.quote.length))) csv.quote) := by
  have hclose : ∀ u : Scan, u.value = (s.cut s.data).value → u.data = s.data →
      u.FieldWithin len → Kept s u len := by
    intro u hvalue hdata hwithin
    refine ⟨fun q hq => ?_, hwithin⟩
    rw [hvalue]
    apply drop_cut
    rwa [hdata] at hq
  rw [quoteStep_eq] at h
  split_ifs at h with hzero hagain hcloses
  · obtain rfl := Except.ok.inj h
    exact ⟨⟨fun q _ => rfl, hfield⟩, Or.inl rfl⟩
  · obtain rfl := Except.ok.inj h
    refine ⟨⟨fun q hq => drop_cut (s := s.pointed) hq, fun p hp => ?_⟩, Or.inr ⟨rfl, hagain⟩⟩
    cases hp
  · cases hesc : s.fieldEsc with
    | none =>
      rw [hesc] at h
      obtain rfl := Except.ok.inj h
      exact ⟨hclose _ rfl rfl hfield, Or.inl rfl⟩
    | some esc =>
      rw [hesc] at h
      obtain rfl := Except.ok.inj h
      refine ⟨hclose _ rfl rfl fun p hp => ?_, Or.inl rfl⟩
      cases hp
  · cases h

/-- The loop is at a character, at the terminator or behind it. -/
def Scan.Placed (s : Scan) (len : ℕ) : Prop := s.data = len + 1 ∨ ∃ rest, Ahead s len rest

theorem Scan.Placed.ahead (h : s.Placed len) (hdata : s.data ≤ len) : ∃ rest, Ahead s len rest := by
  obtain hend | h := h
  · omega
  · exact h

namespace Ahead

variable (h : Ahead s len rest)

include h

theorem length_at : s.data + (s.at s.data).length = len := by
  rw [h.bytes]
  exact h.length

theorem charLen_bounds :
    0 < zbxUtf8CharLen (s.at s.data) ∧ s.data + zbxUtf8CharLen (s.at s.data) ≤ len + 1 := by
  cases rest with
  | nil =>
    have hat : s.at s.data = [] := h.bytes
    have hend : s.data = len := h.length
    rw [hat, hend]
    exact ⟨Nat.one_pos, Nat.le_refl _⟩
  | cons c rest =>
    have hlength := h.length
    rw [encodeAll_cons, List.length_append] at hlength
    rw [h.charLen]
    exact ⟨length_encode_pos c, by omega⟩

theorem advance (hvalue : ∀ q, s.data < q → t.value.drop q = s.value.drop q)
    (hdata : t.data = s.data + zbxUtf8CharLen (s.at s.data)) : t.Placed len := by
  cases rest with
  | nil =>
    have hat : s.at s.data = [] := h.bytes
    have hend : s.data = len := h.length
    left
    rw [hdata, hat, hend]
    rfl
  | cons c rest =>
    rw [h.charLen] at hdata
    right
    refine ⟨rest, h.next (hvalue _ ?_) hdata⟩
    rw [hdata]
    exact Nat.lt_add_of_pos_right (length_encode_pos c)

theorem moved (hstep : zbxUtf8CharLen (s.at s.data) = step) (hle : s.data + step ≤ len)
    : ∃ rest', Ahead { s with data := s.data + step } len rest' := by
  have hplaced : ({ s with data := s.data + step } : Scan).Placed len :=
    h.advance (fun _ _ => rfl) (by rw [hstep])
  exact hplaced.ahead hle

theorem return_lt (hr : charAt (s.at s.data) = '\r') : s.data + 1 ≤ len := by
  have hlength := h.length_at
  cases hat : s.at s.data with
  | nil =>
    rw [hat] at hr
    cases hr
  | cons b bytes =>
    rw [hat, List.length_cons] at hlength
    omega

theorem atChar_le {character : List Char} (hat : s.atChar s.data step character)
    : s.data + character.length ≤ len := by
  have hlength := h.length_at
  have htake := congrArg List.length hat.2
  rw [List.length_take] at htake
  omega

omit h

end Ahead

theorem step_eq :
    s.step csv =
      (if zbxUtf8CharLen (s.at s.data) = 0 then csvError "invalid UTF-8 character in value".toList
        else if s.state ≠ .fieldQuoted then s.plainStep csv (zbxUtf8CharLen (s.at s.data))
        else if s.atChar s.data (zbxUtf8CharLen (s.at s.data)) csv.quote then s.quoteStep csv
        else .ok s.pointed).map fun t =>
          { t with data := t.data + zbxUtf8CharLen (s.at s.data) } := by
  rw [Scan.step, ← pointed_eq, apply_ite Except.ok]

theorem checkedStep_eq (h : Ahead s len rest) (hfield : s.FieldWithin len) :
    s.checkedStep csv len = some (s.step csv) := by
  obtain ⟨hpos, hbound⟩ := h.charLen_bounds
  rw [Scan.checkedStep, step_eq, readCharLen_eq h.data_le, Option.bind_some]
  by_cases hstate : s.state = .fieldQuoted
  · rw [if_neg (Nat.ne_of_gt hpos), if_neg (not_not_intro hstate), if_neg (Nat.ne_of_gt hpos),
      if_neg (not_not_intro hstate), compareChar_eq csv.quote hbound, Option.bind_some]
    by_cases hquote : s.atChar s.data (zbxUtf8CharLen (s.at s.data)) csv.quote
    · obtain ⟨rest', hnext⟩ := h.moved hquote.1 (h.atChar_le hquote)
      rw [if_pos (decide_eq_true hquote), if_pos hquote,
        checkedQuoteStep_eq hfield h.data_le (h.atChar_le hquote) hnext.charLen_bounds.2]
      rfl
    · rw [if_neg (by simpa using hquote), if_neg hquote, ← pointed_eq]
      split_ifs <;> rfl
  · rw [if_neg (Nat.ne_of_gt hpos), if_pos hstate, if_neg (Nat.ne_of_gt hpos), if_pos hstate,
      checkedPlainStep_eq hfield h.data_le hbound h.return_lt]
    rfl

theorem step_placed (h : Ahead s len rest) (hfield : s.FieldWithin len)
    (hstep : s.step csv = .ok t) : s.data < t.data ∧ t.Placed len ∧ t.FieldWithin len := by
  obtain ⟨hpos, -⟩ := h.charLen_bounds
  rw [step_eq] at hstep
  obtain ⟨u, hu, rfl⟩ := map_eq_ok hstep
  have hstay : Kept s u len → u.data = s.data →
      s.data < u.data + zbxUtf8CharLen (s.at s.data) ∧
        ({ u with data := u.data + zbxUtf8CharLen (s.at s.data) } : Scan).Placed len ∧
        ({ u with data := u.data + zbxUtf8CharLen (s.at s.data) } : Scan).FieldWithin len := by
    intro hkept hdata
    rw [hdata]
    refine ⟨Nat.lt_add_of_pos_right hpos, h.advance (fun q hq => ?_) rfl, hkept.field⟩
    exact hkept.behind q (hdata ▸ hq)
  -- a round over a second character: the first one is followed by one as long
  have hover : ∀ next rest', Kept s u len → u.data = next → s.data < next →
      Ahead { s with data := next } len rest' →
      zbxUtf8CharLen (s.at s.data) = zbxUtf8CharLen (s.at next) →
      s.data < u.data + zbxUtf8CharLen (s.at s.data) ∧
        ({ u with data := u.data + zbxUtf8CharLen (s.at s.data) } : Scan).Placed len ∧
        ({ u with data := u.data + zbxUtf8CharLen (s.at s.data) } : Scan).FieldWithin len := by
    intro next rest' hkept hdata hlt hnext hsame
    rw [hdata]
    refine ⟨Nat.lt_add_right _ hlt, hnext.advance (fun q hq => ?_) ?_, hkept.field⟩
    · exact hkept.behind q (hdata ▸ hq)
    · rw [hsame]
      rfl
  split_ifs at hu with hzero hstate hquote
  · cases hu
  · obtain ⟨hkept, ⟨hdata, -⟩ | ⟨hdata, hr, hend⟩⟩ := plainStep_kept hfield h.data_le hu
    · exact hstay hkept hdata
    · have hone : zbxUtf8CharLen (s.at s.data) = 1 := by
        rw [zbxUtf8CharLen, hr]
        rfl
      obtain ⟨rest', hnext⟩ := h.moved hone (h.return_lt hr)
      apply hover (s.data + 1) rest' hkept hdata (Nat.lt_succ_self _) hnext
      rw [hone, zbxUtf8CharLen]
      obtain hend | hend := hend
      · rw [hend]
        rfl
      · rw [hend]
        rfl
  · obtain ⟨hkept, hdata | ⟨hdata, hagain⟩⟩ := quoteStep_kept hfield hu
    · exact hstay hkept hdata
    · obtain ⟨rest', hnext⟩ := h.moved hquote.1 (h.atChar_le hquote)
      have hlt : s.data < s.data + csv.quote.length := by
        rw [← hquote.1]
        exact Nat.lt_add_of_pos_right hpos
      apply hover _ rest' hkept hdata hlt hnext
      rw [hquote.1, hagain.1]
  · obtain rfl := Except.ok.inj hu
    exact hstay ⟨fun _ _ => rfl, pointed_within hfield h.data_le⟩ rfl

theorem checkedLoop_eq : ∀ (fuel : ℕ) {s : Scan}, len < s.data + fuel → s.Placed len →
    s.FieldWithin len → s.checkedLoop csv len fuel = some (s.loop csv len fuel) := by
  intro fuel
  induction fuel with
  | zero =>
    intro s hfuel _ _
    exact if_pos hfuel
  | succ fuel ih =>
    intro s hfuel hplaced hfield
    rw [Scan.checkedLoop, Scan.loop]
    by_cases hend : len < s.data
    · rw [if_pos hend, if_pos hend]
    · rw [if_neg hend, if_neg hend]
      obtain ⟨rest, hahead⟩ := hplaced.ahead (Nat.le_of_not_lt hend)
      rw [checkedStep_eq hahead hfield, Option.bind_some]
      cases hstep : s.step csv with
      | error errmsg => rfl
      | ok t =>
        obtain ⟨hlt, hplaced', hfield'⟩ := step_placed hahead hfield hstep
        exact ih (by omega) hplaced' hfield'

theorem loop_field : ∀ (fuel : ℕ) {s : Scan}, s.Placed len → s.FieldWithin len →
    s.loop csv len fuel = .ok t → t.FieldWithin len := by
  intro fuel
  induction fuel with
  | zero =>
    intro s _ hfield h
    obtain rfl := Except.ok.inj h
    exact hfield
  | succ fuel ih =>
    intro s hplaced hfield h
    rw [Scan.loop] at h
    split_ifs at h with hend
    · obtain rfl := Except.ok.inj h
      exact hfield
    · obtain ⟨u, hu, h⟩ := bind_eq_ok h
      obtain ⟨rest, hahead⟩ := hplaced.ahead (Nat.le_of_not_lt hend)
      obtain ⟨-, hplaced', hfield'⟩ := step_placed hahead hfield hu
      exact ih hplaced' hfield' h

structure SepLine (text word line back : List Char) : Prop where
  text_eq : text = word ++ (line ++ back)
  word : word.map Char.toLower = "sep=".toList
  no_end : ∀ c ∈ line, c ≠ '\r' ∧ c ≠ '\n'
  size : 0 < line.length ∧ zbxUtf8CharLen (line ++ back) = line.length
  back : back = [] ∨ charAt back = '\r' ∨ charAt back = '\n'

def behindSepLine (line back : List Char) : ℕ :=
  4 + line.length + if back = [] then 0 else if charAt back = '\r' then 2 else 1

variable {text word line back : List Char} {data : ℕ}

theorem takeWhile_line (hline : ∀ c ∈ line, c ≠ '\r' ∧ c ≠ '\n')
    (hback : back = [] ∨ charAt back = '\r' ∨ charAt back = '\n') :
    (line ++ back).takeWhile (fun c => c ≠ '\r' ∧ c ≠ '\n') = line := by
  have hpos : ∀ c ∈ line, decide (c ≠ '\r' ∧ c ≠ '\n') = true := fun c hc =>
    decide_eq_true (hline c hc)
  rw [List.takeWhile_append_of_pos hpos]
  cases back with
  | nil => exact List.append_nil line
  | cons b back =>
    have hb : ¬(b ≠ '\r' ∧ b ≠ '\n') := by
      obtain hnil | hr | hn := hback
      · cases hnil
      · exact fun h => h.1 hr
      · exact fun h => h.2 hn
    rw [List.takeWhile_cons_of_neg (by simpa using hb), List.append_nil]

theorem SepLine.eq (h : SepLine text word line back) :
    sepLine text = some (line, behindSepLine line back) := by
  have hlen : word.length = 4 := by
    have hlength := congrArg List.length h.word
    rwa [List.length_map] at hlength
  have htake : text.take 4 = word := by rw [h.text_eq, ← hlen, List.take_left]
  have hdrop : text.drop 4 = line ++ back := by rw [h.text_eq, ← hlen, List.drop_left]
  have hback : text.drop (4 + line.length) = back := by rw [← List.drop_drop, hdrop, List.drop_left]
  have hword : word.map Char.toLower = ['s', 'e', 'p', '='] := h.word
  rw [sepLine, htake, if_pos hword, hdrop]
  simp only [takeWhile_line h.no_end h.back, h.size.2, and_true, if_pos h.size.1, hback,
    behindSepLine]
  split_ifs <;> rfl

theorem of_sepLine {found : List Char × ℕ} (h : sepLine text = some found) :
    ∃ word line back, SepLine text word line back ∧ found = (line, behindSepLine line back) := by
  obtain ⟨line, hline⟩ : ∃ line, line = (text.drop 4).takeWhile fun c => c ≠ '\r' ∧ c ≠ '\n' :=
    ⟨_, rfl⟩
  obtain ⟨back, hback⟩ : ∃ back, back = (text.drop 4).dropWhile fun c => c ≠ '\r' ∧ c ≠ '\n' :=
    ⟨_, rfl⟩
  have hdrop : text.drop 4 = line ++ back := by rw [hline, hback, List.takeWhile_append_dropWhile]
  have hfound : (text.take 4).map Char.toLower = ['s', 'e', 'p', '='] ∧
      0 < zbxUtf8CharLen (text.drop 4) ∧ zbxUtf8CharLen (text.drop 4) = line.length := by
    by_contra hnot
    rw [sepLine] at h
    simp only [← hline] at h
    split_ifs at h with hword hsize
    all_goals exact hnot ⟨hword, hsize⟩
  have hsep : SepLine text (text.take 4) line back := by
    constructor
    · rw [← hdrop, List.take_append_drop]
    · exact hfound.1
    · intro c hc
      rw [hline] at hc
      have hc := List.mem_takeWhile_imp hc
      exact of_decide_eq_true hc
    · rw [← hdrop]
      exact ⟨hfound.2.2 ▸ hfound.2.1, hfound.2.2⟩
    · cases back with
      | nil => exact Or.inl rfl
      | cons b back =>
        right
        have hne : (text.drop 4).dropWhile (fun c => c ≠ '\r' ∧ c ≠ '\n') ≠ [] := by
          rw [← hback]
          exact List.cons_ne_nil b back
        have hb := List.head_dropWhile_not _ hne
        simp only [← hback, List.head_cons] at hb
        have hb := of_decide_eq_false hb
        by_contra hnot
        exact hb (not_or.mp hnot)
  exact ⟨_, line, back, hsep, Option.some.inj (h.symm.trans hsep.eq)⟩

def EndsAtReturn (text : List Char) : Prop :=
  ∃ word c, text = word ++ (encode c ++ ['\r']) ∧ word.map Char.toLower = "sep=".toList ∧
    c ≠ '\r' ∧ c ≠ '\n'

theorem toLower_ascii {c : Char} (h : c.toLower.toNat < 128) : c.toNat < 128 := by
  delta Char.toLower at h
  split_ifs at h with hupper
  · have hle : c.val ≤ 'Z'.val := hupper.2
    have hle : c.toNat ≤ 90 := hle
    omega
  · exact h

theorem sep_ascii (hword : word.map Char.toLower = "sep=".toList) : ∀ c ∈ word, c.toNat < 128 := by
  intro c hc
  apply toLower_ascii
  have hmem : c.toLower ∈ "sep=".toList := by
    rw [← hword]
    exact List.mem_map_of_mem hc
  have hall : ∀ d ∈ "sep=".toList, d.toNat < 128 := by simp
  exact hall _ hmem

theorem EndsAtReturn.sepLine (h : EndsAtReturn text) :
    ∃ word line, SepLine text word line ['\r'] := by
  obtain ⟨word, c, htext, hword, hr, hn⟩ := h
  refine ⟨word, encode c, htext, hword, fun b hb => ⟨?_, ?_⟩, ?_, Or.inr (Or.inl rfl)⟩
  · rintro rfl
    exact hr ((mem_encode_iff (by decide)).mp hb)
  · rintro rfl
    exact hn ((mem_encode_iff (by decide)).mp hb)
  · exact ⟨length_encode_pos c, zbxUtf8CharLen_encode c _⟩

variable {chars : List Char}

theorem SepLine.separator (h : SepLine (encodeAll chars) word line back) (hback : back ≠ []) :
    ∃ c, line = encode c := by
  obtain ⟨b, hb, htail⟩ : ∃ b : Char, b.toNat < 128 ∧ ∃ tail, back = b :: tail := by
    cases back with
    | nil => exact absurd rfl hback
    | cons b tail =>
      refine ⟨b, ?_, tail, rfl⟩
      obtain hnil | hr | hn := h.back
      · cases hnil
      · obtain rfl : b = '\r' := hr
        decide
      · obtain rfl : b = '\n' := hn
        decide
  obtain ⟨tail, rfl⟩ := htail
  obtain ⟨rest, -, hrest⟩ := encodeAll_eq_ascii_append (sep_ascii h.word) h.text_eq
  obtain ⟨front, behind, -, hfront, -⟩ := encodeAll_eq_append hb hrest
  cases front with
  | nil =>
    have hpos := h.size.1
    rw [← hfront] at hpos
    exact absurd hpos (Nat.lt_irrefl 0)
  | cons c front =>
    have hsize := h.size.2
    rw [← hfront, encodeAll_cons, List.append_assoc, zbxUtf8CharLen_encode,
      List.length_append] at hsize
    have hnil : encodeAll front = [] := List.eq_nil_of_length_eq_zero (by omega)
    refine ⟨c, ?_⟩
    rw [← hfront, encodeAll_cons, hnil, List.append_nil]

theorem SepLine.endsAtReturn (h : SepLine (encodeAll chars) word line ['\r']) :
    EndsAtReturn (encodeAll chars) := by
  obtain ⟨c, rfl⟩ := h.separator (List.cons_ne_nil _ _)
  refine ⟨word, c, h.text_eq, h.word, ?_, ?_⟩
  · rintro rfl
    exact (h.no_end '\r' ((mem_encode_iff (by decide)).mpr rfl)).1 rfl
  · rintro rfl
    exact (h.no_end '\n' ((mem_encode_iff (by decide)).mpr rfl)).2 rfl

theorem scanFrom_ahead (h : text = xs ++ encodeAll rest) :
    Ahead (scanFrom text xs.length) text.length rest := by
  constructor
  · rw [h]
    exact List.drop_left
  · rw [h, List.length_append]
    rfl

theorem masks_continued : ∀ n < 64, ¬(n + 0x80) &&& 0x80 = 0 ∧ ¬(n + 0x80) &&& 0xe0 = 0xc0 ∧
    ¬(n + 0x80) &&& 0xf0 = 0xe0 ∧ ¬(n + 0x80) &&& 0xf8 = 0xf0 := by
  decide

theorem zbxUtf8CharLen_continues {x : Char} {bytes : List Char} (hx : Continues x) :
    zbxUtf8CharLen (x :: bytes) = 0 := by
  obtain ⟨n, hn, rfl⟩ := hx
  obtain ⟨h1, h2, h3, h4⟩ := masks_continued n hn
  have hfirst : (charAt (Char.ofNat (n + 0x80) :: bytes)).toNat = n + 0x80 := toNat_ofNat (by omega)
  rw [zbxUtf8CharLen, hfirst, if_neg h1, if_neg h2, if_neg h3, if_neg h4]

theorem drop_one_encode (c : Char) (bytes : List Char) :
    (encode c ++ bytes).drop 1 = bytes ∨ zbxUtf8CharLen ((encode c ++ bytes).drop 1) = 0 := by
  obtain ⟨-, h⟩ | ⟨-, n, -, x, hx, h⟩ | ⟨-, n, -, x, y, hx, -, h⟩ |
    ⟨-, n, -, x, y, z, hx, -, -, h⟩ := encode_cases c
  · rw [h]
    exact Or.inl rfl
  all_goals
    rw [h]
    exact Or.inr (zbxUtf8CharLen_continues hx)

/-- The loop can start there: at a character, or at a byte where it stops with an error. -/
def Startable (text : List Char) (data : ℕ) : Prop :=
  data ≤ text.length ∧
    ((scanFrom text data).Placed text.length ∨ zbxUtf8CharLen (text.drop data) = 0)

theorem startable_of_append (h : text = xs ++ encodeAll rest) : Startable text xs.length := by
  refine ⟨?_, Or.inl (Or.inr ⟨rest, scanFrom_ahead h⟩)⟩
  rw [h, List.length_append]
  exact Nat.le_add_right _ _

theorem startable_line_feed (h : encodeAll chars = xs ++ '\n' :: tail) :
    Startable (encodeAll chars) (xs.length + 1) := by
  obtain ⟨front, behind, -, -, rfl⟩ := encodeAll_eq_append (by decide) h
  have htext : encodeAll chars = (xs ++ ['\n']) ++ encodeAll behind := by
    rw [h, List.append_assoc]
    rfl
  have hstart := startable_of_append htext
  rwa [List.length_append] at hstart

theorem startable_return (h : encodeAll chars = xs ++ '\r' :: tail) (htail : tail ≠ []) :
    Startable (encodeAll chars) (xs.length + 2) := by
  obtain ⟨front, behind, -, -, rfl⟩ := encodeAll_eq_append (by decide) h
  cases behind with
  | nil => exact absurd rfl htail
  | cons c behind =>
    have hpos := length_encode_pos c
    have hdrop : (encodeAll chars).drop (xs.length + 2) =
        (encode c ++ encodeAll behind).drop 1 := by
      rw [h, ← List.drop_drop, List.drop_left]
      rfl
    obtain hone | hzero := drop_one_encode c (encodeAll behind)
    · have hlength := congrArg List.length hone
      rw [List.length_drop, List.length_append] at hlength
      have htext : encodeAll chars = (xs ++ '\r' :: encode c) ++ encodeAll behind := by
        rw [h, encodeAll_cons, List.append_assoc]
        rfl
      have hstart := startable_of_append htext
      rwa [List.length_append, List.length_cons, show (encode c).length = 1 by omega] at hstart
    · refine ⟨?_, Or.inr ?_⟩
      · rw [h, encodeAll_cons, List.length_append, List.length_cons, List.length_append]
        omega
      · rw [hdrop]
        exact hzero

theorem SepLine.length (h : SepLine text word line back) :
    (word ++ line).length = 4 + line.length := by
  have hlength := congrArg List.length h.word
  rw [List.length_map] at hlength
  rw [List.length_append, hlength]
  rfl

theorem SepLine.startable (h : SepLine (encodeAll chars) word line back) (hback : back ≠ ['\r']) :
    Startable (encodeAll chars) (behindSepLine line back) := by
  have htext : encodeAll chars = (word ++ line) ++ back := by rw [h.text_eq, List.append_assoc]
  rw [behindSepLine, ← h.length]
  cases back with
  | nil =>
    have hend : encodeAll chars = (word ++ line) ++ encodeAll [] := htext
    exact startable_of_append hend
  | cons b tail =>
    rw [if_neg (List.cons_ne_nil b tail)]
    by_cases hr : b = '\r'
    · subst hr
      rw [if_pos (show charAt ('\r' :: tail) = '\r' from rfl)]
      apply startable_return htext
      rintro rfl
      exact hback rfl
    · have hn : b = '\n' := by
        obtain hnil | hr' | hn := h.back
        · cases hnil
        · exact absurd hr' hr
        · exact hn
      subst hn
      exact startable_line_feed htext

def tableStart (text : List Char) : ℕ := (sepLine text).elim 0 Prod.snd

theorem startable_tableStart (h : ¬EndsAtReturn (encodeAll chars)) :
    Startable (encodeAll chars) (tableStart (encodeAll chars)) := by
  cases hsep : sepLine (encodeAll chars) with
  | none =>
    rw [tableStart, hsep]
    have hall : encodeAll chars = [] ++ encodeAll chars := rfl
    exact startable_of_append hall
  | some found =>
    obtain ⟨word, line, back, hline, rfl⟩ := of_sepLine hsep
    rw [tableStart, hsep]
    apply hline.startable
    rintro rfl
    exact h hline.endsAtReturn

theorem tableStart_endsAtReturn (h : EndsAtReturn text) : tableStart text = text.length + 1 := by
  obtain ⟨word, line, hline⟩ := h.sepLine
  have hlength := hline.length
  rw [tableStart, hline.eq, hline.text_eq, ← List.append_assoc, List.length_append, hlength]
  rfl

/-- `item_preproc_csv_to_json` behind the separator line. -/
def convert (csv : Csv) (text : List Char) (data : ℕ) : Except (List Char) (List Char) :=
  if charAt (text.drop data) = '\x00' then .ok zbxJsonInitarray.buffer
  else
    ((scanFrom text data).loop csv text.length (text.length + 1)).bind fun s =>
      if s.state = .fieldQuoted then
        csvError ("unclosed quoted field \"".toList ++ s.fieldText.getD "(null)".toList ++ ['"'])
      else .ok s.table.json.buffer

theorem itemPreprocCsvToJson_eq (text params : List Char) :
    itemPreprocCsvToJson text params =
      (csvParameters params).bind fun (delim, quote, params) =>
        convert ⟨delim.getD ((sepLine text).elim [','] Prod.fst), quote.getD [],
          charAt params.tail = '1'⟩ text (tableStart text) := by
  rw [itemPreprocCsvToJson, csvParameters]
  cases charParam "cannot find second parameter" "invalid first parameter" params with
  | error errmsg => rfl
  | ok first =>
    obtain ⟨delim, params⟩ := first
    simp only [Except.bind, bind]
    cases charParam "cannot find third parameter" "invalid second parameter" params.tail with
    | error errmsg => rfl
    | ok second => rfl

variable (h : Startable text data)

include h

theorem startable_loop :
    (scanFrom text data).checkedLoop csv text.length (text.length + 1) =
      some ((scanFrom text data).loop csv text.length (text.length + 1)) := by
  obtain ⟨hdata, hplaced | hstuck⟩ := h
  · apply checkedLoop_eq _ _ hplaced
    · intro p hp
      cases hp
    · exact Nat.lt_of_lt_of_le (Nat.lt_succ_self _) (Nat.le_add_left _ _)
  · have hnot : ¬text.length < (scanFrom text data).data := Nat.not_lt.mpr hdata
    have hstuck : zbxUtf8CharLen ((scanFrom text data).at (scanFrom text data).data) = 0 := hstuck
    have hstep : (scanFrom text data).checkedStep csv text.length =
        some (csvError "invalid UTF-8 character in value".toList) := by
      rw [Scan.checkedStep, readCharLen_eq (show (scanFrom text data).data ≤ _ from hdata),
        Option.bind_some, hstuck]
      rfl
    have hstep' : (scanFrom text data).step csv =
        csvError "invalid UTF-8 character in value".toList := by
      rw [step_eq, if_pos hstuck]
      rfl
    rw [Scan.checkedLoop, Scan.loop, if_neg hnot, if_neg hnot, hstep, hstep']
    rfl

theorem startable_field {s : Scan}
    (hloop : (scanFrom text data).loop csv text.length (text.length + 1) = .ok s) :
    s.FieldWithin text.length := by
  obtain ⟨hdata, hplaced | hstuck⟩ := h
  · apply loop_field _ hplaced _ hloop
    intro p hp
    cases hp
  · have hnot : ¬text.length < (scanFrom text data).data := Nat.not_lt.mpr hdata
    have hstuck : zbxUtf8CharLen ((scanFrom text data).at (scanFrom text data).data) = 0 := hstuck
    rw [Scan.loop, if_neg hnot, step_eq, if_pos hstuck] at hloop
    cases hloop

theorem checkedConvert_eq : checkedConvert csv text data = some (convert csv text data) := by
  have hbyte : (scanFrom text data).readByte text.length data = some (charAt (text.drop data)) :=
    readByte_eq h.1
  rw [checkedConvert, convert, hbyte, Option.bind_some]
  split_ifs
  · rfl
  · rw [startable_loop h, Option.bind_some]
    cases hloop : (scanFrom text data).loop csv text.length (text.length + 1) with
    | error errmsg => rfl
    | ok s =>
      have hread : s.readField text.length = some s.fieldText :=
        readField_eq (startable_field h hloop)
      simp only [hread, Option.map_some, Except.bind]
      split_ifs <;> rfl

omit h

def IsParam (param : List Char) : Prop :=
  '\n' ∉ param ∧ (param = [] ∨ zbxUtf8CharLen param = param.length)

def ParamsAccepted (params : List Char) : Prop :=
  ∃ first second header, params = first ++ '\n' :: (second ++ '\n' :: header) ∧
    IsParam first ∧ IsParam second

variable {missing invalid : String} {params param : List Char}

theorem charParam_line (h : IsParam param) :
    ∃ c, charParam missing invalid (param ++ '\n' :: rest) = .ok (c, '\n' :: rest) := by
  obtain ⟨hline, rfl | hsize⟩ := h
  · exact ⟨none, rfl⟩
  · cases param with
    | nil => exact ⟨none, rfl⟩
    | cons b bytes =>
      have hpos : ∀ c ∈ b :: bytes, decide (c ≠ '\n') = true := by
        intro c hc
        rw [decide_eq_true_iff]
        rintro rfl
        exact hline hc
      have htake : (b :: bytes ++ '\n' :: rest).takeWhile (· ≠ '\n') = b :: bytes := by
        rw [List.takeWhile_append_of_pos hpos, List.takeWhile_cons_of_neg (by simp),
          List.append_nil]
      have hfirst : ¬charAt (b :: bytes ++ '\n' :: rest) = '\n' := by
        rintro rfl
        exact hline List.mem_cons_self
      have hlen : ¬(b :: bytes).length = (b :: bytes ++ '\n' :: rest).length := by
        rw [List.length_append, List.length_cons, List.length_cons]
        omega
      have hchar : zbxUtf8CharLen (b :: bytes ++ '\n' :: rest) = (b :: bytes).length := hsize
      have hgood : ¬((b :: bytes).length = 0 ∨ (b :: bytes).length ≠ (b :: bytes).length) := by
        rw [List.length_cons]
        omega
      refine ⟨some (b :: bytes), ?_⟩
      rw [charParam, if_neg hfirst]
      simp only [htake, hchar, if_neg hlen, if_neg hgood, List.take_left, List.drop_left]

theorem of_charParam {found : Option (List Char) × List Char}
    (h : charParam missing invalid params = .ok found) :
    ∃ param rest, params = param ++ '\n' :: rest ∧ found.2 = '\n' :: rest ∧ IsParam param := by
  rw [charParam] at h
  split_ifs at h with hfirst
  · obtain rfl := Except.ok.inj h
    cases params with
    | nil => cases hfirst
    | cons b rest =>
      obtain rfl : b = '\n' := hfirst
      exact ⟨[], rest, rfl, rfl, List.not_mem_nil, Or.inl rfl⟩
  · obtain ⟨param, hparam⟩ : ∃ param, param = params.takeWhile (· ≠ '\n') := ⟨_, rfl⟩
    simp only [← hparam] at h
    split_ifs at h with hlen hsize
    obtain rfl := Except.ok.inj h
    have hparams : param ++ params.dropWhile (· ≠ '\n') = params := by
      rw [hparam, List.takeWhile_append_dropWhile]
    have hend : params.dropWhile (· ≠ '\n') ≠ [] := by
      intro hnil
      rw [hnil, List.append_nil] at hparams
      exact hlen (congrArg List.length hparams)
    have hhead := List.head_dropWhile_not _ hend
    cases hdrop : params.dropWhile (· ≠ '\n') with
    | nil => exact absurd hdrop hend
    | cons b rest =>
      simp only [hdrop, List.head_cons] at hhead
      obtain rfl : b = '\n' := not_not.mp (of_decide_eq_false hhead)
      rw [hdrop] at hparams
      obtain ⟨-, hsize⟩ := not_or.mp hsize
      have hsize := not_not.mp hsize
      have hline : '\n' ∉ param := by
        intro hmem
        rw [hparam] at hmem
        have hne := List.mem_takeWhile_imp hmem
        exact of_decide_eq_true hne rfl
      refine ⟨param, rest, hparams.symm, ?_, hline, ?_⟩
      · change params.drop param.length = _
        rw [← hparams, List.drop_left]
      · cases param with
        | nil => exact Or.inl rfl
        | cons c bytes =>
          right
          rw [← hparams] at hsize
          exact hsize

theorem csvParameters_ok_iff : (∃ r, csvParameters params = .ok r) ↔ ParamsAccepted params := by
  constructor
  · intro h
    obtain ⟨r, h⟩ := h
    obtain ⟨first, hfirst, h⟩ := bind_eq_ok h
    obtain ⟨second, hsecond, -⟩ := map_eq_ok h
    obtain ⟨param, rest, hparams, htail, hparam⟩ := of_charParam hfirst
    obtain ⟨param', rest', hparams', -, hparam'⟩ := of_charParam hsecond
    rw [htail, List.tail_cons] at hparams'
    exact ⟨param, param', rest', by rw [hparams, hparams'], hparam, hparam'⟩
  · intro h
    obtain ⟨first, second, header, rfl, hfirst, hsecond⟩ := h
    obtain ⟨delim, hdelim⟩ := charParam_line hfirst
    obtain ⟨quote, hquote⟩ := charParam_line hsecond
    refine ⟨(delim, quote, '\n' :: header), ?_⟩
    rw [csvParameters, hdelim]
    exact congrArg (Except.map _) hquote

/-- The reads that leave the value: they are behind a separator line that ends with a carriage
return. -/
def Overreads (text params : List Char) : Prop := ParamsAccepted params ∧ EndsAtReturn text

/-- The conversion ends, and does not leave the value but behind such a line. -/
theorem checkedCsvToJson_iff (chars params : List Char) :
    ((checkedCsvToJson (encodeAll chars) params).isSome ↔ ¬Overreads (encodeAll chars) params) ∧
      ∀ r, checkedCsvToJson (encodeAll chars) params = some r →
        r = itemPreprocCsvToJson (encodeAll chars) params := by
  rw [itemPreprocCsvToJson_eq, checkedCsvToJson, Overreads, ← csvParameters_ok_iff]
  cases hparams : csvParameters params with
  | error errmsg =>
    refine ⟨⟨fun _ h => ?_, fun _ => rfl⟩, fun r h => (Option.some.inj h).symm⟩
    obtain ⟨⟨r, hr⟩, -⟩ := h
    cases hr
  | ok found =>
    obtain ⟨delim, quote, params⟩ := found
    have hdata : (sepLine (encodeAll chars)).elim 0 Prod.snd = tableStart (encodeAll chars) := rfl
    simp only [hdata]
    by_cases hreturn : EndsAtReturn (encodeAll chars)
    · -- the first read is behind the terminator
      have hnone (csv : Csv) :
          checkedConvert csv (encodeAll chars) (tableStart (encodeAll chars)) = none := by
        rw [tableStart_endsAtReturn hreturn, checkedConvert, Scan.readByte,
          if_neg (Nat.not_succ_le_self _)]
        rfl
      rw [hnone]
      refine ⟨⟨fun h => ?_, fun h => ?_⟩, fun r h => ?_⟩
      · cases h
      · exact absurd ⟨⟨_, rfl⟩, hreturn⟩ h
      · cases h
    · rw [checkedConvert_eq (startable_tableStart hreturn)]
      exact ⟨⟨fun _ h => hreturn h.2, fun _ => rfl⟩, fun r h => (Option.some.inj h).symm⟩

/-- A value that is such a line. -/
theorem checkedCsvToJson_overreads :
    checkedCsvToJson (encodeAll "sep=;\r".toList) "\n\n1".toList = none := by
  decide

end Zabbix.Preproc
