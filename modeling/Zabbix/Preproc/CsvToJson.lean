import Zabbix.Json.Builder

/-!
# CSV to JSON

`item_preproc_csv_to_json` of `item_preproc.c`. Pointers into the value are positions. The scanner
ends fields by writing zeros over the value, and `field` points either into the value or to what
`field_esc` points to.
-/

namespace Zabbix.Preproc

open Zabbix.Expr Zabbix.Json

def zbxUtf8CharLen (text : List Char) : ℕ :=
  let c := (charAt text).toNat
  if c &&& 0x80 = 0 then 1
  else if c &&& 0xe0 = 0xc0 then 2
  else if c &&& 0xf0 = 0xe0 then 3
  else if c &&& 0xf8 = 0xf0 then 4
  else 0

def growAllocated (need : ℕ) : ℕ → ℕ → ℕ
  | 0, allocated => allocated
  | fuel + 1, allocated =>
    if allocated < need then growAllocated need fuel (allocated * 2) else allocated

/-- `buffer_allocated` of a buffer that holds so many bytes and was made for
`ZBX_JSON_STAT_BUF_LEN`. -/
def bufferAllocated (size : ℕ) : ℕ := growAllocated (size + 1) 64 4096

def zbxMaxRecvDataSize : ℕ := 2 ^ 30

inductive CsvState
  | field
  | delim
  | fieldQuoted
  deriving DecidableEq

inductive FieldPtr
  | value (p : ℕ)
  | esc
  deriving DecidableEq

structure CsvTable where
  fldNum : ℕ
  fldNumMax : ℕ
  names : List (List Char)
  json : ZbxJson
  deriving DecidableEq

structure Scan where
  value : List Char
  data : ℕ
  state : CsvState
  field : Option FieldPtr
  fieldEsc : Option (List Char)
  table : CsvTable

/-- The parameters of the step; `quote` is empty when there is none. -/
structure Csv where
  delim : List Char
  quote : List Char
  hdrLine : Bool

def csvError {α : Type} (message : List Char) : Except (List Char) α :=
  .error ("cannot convert CSV to JSON: ".toList ++ message)

def CsvTable.addField (t : CsvTable) (field : Option (List Char)) (header : Bool) :
    Except (List Char) CsvTable :=
  if 0 < t.fldNumMax ∧ t.fldNumMax ≤ t.fldNum ∧ header then
    csvError "data row contains more fields than header row".toList
  else
    let field := field.getD []
    if t.fldNumMax = 0 ∧ header then
      let names := t.names.take t.fldNum
      if field ∈ names then csvError ("duplicated column name \"".toList ++ field ++ ['"'])
      else .ok { t with names := names ++ [field] }
    else
      let json := if t.fldNum = 0 then zbxJsonAddobject t.json none else t.json
      let name := if header then t.names.getD t.fldNum [] else Nat.toDigits 10 (t.fldNum + 1)
      let json := zbxJsonAddstring json (some name) (some field) .string
      if zbxMaxRecvDataSize ≤ bufferAllocated json.buffer.length then
        csvError "input data is too large".toList
      else .ok { t with json }

def CsvTable.fillRow (header : Bool) :
    ℕ → CsvTable → Option (List Char) → Except (List Char) CsvTable
  | 0, t, _ => .ok t
  | fuel + 1, t, field =>
    (t.addField field header).bind fun t =>
      let t := { t with fldNum := t.fldNum + 1 }
      if t.fldNum < t.fldNumMax ∧ header then CsvTable.fillRow header fuel t none else .ok t

def CsvTable.close (t : CsvTable) : CsvTable := { t with json := (zbxJsonClose t.json).getD t.json }

def CsvTable.endRow (t : CsvTable) (field : Option (List Char)) (header : Bool) :
    Except (List Char) CsvTable :=
  (t.fillRow header (t.fldNumMax + 1) field).map fun t =>
    { t with fldNumMax := max t.fldNum t.fldNumMax, fldNum := 0 }.close

def CsvTable.emptyRow (t : CsvTable) : CsvTable :=
  { t with json := zbxJsonAddobject t.json none }.close

def Scan.at (s : Scan) (p : ℕ) : List Char := s.value.drop p

def Scan.cut (s : Scan) (p : ℕ) : Scan := { s with value := s.value.set p '\x00' }

def Scan.fieldText (s : Scan) : Option (List Char) :=
  s.field.map fun
    | .value p => cString (s.at p)
    | .esc => s.fieldEsc.getD []

def Scan.startField (s : Scan) (table : CsvTable) : Scan :=
  { s with table, field := none, fieldEsc := none, state := .delim }

def Scan.endRow (s : Scan) (header : Bool) : Except (List Char) Scan :=
  if s.state = .field ∨ header ∨ s.table.fldNum ≠ 0 then
    let s := s.cut s.data
    (s.table.endRow s.fieldText header).map s.startField
  else .ok { s with table := s.table.emptyRow, state := .delim }

def Scan.atChar (s : Scan) (p step : ℕ) (character : List Char) : Prop :=
  step = character.length ∧ (s.at p).take step = character

instance (s : Scan) (p step : ℕ) (character : List Char) : Decidable (s.atChar p step character) :=
  inferInstanceAs (Decidable (_ ∧ _))

/-- A round of the loop outside quotes, but for the advance of `data`. -/
def Scan.plainStep (csv : Csv) (s : Scan) (step : ℕ) : Except (List Char) Scan :=
  let cr := charAt (s.at s.data) = '\r'
  let s := if cr then { s.cut s.data with data := s.data + 1 } else s
  let c := charAt (s.at s.data)
  if cr ∧ c ≠ '\n' ∧ c ≠ '\x00' then csvError "unsupported line break".toList
  else if c = '\n' ∨ c = '\x00' then s.endRow csv.hdrLine
  else if s.atChar s.data step csv.delim then
    let s := s.cut s.data
    (s.table.addField s.fieldText csv.hdrLine).map fun t =>
      s.startField { t with fldNum := t.fldNum + 1 }
  else if s.state = .delim ∧ s.atChar s.data step csv.quote then
    .ok { s with state := .fieldQuoted }
  else if s.state ≠ .field then .ok { s with field := some (.value s.data), state := .field }
  else .ok s

def Scan.quoteStep (csv : Csv) (s : Scan) : Except (List Char) Scan :=
  let next := s.data + csv.quote.length
  let size := zbxUtf8CharLen (s.at next)
  let c := charAt (s.at next)
  if size = 0 then .ok s
  else if s.atChar next size csv.quote then
    let s := if s.field = none then { s with field := some (.value s.data) } else s
    let s := s.cut next
    .ok
      { s with
        fieldEsc := some (s.fieldEsc.getD [] ++ s.fieldText.getD [])
        field := none
        data := next }
  else if c = '\r' ∨ c = '\n' ∨ c = '\x00' ∨ s.atChar next size csv.delim then
    let s := { s.cut s.data with state := .field }
    match s.fieldEsc with
    | none => .ok s
    | some esc => .ok { s with fieldEsc := some (esc ++ s.fieldText.getD []), field := some .esc }
  else
    -- the precision is the distance to a null pointer where the field is empty
    let field := (s.fieldText.getD "(null)".toList).take (s.data - match s.field with
      | some (.value p) => p
      | _ => 0)
    csvError ("delimiter character or end of line are not detected after quoted field \"".toList ++
      field ++ ['"'])

def Scan.step (csv : Csv) (s : Scan) : Except (List Char) Scan :=
  let step := zbxUtf8CharLen (s.at s.data)
  let next :=
    if step = 0 then csvError "invalid UTF-8 character in value".toList
    else if s.state ≠ .fieldQuoted then s.plainStep csv step
    else if s.atChar s.data step csv.quote then s.quoteStep csv
    else if s.field = none then .ok { s with field := some (.value s.data) }
    else .ok s
  next.map fun s => { s with data := s.data + step }

def Scan.loop (csv : Csv) (len : ℕ) : ℕ → Scan → Except (List Char) Scan
  | 0, s => .ok s
  | fuel + 1, s => if len < s.data then .ok s else (s.step csv).bind (Scan.loop csv len fuel)

/-- A parameter of one character before a line end; `none` where it is empty. -/
def charParam (missing invalid : String) (params : List Char) :
    Except (List Char) (Option (List Char) × List Char) :=
  if charAt params = '\n' then .ok (none, params)
  else
    let len := (params.takeWhile (· ≠ '\n')).length
    let size := zbxUtf8CharLen params
    if len = params.length then .error missing.toList
    else if size = 0 ∨ size ≠ len then .error invalid.toList
    else .ok (some (params.take size), params.drop len)

def sepLine (text : List Char) : Option (List Char × ℕ) :=
  if (text.take 4).map Char.toLower = ['s', 'e', 'p', '='] then
    let p := text.drop 4
    let line := p.takeWhile fun c => c ≠ '\r' ∧ c ≠ '\n'
    let size := zbxUtf8CharLen p
    if 0 < size ∧ size = line.length then
      let field := 4 + line.length
      let rest := text.drop field
      some (line, if rest = [] then field else if charAt rest = '\r' then field + 2 else field + 1)
    else none
  else none

def zbxJsonInitarray : ZbxJson :=
  zbxJsonAddarray { buffer := [], bufferOffset := 0, status := .empty, level := 0 } none

def itemPreprocCsvToJson (text params : List Char) : Except (List Char) (List Char) := do
  let (delim, params) ←
    charParam "cannot find second parameter" "invalid first parameter" params
  let (quote, params) ←
    charParam "cannot find third parameter" "invalid second parameter" params.tail
  let sep := sepLine text
  let csv : Csv :=
    { delim := delim.getD (sep.elim [','] Prod.fst)
      quote := quote.getD []
      hdrLine := charAt params.tail = '1' }
  let data := sep.elim 0 Prod.snd
  if charAt (text.drop data) = '\x00' then return zbxJsonInitarray.buffer
  let s : Scan :=
    { value := text
      data
      state := .delim
      field := none
      fieldEsc := none
      table := { fldNum := 0, fldNumMax := 0, names := [], json := zbxJsonInitarray } }
  let s ← s.loop csv text.length (text.length + 1)
  if s.state = .fieldQuoted then
    csvError ("unclosed quoted field \"".toList ++ s.fieldText.getD "(null)".toList ++ ['"'])
  else return s.table.json.buffer

end Zabbix.Preproc
