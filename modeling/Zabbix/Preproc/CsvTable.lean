import Zabbix.Json.Building
import Zabbix.Preproc.CsvScan

/-!
# Tables as JSON

The rows of a table become the objects of a JSON array, and the conversion of the text of a table
writes that array.
-/

namespace Zabbix.Preproc

open List Zabbix.Expr Zabbix.Json Zabbix.Utf8

def rowTexts (row : List Cell) : List (List Char) :=
  if row = [] then [[]] else row.map fun x => encodeAll x.text

def namedFields (names texts : List (List Char)) : List (List Char × List Char) :=
  names.zip (texts ++ List.replicate (names.length - texts.length) [])

/-- Texts under their numbers, from the one behind `num` on. -/
def numberedFields (num : ℕ) : List (List Char) → List (List Char × List Char)
  | [] => []
  | text :: texts => (Nat.toDigits 10 (num + 1), text) :: numberedFields (num + 1) texts

def objectOf (fields : List (List Char × List Char)) : Tree :=
  .node true (fields.map fun field => (some field.1, .string field.2))

def arrayOf (objects : List Tree) : Tree := .node false (objects.map fun object => (none, object))

def BlankRow (row : List Cell) : Prop := row = [] ∨ row = [⟨[], false⟩]

instance (row : List Cell) : Decidable (BlankRow row) := inferInstanceAs (Decidable (_ ∨ _))

def rowFields (header : Bool) (names : List (List Char)) (row : List Cell) :
    List (List Char × List Char) :=
  if header then namedFields names (rowTexts row)
  else if BlankRow row then []
  else numberedFields 0 (rowTexts row)

def tableObjects : Bool → List (List Cell) → List Tree
  | true, [] => []
  | true, names :: rows => rows.map fun row => objectOf (rowFields true (rowTexts names) row)
  | false, rows =>
    if rows.length ≤ 1 ∧ ∀ row ∈ rows, BlankRow row then []
    else rows.map fun row => objectOf (rowFields false [] row)

variable {j : ZbxJson} {o : Opened} {op : Op} {ops ops' : List Op}

theorem le_growAllocated (need : ℕ) : ∀ fuel allocated : ℕ,
    allocated ≤ growAllocated need fuel allocated
  | 0, _ => Nat.le_refl _
  | fuel + 1, allocated => by
    unfold growAllocated
    split_ifs
    · exact Nat.le_trans (by omega) (le_growAllocated need fuel (allocated * 2))
    · exact Nat.le_refl _

theorem growAllocated_mono {need need' : ℕ} (h : need ≤ need') : ∀ fuel allocated : ℕ,
    growAllocated need fuel allocated ≤ growAllocated need' fuel allocated
  | 0, _ => Nat.le_refl _
  | fuel + 1, allocated => by
    unfold growAllocated
    by_cases hneed : allocated < need
    · rw [if_pos hneed, if_pos (Nat.lt_of_lt_of_le hneed h)]
      exact growAllocated_mono h fuel (allocated * 2)
    · rw [if_neg hneed]
      exact le_growAllocated need' (fuel + 1) allocated

def Fits (j : ZbxJson) : Prop := bufferAllocated j.buffer.length < zbxMaxRecvDataSize

theorem Fits.of_le {j' : ZbxJson} (h : Fits j') (hle : j.buffer.length ≤ j'.buffer.length) :
    Fits j :=
  Nat.lt_of_le_of_lt (growAllocated_mono (Nat.succ_le_succ hle) 64 4096) h

theorem length_le_apply (h : Holds j o) (hproper : o.Proper op) :
    j.buffer.length ≤ (op.apply j).buffer.length := by
  have hwrite : ∀ {len : ℕ} {text : List Char}, len = text.length →
      j.buffer.length ≤ (writeAt (moveEnd j len) j.bufferOffset text).length := by
    intro len text hlen
    rw [h.writeAt_eq hlen, h.buffer, length_append, length_append, length_append]
    omega
  have hcontainer : ∀ (name : Option (List Char)) (object : Bool),
      j.buffer.length ≤ (addContainer j name object).buffer.length := by
    intro name object
    apply hwrite
    rw [startLen_eq]
    cases object <;> simp <;> omega
  have hstring : ∀ (name string : Option (List Char)) (type : JsonType),
      j.buffer.length ≤ (zbxJsonAddstring j name string type).buffer.length := by
    intro name string type
    apply hwrite
    rw [startLen_eq, stringsize_eq, length_append]
  cases op with
  | addobject name => exact hcontainer name true
  | addarray name => exact hcontainer name false
  | addstring name string => exact hstring name (some string) .string
  | adduint64 name value => exact hstring name _ .int
  | close =>
    unfold Op.apply zbxJsonClose
    split_ifs <;> exact Nat.le_refl _

/-- What the builder is going to do, and that its buffer stays within the limit. -/
structure Building (j : ZbxJson) (o : Opened) (ops : List Op) : Prop where
  holds : Holds j o
  proper : ProperRun o ops
  fits : Fits (ops.foldl Op.apply j)

namespace Building

theorem tail (h : Building j o (op :: ops)) : Building (op.apply j) (o.step op) ops :=
  ⟨h.holds.step h.proper.1, h.proper.2, h.fits⟩

theorem fits_start (h : Building j o ops) : Fits j := by
  induction ops generalizing j o with
  | nil => exact h.fits
  | cons op ops ih => exact (ih h.tail).of_le (length_le_apply h.holds h.proper.1)

theorem append (h : Building j o (ops ++ ops')) :
    Building (ops.foldl Op.apply j) (ops.foldl Opened.step o) ops' := by
  induction ops generalizing j o with
  | nil => exact h
  | cons op ops ih => exact ih h.tail

end Building

def fieldOp (field : List Char × List Char) : Op := .addstring (some field.1) field.2

def openOps (num : ℕ) : List Op := if num = 0 then [.addobject none] else []

def fieldsFrom (header : Bool) (names : List (List Char)) (num : ℕ) (texts : List (List Char)) :
    List (List Char × List Char) :=
  if header then namedFields (names.drop num) texts else numberedFields num texts

structure Columns (header : Bool) (names : List (List Char)) (t : CsvTable) : Prop where
  known : header = true → t.names = names
  count : header = true → t.fldNumMax = names.length

variable {header : Bool} {names texts : List (List Char)} {text : List Char} {t : CsvTable}
  {row : List Cell} {num : ℕ}

def nameAt (header : Bool) (names : List (List Char)) (num : ℕ) : List Char :=
  if header then names.getD num [] else Nat.toDigits 10 (num + 1)

theorem fieldsFrom_cons (hnum : header = true → num < names.length) :
    fieldsFrom header names num (text :: texts) =
      (nameAt header names num, text) :: fieldsFrom header names (num + 1) texts := by
  cases header with
  | false => rfl
  | true =>
    have hnum := hnum rfl
    have hdrop : names.drop num = names.getD num [] :: names.drop (num + 1) := by
      rw [getD_eq_getElem?_getD, List.getElem?_eq_getElem hnum, Option.getD_some,
        drop_eq_getElem_cons hnum]
    simp only [fieldsFrom, if_true, nameAt, namedFields, hdrop, cons_append, zip_cons_cons,
      length_cons, Nat.add_sub_add_right]

def addOps (num : ℕ) (fields : List (List Char × List Char)) : List Op :=
  openOps num ++ fields.map fieldOp

theorem addOps_cons (num : ℕ) (field : List Char × List Char)
    (fields : List (List Char × List Char)) :
    addOps num (field :: fields) = addOps num [field] ++ addOps (num + 1) fields := by
  unfold addOps openOps
  rw [if_neg (Nat.succ_ne_zero num), map_cons, map_singleton, append_assoc]
  rfl

theorem addField_data (hcols : Columns header names t)
    (hnum : header = true → t.fldNum < names.length)
    (h : Building t.json o (addOps t.fldNum [(nameAt header names t.fldNum, text)] ++ ops)) :
    t.addField (some text) header = .ok
      { t with
        json := (addOps t.fldNum [(nameAt header names t.fldNum, text)]).foldl Op.apply t.json } := by
  have hmany : ¬(0 < t.fldNumMax ∧ t.fldNumMax ≤ t.fldNum ∧ header = true) := by
    rintro ⟨-, hle, hheader⟩
    rw [hcols.count hheader] at hle
    exact absurd (hnum hheader) (Nat.not_lt.mpr hle)
  have hhead : ¬(t.fldNumMax = 0 ∧ header = true) := by
    rintro ⟨hzero, hheader⟩
    rw [hcols.count hheader] at hzero
    exact absurd (hnum hheader) (by omega)
  have hname : (if header = true then t.names.getD t.fldNum [] else Nat.toDigits 10 (t.fldNum + 1)) =
      nameAt header names t.fldNum := by
    unfold nameAt
    cases header with
    | false => rfl
    | true => rw [hcols.known rfl]
  have hjson : (addOps t.fldNum [(nameAt header names t.fldNum, text)]).foldl Op.apply t.json =
      zbxJsonAddstring (if t.fldNum = 0 then zbxJsonAddobject t.json none else t.json)
        (some (nameAt header names t.fldNum)) (some text) .string := by
    unfold addOps openOps
    split_ifs <;> rfl
  have hfits := h.append.fits_start
  unfold Fits at hfits
  rw [hjson] at hfits ⊢
  unfold CsvTable.addField
  rw [if_neg hmany]
  simp only [if_neg hhead, hname, Option.getD_some]
  rw [if_neg (Nat.not_le.mpr hfits)]

theorem Columns.next (h : Columns header names t) (j : ZbxJson) (num : ℕ) :
    Columns header names { t with json := j, fldNum := num } :=
  ⟨h.known, h.count⟩

theorem fieldsFrom_nil (h : ¬(num < names.length ∧ header = true)) :
    fieldsFrom header names num [] = [] := by
  cases header with
  | false => rfl
  | true =>
    have hdrop : names.drop num = [] := drop_eq_nil_of_le (by simpa using h)
    simp only [fieldsFrom, if_true, namedFields, hdrop, zip_nil_left]

theorem fieldsFrom_missing (h : num < names.length ∧ header = true) :
    fieldsFrom header names num [] = fieldsFrom header names num [[]] := by
  obtain ⟨h, rfl⟩ := h
  have hlength : (names.drop num).length = (names.drop num).length - 1 + 1 := by
    rw [length_drop]
    omega
  simp only [fieldsFrom, if_true, namedFields, nil_append, length_nil, Nat.sub_zero,
    length_singleton]
  rw [hlength, replicate_succ, Nat.add_sub_cancel]
  rfl

theorem fillRow_data :
    ∀ (fuel : ℕ) {t : CsvTable} {o : Opened} {text : List Char}, Columns header names t →
      (header = true → t.fldNum < names.length) →
      (header = true → names.length ≤ t.fldNum + 1 + fuel) →
      Building t.json o (addOps t.fldNum (fieldsFrom header names t.fldNum [text]) ++ ops) →
      ∃ u, t.fillRow header (fuel + 1) (some text) = .ok u ∧ Columns header names u ∧
        (header = true → u.fldNum = names.length) ∧
        u.json = (addOps t.fldNum (fieldsFrom header names t.fldNum [text])).foldl
          Op.apply t.json
  | fuel, t, o, text, hcols, hnum, hfuel, h => by
    rw [fieldsFrom_cons hnum, addOps_cons] at h ⊢
    rw [append_assoc] at h
    have hadd := addField_data hcols hnum h
    have hbuilding := h.append
    have hnext := hcols.next
      ((addOps t.fldNum [(nameAt header names t.fldNum, text)]).foldl Op.apply t.json) (t.fldNum + 1)
    have hmore : (t.fldNum + 1 < t.fldNumMax ∧ header = true) ↔
        (t.fldNum + 1 < names.length ∧ header = true) :=
      and_congr_left fun hheader => by rw [hcols.count hheader]
    unfold CsvTable.fillRow
    rw [hadd, Except.bind]
    by_cases hlast : t.fldNum + 1 < names.length ∧ header = true
    · simp only [if_pos (hmore.mpr hlast)]
      cases fuel with
      | zero => exact absurd (hfuel hlast.2) (Nat.not_le.mpr hlast.1)
      | succ fuel =>
        rw [fieldsFrom_missing hlast] at hbuilding ⊢
        obtain ⟨u, hu, hcols, hend, hjson⟩ := fillRow_data fuel hnext (fun _ => hlast.1)
          (fun hheader => by have := hfuel hheader; simp only; omega) hbuilding
        refine ⟨u, hu, hcols, hend, ?_⟩
        rw [hjson, foldl_append]
    · simp only [if_neg (mt hmore.mp hlast)]
      refine ⟨_, rfl, hnext, fun hheader => ?_, ?_⟩
      · have hlt := hnum hheader
        have hle : ¬t.fldNum + 1 < names.length := fun hlt => hlast ⟨hlt, hheader⟩
        simp only
        omega
      · rw [fieldsFrom_nil hlast, show addOps (t.fldNum + 1) [] = [] from rfl, append_nil]

theorem endRow_data (hcols : Columns header names t)
    (hnum : header = true → t.fldNum < names.length)
    (h : Building t.json o
      (addOps t.fldNum (fieldsFrom header names t.fldNum [text]) ++ Op.close :: ops)) :
    ∃ u, t.endRow (some text) header = .ok u ∧ Columns header names u ∧ u.fldNum = 0 ∧
      u.json = (addOps t.fldNum (fieldsFrom header names t.fldNum [text]) ++ [Op.close]).foldl
        Op.apply t.json := by
  obtain ⟨u, hu, hnext, hend, hjson⟩ := fillRow_data t.fldNumMax hcols hnum
    (fun hheader => by rw [hcols.count hheader]; omega) h
  refine ⟨{ u with fldNumMax := max u.fldNum u.fldNumMax, fldNum := 0 }.close, ?_,
    ⟨hnext.known, fun hheader => ?_⟩, rfl, ?_⟩
  · unfold CsvTable.endRow
    rw [hu]
    rfl
  · change max u.fldNum u.fldNumMax = names.length
    rw [hend hheader, hnext.count hheader, Nat.max_self]
  · rw [foldl_append, ← hjson]
    rfl

theorem lastCell_data {x : Cell} (hadd : ¬x.Blank ∨ header = true ∨ t.fldNum ≠ 0)
    (hcols : Columns header names t) (hnum : header = true → t.fldNum < names.length)
    (h : Building t.json o
      (addOps t.fldNum (fieldsFrom header names t.fldNum (rowTexts [x])) ++ Op.close :: ops)) :
    ∃ u, t.lastCell header x = .ok u ∧ Columns header names u ∧ u.fldNum = 0 ∧
      u.json = (addOps t.fldNum (fieldsFrom header names t.fldNum (rowTexts [x])) ++
        [Op.close]).foldl Op.apply t.json := by
  unfold CsvTable.lastCell
  rw [if_pos hadd]
  exact endRow_data hcols hnum h

theorem blankRow_singleton {x : Cell} : BlankRow [x] ↔ x.Blank := by
  obtain ⟨text, quoted⟩ := x
  simp [BlankRow, Cell.Blank]

theorem addRow_data :
    ∀ (row : List Cell) {t : CsvTable} {o : Opened},
      (¬BlankRow row ∨ header = true ∨ t.fldNum ≠ 0) → Columns header names t →
      (header = true → t.fldNum + (rowTexts row).length ≤ names.length) →
      Building t.json o
        (addOps t.fldNum (fieldsFrom header names t.fldNum (rowTexts row)) ++ Op.close :: ops) →
      ∃ u, t.addRow header row = .ok u ∧ Columns header names u ∧ u.fldNum = 0 ∧
        u.json = (addOps t.fldNum (fieldsFrom header names t.fldNum (rowTexts row)) ++
          [Op.close]).foldl Op.apply t.json
  | [], t, o, hadd, hcols, hlen, h => by
    have hadd := hadd.resolve_left (not_not.mpr (.inl rfl))
    exact lastCell_data (x := ⟨[], false⟩) (.inr hadd) hcols hlen h
  | [x], t, o, hadd, hcols, hlen, h =>
    lastCell_data (hadd.imp_left (mt blankRow_singleton.mpr)) hcols hlen h
  | x :: y :: row, t, o, hadd, hcols, hlen, h => by
    have htexts : rowTexts (x :: y :: row) = encodeAll x.text :: rowTexts (y :: row) := rfl
    have hnum : header = true → t.fldNum < names.length := fun hheader => by
      have hlen := hlen hheader
      rw [htexts, length_cons] at hlen
      omega
    rw [htexts, fieldsFrom_cons hnum, addOps_cons] at h ⊢
    rw [append_assoc] at h
    have hstep := addField_data hcols hnum h
    have hnext := hcols.next
      ((addOps t.fldNum [(nameAt header names t.fldNum, encodeAll x.text)]).foldl Op.apply t.json)
      (t.fldNum + 1)
    obtain ⟨u, hu, hcols, hzero, hjson⟩ := addRow_data (y :: row)
      (.inr (.inr (Nat.succ_ne_zero t.fldNum))) hnext
      (fun hheader => by have := hlen hheader; rw [htexts, length_cons] at this; simp only; omega)
      h.append
    refine ⟨u, ?_, hcols, hzero, ?_⟩
    · rw [CsvTable.addRow, CsvTable.addCell, hstep]
      exact hu
    · rw [hjson, ← foldl_append, append_assoc]

def rowOps (fields : List (List Char × List Char)) : List Op :=
  .addobject none :: (fields.map fieldOp ++ [.close])

theorem addRow_row (hcols : Columns header names t) (hzero : t.fldNum = 0)
    (hlen : header = true → (rowTexts row).length ≤ names.length)
    (h : Building t.json o (rowOps (rowFields header names row) ++ ops)) :
    ∃ u, t.addRow header row = .ok u ∧ Columns header names u ∧ u.fldNum = 0 ∧
      u.json = (rowOps (rowFields header names row)).foldl Op.apply t.json := by
  by_cases hadd : ¬BlankRow row ∨ header = true
  · have hfields : rowFields header names row = fieldsFrom header names 0 (rowTexts row) := by
      unfold rowFields fieldsFrom
      cases header with
      | true => rfl
      | false =>
        rw [if_neg (hadd.resolve_right Bool.false_ne_true)]
        rfl
    have hops : rowOps (rowFields header names row) =
        addOps t.fldNum (fieldsFrom header names t.fldNum (rowTexts row)) ++ [Op.close] := by
      rw [hfields, hzero]
      rfl
    rw [hops] at h ⊢
    rw [append_assoc] at h
    have hlen : header = true → t.fldNum + (rowTexts row).length ≤ names.length := by
      rwa [hzero, Nat.zero_add]
    exact addRow_data row (hadd.imp_right .inl) hcols hlen h
  · obtain ⟨hblank, hheader⟩ := not_or.mp hadd
    have hblank := not_not.mp hblank
    have hrow : t.addRow header row = .ok t.emptyRow := by
      have hlast : t.lastCell header ⟨[], false⟩ = .ok t.emptyRow :=
        if_neg (by simp [Cell.Blank, hheader, hzero])
      obtain rfl | rfl := hblank
      · exact hlast
      · exact hlast
    have hfields : rowFields header names row = [] := by
      unfold rowFields
      rw [if_neg hheader, if_pos hblank]
    rw [hfields]
    exact ⟨t.emptyRow, hrow, ⟨hcols.known, hcols.count⟩, hzero, rfl⟩

theorem addRows (hcols : Columns header names t) (hzero : t.fldNum = 0) {rows : List (List Cell)}
    (hlen : header = true → ∀ row ∈ rows, (rowTexts row).length ≤ names.length)
    (h : Building t.json o (rows.flatMap fun row => rowOps (rowFields header names row))) :
    ∃ u, rows.foldlM (CsvTable.addRow header) t = .ok u ∧
      u.json = (rows.flatMap fun row => rowOps (rowFields header names row)).foldl
        Op.apply t.json := by
  induction rows generalizing t o with
  | nil => exact ⟨t, rfl, rfl⟩
  | cons row rows ih =>
    rw [flatMap_cons] at h ⊢
    obtain ⟨u, hu, hcols, hzero, hjson⟩ :=
      addRow_row hcols hzero (fun hheader => hlen hheader row mem_cons_self) h
    have hrest := h.append
    rw [← hjson] at hrest
    obtain ⟨v, hv, hend⟩ := ih hcols hzero
      (fun hheader row hrow => hlen hheader row (mem_cons_of_mem _ hrow)) hrest
    refine ⟨v, ?_, ?_⟩
    · rw [foldlM_cons, hu]
      exact hv
    · rw [hend, hjson, foldl_append]

theorem addField_header (hcount : t.fldNumMax = 0) (hnames : t.names.length = t.fldNum)
    (hnew : text ∉ t.names) :
    t.addField (some text) true = .ok { t with names := t.names ++ [text] } := by
  unfold CsvTable.addField
  rw [if_neg (by omega), if_pos ⟨hcount, rfl⟩, ← hnames, take_length]
  exact if_neg hnew

theorem lastCell_header {x : Cell} (hcount : t.fldNumMax = 0) (hnames : t.names.length = t.fldNum)
    (hnew : encodeAll x.text ∉ t.names) (hlevel : t.json.level = 1) :
    t.lastCell true x = .ok
      { t with
        names := t.names ++ [encodeAll x.text]
        fldNum := 0
        fldNumMax := t.fldNum + 1 } := by
  have hclose : (zbxJsonClose t.json).getD t.json = t.json := by
    unfold zbxJsonClose
    rw [if_pos hlevel]
    rfl
  unfold CsvTable.lastCell
  rw [if_pos (.inr (.inl rfl)), CsvTable.endRow, hcount, CsvTable.fillRow,
    addField_header hcount hnames hnew, Except.bind]
  simp only [hcount, Nat.not_lt_zero, false_and, if_false, Except.map, CsvTable.close, hclose,
    Nat.max_zero]

theorem addRow_lastHeader {x : Cell} (hcount : t.fldNumMax = 0)
    (hnames : t.names.length = t.fldNum) (hnodup : (t.names ++ [encodeAll x.text]).Nodup)
    (hlevel : t.json.level = 1) :
    ∃ u, t.lastCell true x = .ok u ∧ u.names = t.names ++ [encodeAll x.text] ∧ u.fldNum = 0 ∧
      u.fldNumMax = u.names.length ∧ u.json = t.json := by
  have hnew : encodeAll x.text ∉ t.names := fun hmem =>
    disjoint_of_nodup_append hnodup hmem (mem_singleton_self _)
  refine ⟨_, lastCell_header hcount hnames hnew hlevel, rfl, rfl, ?_, rfl⟩
  rw [length_append, hnames]
  rfl

theorem addRow_header :
    ∀ (row : List Cell) {t : CsvTable}, t.fldNumMax = 0 → t.names.length = t.fldNum →
      (t.names ++ rowTexts row).Nodup → t.json.level = 1 →
      ∃ u, t.addRow true row = .ok u ∧ u.names = t.names ++ rowTexts row ∧ u.fldNum = 0 ∧
        u.fldNumMax = u.names.length ∧ u.json = t.json
  | [], _, hcount, hnames, hnodup, hlevel =>
    addRow_lastHeader (x := ⟨[], false⟩) hcount hnames hnodup hlevel
  | [x], _, hcount, hnames, hnodup, hlevel => addRow_lastHeader (x := x) hcount hnames hnodup hlevel
  | x :: y :: row, t, hcount, hnames, hnodup, hlevel => by
    have htexts : t.names ++ rowTexts (x :: y :: row) =
        (t.names ++ [encodeAll x.text]) ++ rowTexts (y :: row) :=
      (append_assoc t.names [_] (rowTexts (y :: row))).symm
    rw [htexts] at hnodup ⊢
    have hnew : encodeAll x.text ∉ t.names := fun hmem =>
      disjoint_of_nodup_append hnodup.of_append_left hmem (mem_singleton_self _)
    let next : CsvTable :=
      { t with names := t.names ++ [encodeAll x.text], fldNum := t.fldNum + 1 }
    have hstep : t.addCell true x = .ok next := by
      rw [CsvTable.addCell, addField_header hcount hnames hnew]
      rfl
    have hlength : next.names.length = next.fldNum := by
      change (t.names ++ [encodeAll x.text]).length = t.fldNum + 1
      rw [length_append, hnames, length_singleton]
    obtain ⟨u, hu, hend⟩ := addRow_header (y :: row) (t := next) hcount hlength hnodup hlevel
    refine ⟨u, ?_, hend⟩
    rw [CsvTable.addRow, hstep]
    exact hu

def arrayOpened (objects : List Tree) : Opened where
  top := { object := false, name := none, children := objects.map fun object => (none, object) }
  outer := []

theorem holds_initarray : Holds zbxJsonInitarray (arrayOpened []) := by constructor <;> rfl

theorem fields_step (fields : List (List Char × List Char)) (top : Frame) (outer : List Frame) :
    (fields.map fieldOp).foldl Opened.step ⟨top, outer⟩ =
      ⟨{ top with
          children := top.children ++ fields.map fun field => (some field.1, .string field.2) },
        outer⟩ := by
  induction fields generalizing top with
  | nil => rw [map_nil, map_nil, append_nil, foldl_nil]
  | cons field fields ih =>
    rw [map_cons, foldl_cons]
    refine (ih _).trans ?_
    simp [Frame.add]

theorem rowOps_step (objects : List Tree) (fields : List (List Char × List Char)) :
    (rowOps fields).foldl Opened.step (arrayOpened objects) =
      arrayOpened (objects ++ [objectOf fields]) := by
  unfold rowOps
  rw [foldl_cons, foldl_append]
  have hfields := fields_step fields ⟨true, none, []⟩ [(arrayOpened objects).top]
  rw [show (arrayOpened objects).step (.addobject none) =
    ⟨⟨true, none, []⟩, [(arrayOpened objects).top]⟩ from rfl, hfields]
  simp [arrayOpened, Opened.step, Frame.add, Frame.close, objectOf]

def ZeroFree (fields : List (List Char × List Char)) : Prop :=
  ∀ field ∈ fields, '\x00' ∉ field.1 ∧ '\x00' ∉ field.2

theorem fields_proper {fields : List (List Char × List Char)} {top : Frame} {outer : List Frame}
    (hobject : top.object = true) (hdepth : outer.length ≤ zbxMaxJsonDepth)
    (hzero : ZeroFree fields) (hops : ProperRun ((fields.map fieldOp).foldl Opened.step ⟨top, outer⟩) ops) :
    ProperRun ⟨top, outer⟩ (fields.map fieldOp ++ ops) := by
  induction fields generalizing top with
  | nil => exact hops
  | cons field fields ih =>
    obtain ⟨hfield, hzero⟩ := forall_mem_cons.mp hzero
    refine ⟨⟨⟨hobject.symm, ?_, hdepth⟩, hfield.2⟩, ih hobject hzero hops⟩
    exact fun s hs => Option.some_inj.mp hs ▸ hfield.1

theorem rowOps_proper {fields : List (List Char × List Char)} {objects : List Tree}
    (hzero : ZeroFree fields)
    (hops : ProperRun (arrayOpened (objects ++ [objectOf fields])) ops) :
    ProperRun (arrayOpened objects) (rowOps fields ++ ops) := by
  have hadmits : (arrayOpened objects).Admits none := ⟨rfl, (fun s hs => nomatch hs), Nat.zero_le _⟩
  have hstep := rowOps_step objects fields
  unfold rowOps at hstep ⊢
  rw [cons_append, append_assoc]
  have hdepth : [(arrayOpened objects).top].length ≤ zbxMaxJsonDepth := Nat.le_add_left 1 63
  refine ⟨hadmits, fields_proper rfl hdepth hzero ⟨trivial, ?_⟩⟩
  rw [foldl_cons, foldl_append] at hstep
  rw [← hstep] at hops
  exact hops

variable {objects : List Tree} {rows : List (List Cell)} {eol : List Char} {delim quote : Char}

theorem rows_step (f : List Cell → List (List Char × List Char)) (objects : List Tree)
    (rows : List (List Cell)) :
    (rows.flatMap fun row => rowOps (f row)).foldl Opened.step (arrayOpened objects) =
      arrayOpened (objects ++ rows.map fun row => objectOf (f row)) := by
  induction rows generalizing objects with
  | nil => rw [map_nil, append_nil]; rfl
  | cons row rows ih =>
    rw [flatMap_cons, foldl_append, rowOps_step, ih, append_assoc]
    rfl

theorem rows_proper {f : List Cell → List (List Char × List Char)} {objects : List Tree}
    (hzero : ∀ row ∈ rows, ZeroFree (f row)) :
    ProperRun (arrayOpened objects) (rows.flatMap fun row => rowOps (f row)) := by
  induction rows generalizing objects with
  | nil => trivial
  | cons row rows ih =>
    obtain ⟨hrow, hzero⟩ := forall_mem_cons.mp hzero
    rw [flatMap_cons]
    exact rowOps_proper hrow (ih hzero)

theorem toDigits_zero (n : ℕ) : '\x00' ∉ Nat.toDigits 10 n := by
  intro hmem
  have hdigit := mem_kstar_oneOf.mp (int_digits (toDigits_mem_int n)).1 _ hmem
  exact absurd hdigit (by decide)

theorem numberedFields_zero (htexts : ∀ text ∈ texts, '\x00' ∉ text) :
    ZeroFree (numberedFields num texts) := by
  induction texts generalizing num with
  | nil => exact forall_mem_nil _
  | cons text texts ih =>
    obtain ⟨htext, htexts⟩ := forall_mem_cons.mp htexts
    exact forall_mem_cons.mpr ⟨⟨toDigits_zero _, htext⟩, ih htexts⟩

theorem namedFields_zero (hnames : ∀ name ∈ names, '\x00' ∉ name)
    (htexts : ∀ text ∈ texts, '\x00' ∉ text) : ZeroFree (namedFields names texts) := by
  rintro ⟨name, text⟩ hfield
  obtain ⟨hname, htext⟩ := of_mem_zip hfield
  refine ⟨hnames name hname, ?_⟩
  obtain htext | htext := mem_append.mp htext
  · exact htexts text htext
  · rw [eq_of_mem_replicate htext]
    exact not_mem_nil

theorem rowTexts_zero (hrow : ∀ x ∈ row, x.Proper delim quote) :
    ∀ text ∈ rowTexts row, '\x00' ∉ text := by
  unfold rowTexts
  split_ifs with hnil
  · simp
  · intro text htext
    obtain ⟨x, hx, rfl⟩ := mem_map.mp htext
    rw [mem_encodeAll_iff (by decide)]
    exact (hrow x hx).1

theorem rowFields_zero (hnames : header = true → ∀ name ∈ names, '\x00' ∉ name)
    (hrow : ∀ x ∈ row, x.Proper delim quote) : ZeroFree (rowFields header names row) := by
  unfold rowFields
  split_ifs with hheader hblank
  · exact namedFields_zero (hnames hheader) (rowTexts_zero hrow)
  · exact forall_mem_nil _
  · exact numberedFields_zero (rowTexts_zero hrow)

theorem addRows_array (hcols : Columns header names t) (hzero : t.fldNum = 0)
    (hjson : t.json = zbxJsonInitarray)
    (hlen : header = true → ∀ row ∈ rows, (rowTexts row).length ≤ names.length)
    (hnames : header = true → ∀ name ∈ names, '\x00' ∉ name)
    (hproper : ∀ row ∈ rows, ∀ x ∈ row, x.Proper delim quote)
    (hsize : bufferAllocated
      (arrayOf (rows.map fun row => objectOf (rowFields header names row))).render.length <
        zbxMaxRecvDataSize) :
    ∃ u, rows.foldlM (CsvTable.addRow header) t = .ok u ∧
      u.json.buffer = (arrayOf (rows.map fun row => objectOf (rowFields header names row))).render := by
  have hrun : ProperRun (arrayOpened []) (rows.flatMap fun row =>
      rowOps (rowFields header names row)) :=
    rows_proper fun row hrow => rowFields_zero hnames (hproper row hrow)
  have hbuffer : ((rows.flatMap fun row => rowOps (rowFields header names row)).foldl Op.apply
      t.json).buffer =
        (arrayOf (rows.map fun row => objectOf (rowFields header names row))).render := by
    rw [hjson, (holds_initarray.run hrun).buffer, text_closeAll, rows_step]
    rfl
  have hfits : Fits ((rows.flatMap fun row => rowOps (rowFields header names row)).foldl Op.apply
      t.json) := by
    unfold Fits
    rwa [hbuffer]
  have hbuilding : Building t.json (arrayOpened []) _ := ⟨hjson ▸ holds_initarray, hrun, hfits⟩
  obtain ⟨u, hu, hend⟩ := addRows hcols hzero hlen hbuilding
  exact ⟨u, hu, by rw [hend, hbuffer]⟩

def HeaderFits : List (List Cell) → Prop
  | [] => True
  | names :: rows => names ≠ [] ∧ (names.map Cell.text).Nodup ∧
      ∀ row ∈ rows, row.length ≤ names.length

def csvParams (delim quote : Char) (header : Bool) : List Char :=
  encode delim ++ '\n' :: (encode quote ++ ['\n', if header then '1' else '0'])

theorem encodeAll_injective : Function.Injective encodeAll := by
  intro text
  induction text with
  | nil =>
    intro text' h
    cases text' with
    | nil => rfl
    | cons d text' => exact absurd (append_eq_nil_iff.mp h.symm).1 (encode_ne_nil d)
  | cons c text ih =>
    intro text' h
    cases text' with
    | nil => exact absurd (append_eq_nil_iff.mp h).1 (encode_ne_nil c)
    | cons d text' =>
      rw [encodeAll_cons, encodeAll_cons] at h
      have hlength := congrArg zbxUtf8CharLen h
      rw [zbxUtf8CharLen_encode, zbxUtf8CharLen_encode] at hlength
      obtain ⟨hc, htext⟩ := append_inj h hlength
      rw [encode_injective hc, ih htext]

theorem charParam_encode {missing invalid : String} {c : Char} {params : List Char} (hc : c ≠ '\n') :
    charParam missing invalid (encode c ++ '\n' :: params) = .ok (some (encode c), '\n' :: params) := by
  have hline : ∀ b ∈ encode c, decide (b ≠ '\n') = true := fun b hb => by
    rw [decide_eq_true_iff]
    rintro rfl
    exact hc ((mem_encode_iff (by decide)).mp hb)
  have htake : (encode c ++ '\n' :: params).takeWhile (· ≠ '\n') = encode c := by
    rw [takeWhile_append_of_pos hline, takeWhile_cons_of_neg (by simp), append_nil]
  have hpos := length_encode_pos c
  unfold charParam
  rw [if_neg (mt (charAt_encode_iff (by decide)).mp hc), htake, zbxUtf8CharLen_encode]
  have hlen : (encode c).length ≠ (encode c ++ '\n' :: params).length := by
    rw [length_append, length_cons]
    omega
  have hsize : ¬((encode c).length = 0 ∨ (encode c).length ≠ (encode c).length) := by omega
  simp only [if_neg hlen, if_neg hsize, take_left, drop_left]

theorem render_zero {x : Cell} (hsep : Separators delim quote) (hx : x.Proper delim quote) :
    '\x00' ∉ x.render quote := by
  have hquote := hsep.quote_line.2.2.symm
  have hdoubled : '\x00' ∉ doubled quote x.text := by
    unfold doubled
    rw [mem_flatMap]
    rintro ⟨c, hc, hmem⟩
    have hzero : '\x00' = c := by split_ifs at hmem <;> simpa using hmem
    exact hx.1 (hzero ▸ hc)
  unfold Cell.render
  split_ifs with hquoted
  · simp [hquote, hdoubled]
  · exact hx.1

theorem rowText_zero (hsep : Separators delim quote) :
    ∀ {row : List Cell}, (∀ x ∈ row, x.Proper delim quote) → '\x00' ∉ rowText delim quote row
  | [], _ => not_mem_nil
  | [x], hrow => render_zero hsep (hrow x mem_cons_self)
  | x :: y :: row, hrow => by
    obtain ⟨hx, hrow⟩ := forall_mem_cons.mp hrow
    have hrest := rowText_zero hsep hrow
    unfold rowText
    rw [mem_append, mem_cons]
    exact not_or.mpr ⟨render_zero hsep hx, not_or.mpr ⟨hsep.delim_line.2.2.symm, hrest⟩⟩

theorem tableText_zero (hsep : Separators delim quote) (heol : LineEnd eol) :
    ∀ {rows : List (List Cell)}, (∀ row ∈ rows, ∀ x ∈ row, x.Proper delim quote) →
      '\x00' ∉ tableText delim quote eol rows
  | [], _ => not_mem_nil
  | [row], hrows => rowText_zero hsep (hrows row mem_cons_self)
  | row :: next :: rows, hrows => by
    obtain ⟨hrow, hrows⟩ := forall_mem_cons.mp hrows
    have hrest := tableText_zero hsep heol hrows
    have hline : '\x00' ∉ eol := by obtain rfl | rfl := heol <;> decide
    unfold tableText
    rw [mem_append, mem_append]
    exact not_or.mpr ⟨rowText_zero hsep hrow, not_or.mpr ⟨hline, hrest⟩⟩

theorem rowText_eq_nil (h : rowText delim quote row = []) : BlankRow row := by
  cases row with
  | nil => exact .inl rfl
  | cons x row =>
    cases row with
    | nil =>
      rw [blankRow_singleton]
      have hrender : x.render quote = [] := h
      unfold Cell.render at hrender
      split_ifs at hrender with hquoted
      exact ⟨hrender, Bool.eq_false_iff.mpr hquoted⟩
    | cons y row => exact nomatch (append_eq_nil_iff.mp h).2

theorem tableText_blank (h : rows.length ≤ 1 ∧ ∀ row ∈ rows, BlankRow row) :
    tableText delim quote eol rows = [] := by
  obtain ⟨hlen, hblank⟩ := h
  match rows, hlen with
  | [], _ => rfl
  | [row], _ =>
    obtain rfl | rfl := forall_mem_singleton.mp hblank
    · rfl
    · rfl

theorem tableObjects_nil (heol : LineEnd eol) (h : tableText delim quote eol rows = []) :
    tableObjects header rows = [] := by
  have hrows : rows.length ≤ 1 ∧ ∀ row ∈ rows, BlankRow row := by
    cases rows with
    | nil => exact ⟨Nat.zero_le 1, forall_mem_nil _⟩
    | cons row rows =>
      cases rows with
      | nil => exact ⟨Nat.le_refl 1, forall_mem_singleton.mpr (rowText_eq_nil h)⟩
      | cons next rows =>
        have hline := (append_eq_nil_iff.mp (append_eq_nil_iff.mp h).2).1
        obtain rfl | rfl := heol <;> exact nomatch hline
  cases header with
  | false => exact if_pos hrows
  | true =>
    match rows, hrows.1 with
    | [], _ => rfl
    | [row], _ => rfl

theorem length_rowTexts (row : List Cell) : (rowTexts row).length = max 1 row.length := by
  cases row with
  | nil => rfl
  | cons x row =>
    unfold rowTexts
    rw [if_neg (cons_ne_nil x row), length_map, length_cons]
    omega

theorem addRows_table (hproper : ∀ row ∈ rows, ∀ x ∈ row, x.Proper delim quote)
    (hheader : header = true → HeaderFits rows)
    (hblank : header = false → ¬(rows.length ≤ 1 ∧ ∀ row ∈ rows, BlankRow row))
    (hsize : bufferAllocated (arrayOf (tableObjects header rows)).render.length <
      zbxMaxRecvDataSize) :
    ∃ u, rows.foldlM (CsvTable.addRow header) ⟨0, 0, [], zbxJsonInitarray⟩ = .ok u ∧
      u.json.buffer = (arrayOf (tableObjects header rows)).render := by
  cases header with
  | false =>
    have hobjects : tableObjects false rows =
        rows.map fun row => objectOf (rowFields false [] row) := if_neg (hblank rfl)
    rw [hobjects] at hsize ⊢
    have hcols : Columns false [] ⟨0, 0, [], zbxJsonInitarray⟩ := ⟨nofun, nofun⟩
    exact addRows_array hcols rfl rfl nofun nofun hproper hsize
  | true =>
    cases rows with
    | nil => exact ⟨_, rfl, rfl⟩
    | cons names rows =>
      obtain ⟨hne, hnodup, hlen⟩ := hheader rfl
      obtain ⟨hnames, hproper⟩ := forall_mem_cons.mp hproper
      have htexts : rowTexts names = (names.map Cell.text).map encodeAll := by
        unfold rowTexts
        rw [if_neg hne, map_map]
        rfl
      have hdistinct : ([] ++ rowTexts names).Nodup := by
        rw [nil_append, htexts]
        exact hnodup.map encodeAll_injective
      obtain ⟨u, hu, hunames, huzero, hucount, hujson⟩ :=
        addRow_header names (t := ⟨0, 0, [], zbxJsonInitarray⟩) rfl rfl hdistinct rfl
      have hcount : u.fldNumMax = (rowTexts names).length := by
        rw [hucount, hunames]
        rfl
      have hcells : ∀ row ∈ rows, (rowTexts row).length ≤ (rowTexts names).length := by
        intro row hrow
        have hle := hlen row hrow
        rw [length_rowTexts, length_rowTexts]
        omega
      have hcols : Columns true (rowTexts names) u := ⟨fun _ => hunames, fun _ => hcount⟩
      obtain ⟨v, hv, hbuffer⟩ := addRows_array hcols huzero hujson (fun _ => hcells)
        (fun _ => rowTexts_zero hnames) hproper hsize
      refine ⟨v, ?_, hbuffer⟩
      rw [foldlM_cons, hu]
      exact hv

/-- The conversion of the text of a table: one object for each row, with the fields under the names
of the header or under their numbers. -/
theorem item_preproc_csv_to_json_table (hsep : Separators delim quote) (heol : LineEnd eol)
    (hproper : ∀ row ∈ rows, ∀ x ∈ row, x.Proper delim quote)
    (hline : sepLine (encodeAll (tableText delim quote eol rows)) = none)
    (hheader : header = true → HeaderFits rows)
    (hsize : bufferAllocated (arrayOf (tableObjects header rows)).render.length <
      zbxMaxRecvDataSize) :
    itemPreprocCsvToJson (encodeAll (tableText delim quote eol rows))
        (csvParams delim quote header) =
      .ok (arrayOf (tableObjects header rows)).render := by
  have hzero := tableText_zero hsep heol hproper
  rw [← mem_encodeAll_iff (by decide)] at hzero
  -- the parameters are the two characters and the header
  have hquote : charParam "cannot find third parameter" "invalid second parameter"
      ('\n' :: (encode quote ++ ['\n', if header then '1' else '0'])).tail =
        .ok (some (encode quote), ['\n', if header then '1' else '0']) :=
    charParam_encode hsep.quote_line.2.1
  have hcsv : (⟨encode delim, encode quote,
      decide (charAt ['\n', if header then '1' else '0'].tail = '1')⟩ : Csv) =
        csvOf delim quote header := by
    cases header <;> rfl
  unfold itemPreprocCsvToJson csvParams
  simp only [charParam_encode hsep.delim_line.2.1, hquote, hline, bind, Except.bind,
    Option.elim_none, Option.getD_some, drop_zero, hcsv]
  by_cases htext : tableText delim quote eol rows = []
  · rw [tableObjects_nil heol htext, htext]
    rfl
  · have hfirst : ¬charAt (encodeAll (tableText delim quote eol rows)) = '\x00' := by
      obtain ⟨c, text, hcons⟩ := exists_cons_of_ne_nil htext
      rw [mem_encodeAll_iff (by decide), hcons] at hzero
      rw [hcons, encodeAll_cons, charAt_encode_iff (by decide)]
      exact fun hc => hzero (hc ▸ mem_cons_self)
    have hrows : rows ≠ [] := fun hnil => htext (hnil ▸ rfl)
    obtain ⟨table, htable, hbuffer⟩ :=
      addRows_table hproper hheader (fun _ => mt tableText_blank htext) hsize
    let s : Scan :=
      { value := encodeAll (tableText delim quote eol rows)
        data := 0
        state := .delim
        field := none
        fieldEsc := none
        table := { fldNum := 0, fldNumMax := 0, names := [], json := zbxJsonInitarray } }
    obtain ⟨t, hloop, hstate, rfl⟩ :=
      loop_tableText (s := s) hsep heol hrows hproper ⟨rfl, rfl, rfl⟩ rfl rfl htable
    have hend : t.state ≠ .fieldQuoted := by simp [hstate]
    rw [if_neg hfirst, ← hbuffer, show Scan.loop _ _ _ _ = .ok t from hloop]
    exact if_neg hend

def sampleTable : List (List Cell) :=
  [[⟨['a'], false⟩, ⟨['b'], true⟩],
    [⟨['x', '"'], true⟩, ⟨['€', '\n', ';'], true⟩],
    [⟨[], true⟩]]

theorem csv_to_json_sampleTable :
    itemPreprocCsvToJson (encodeAll (tableText ';' '"' ['\r', '\n'] sampleTable))
        (csvParams ';' '"' true) =
      .ok (arrayOf (tableObjects true sampleTable)).render :=
  item_preproc_csv_to_json_table ⟨by decide, by decide, by decide⟩ (by decide) (by decide)
    (by decide) (fun _ => ⟨by decide, by decide, by decide⟩) (by decide)

/-- Without a header a blank line in a table is a row without fields. -/
theorem blankLine_not_field :
    (∀ row ∈ [[⟨['a'], false⟩], [⟨[], false⟩]], ∀ x ∈ row, Cell.Proper ',' '"' x) ∧
      itemPreprocCsvToJson
          (encodeAll (tableText ',' '"' ['\n'] [[⟨['a'], false⟩], [⟨[], false⟩]]))
          (csvParams ',' '"' false) ≠
        .ok (arrayOf [objectOf (numberedFields 0 [['a']]), objectOf (numberedFields 0 [[]])]).render
        := by
  decide

end Zabbix.Preproc
