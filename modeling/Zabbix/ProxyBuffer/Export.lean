import Zabbix.ProxyBuffer.Invariant

/-!
# The rows of a message

The rows that `pb_history_export` writes, and what the messages of `pb_history_get_mem` and
`pb_history_get_db` are made of.
-/

namespace Zabbix.ProxyBuffer

open List

structure Message extends Export where
  records : List PbHistory

def Message.add (a : ExportArgs) (m : Message) (row : PbHistory) : Message :=
  ⟨⟨m.recordsNum + 1, m.offset + a.jsonGrow m.recordsNum row, row.id⟩, m.records ++ [row]⟩

/-- The export loop of `pb_history_export` with the rows it writes. -/
def writeRecords (a : ExportArgs) : Message → List PbHistory → Message
  | m, [] => m
  | m, row :: rows =>
    if a.monitored row.itemid then
      if zbxDataJsonRecordLimit < (m.add a row).offset then m.add a row
      else writeRecords a (m.add a row) rows
    else writeRecords a { m with lastid := row.id } rows

def exportMessage (a : ExportArgs) (m : Message) (rows : List PbHistory) : Message :=
  writeRecords a m (dropDuplicateNovalue rows)

def getMemMessages (a : ExportArgs) : ℕ → List PbHistory → Message → Message × Bool
  | 0, _, m => (m, false)
  | fuel + 1, rows, m =>
    let chunk := rows.take zbxMaxHrecords
    let m' := exportMessage a m chunk
    if chunk.length ≠ zbxMaxHrecords then (m', false)
    else if zbxDataJsonBatchLimit ≤ m'.offset ∨ zbxMaxHrecordsTotal ≤ m'.recordsNum then (m', true)
    else getMemMessages a fuel (rows.drop zbxMaxHrecords) m'

/-- `pb_history_get_mem` on a message of `offset` bytes. -/
def pbHistoryGetMemMessage (a : ExportArgs) (pb : Pb) (offset : ℕ) : Message × Bool :=
  if pb.history = [] then (⟨⟨0, offset, 0⟩, []⟩, false)
  else getMemMessages a (pb.history.length + 1) pb.history ⟨⟨0, offset, 0⟩, []⟩

/-- `pb_history_get_rows_db` when the open handles have closed each time it has waited; undefined if
it goes on after so many selects. -/
def pbHistoryGetRowsDb (db : Db) : ℕ → Reader → Option Reader
  | 0, _ => none
  | fuel + 1, r =>
    match fetchRows r (selectRows db r) with
    | (r', true) => pbHistoryGetRowsDb db fuel r'
    | (r', false) => some r'

def getDbMessages (a : ExportArgs) (db : Db) : ℕ → ℕ → Message → Option (Message × Bool)
  | 0, _, _ => none
  | fuel + 1, id, m =>
    if readMore m.recordsNum m.offset then
      (pbHistoryGetRowsDb db (2 * db.proxyHistory.length + 2) ⟨id, 0, [], [], 0, 0, 0⟩).bind fun r =>
        if r.rows = [] then some (m, false)
        else
          let m' := exportMessage a m r.rows
          if r.rows.length < zbxMaxHrecords then some (m', false)
          else getDbMessages a db fuel m'.lastid m'
    else some (m, true)

/-- `pb_history_get_db` on a message of `offset` bytes. -/
def pbHistoryGetDbMessage (a : ExportArgs) (db : Db) (offset : ℕ) : Option (Message × Bool) :=
  getDbMessages a db (db.proxyHistory.length + 2) db.historyLastid ⟨⟨0, offset, 0⟩, []⟩

def Repeated (unsent : List PbHistory) (row : PbHistory) : Prop :=
  row.novalue = true ∧
    ∃ newer ∈ unsent, newer.novalue = true ∧ newer.itemid = row.itemid ∧ row.id < newer.id

structure CoversPrefix (a : ExportArgs) (unsent records : List PbHistory) (lastid : ℕ) : Prop where
  ascending : Ascending records
  fromUnsent : ∀ row ∈ records, row ∈ unsent
  within : ∀ row ∈ records, row.id ≤ lastid
  monitored : ∀ row ∈ records, a.monitored row.itemid = true
  complete : ∀ row ∈ unsent, row.id ≤ lastid →
    row ∈ records ∨ a.monitored row.itemid = false ∨ Repeated unsent row

variable {a : ExportArgs} {m : Message} {rows done chunk rest records : List PbHistory}
  {n lastid : ℕ} {row : PbHistory}

theorem Repeated.mono {unsent unsent' : List PbHistory} (h : Repeated unsent row)
    (hsub : ∀ x ∈ unsent, x ∈ unsent') : Repeated unsent' row := by
  obtain ⟨hrow, newer, hnewer, hsame⟩ := h
  exact ⟨hrow, newer, hsub newer hnewer, hsame⟩

theorem Ascending.left (h : Ascending (done ++ rest)) : Ascending done := (pairwise_append.mp h).1

theorem Ascending.right (h : Ascending (done ++ rest)) : Ascending rest :=
  (pairwise_append.mp h).2.1

theorem Ascending.lt (h : Ascending (done ++ rest)) {x y : PbHistory} (hx : x ∈ done)
    (hy : y ∈ rest) : x.id < y.id :=
  (pairwise_append.mp h).2.2 x hx y hy

theorem CoversPrefix.append_rest (h : CoversPrefix a done records lastid)
    (hrest : ∀ x ∈ rest, lastid < x.id) : CoversPrefix a (done ++ rest) records lastid where
  ascending := h.ascending
  fromUnsent x hx := mem_append_left _ (h.fromUnsent x hx)
  within := h.within
  monitored := h.monitored
  complete x hx hle := by
    rcases mem_append.mp hx with hdone | hnew
    · exact (h.complete x hdone hle).imp id (Or.imp id fun hrep =>
        hrep.mono fun y hy => mem_append_left _ hy)
    · exact absurd hle (Nat.not_le.mpr (hrest x hnew))

theorem CoversPrefix.append {records' : List PbHistory} (h : CoversPrefix a done records n)
    (hdone : ∀ x ∈ done, x.id ≤ n) (h' : CoversPrefix a chunk records' lastid)
    (hasc : Ascending (done ++ chunk)) (hle : ∀ x ∈ done, x.id ≤ lastid) :
    CoversPrefix a (done ++ chunk) (records ++ records') lastid where
  ascending := h.ascending.append h'.ascending fun x hx y hy =>
    hasc.lt (h.fromUnsent x hx) (h'.fromUnsent y hy)
  fromUnsent x hx := by
    rcases mem_append.mp hx with hold | hnew
    · exact mem_append_left _ (h.fromUnsent x hold)
    · exact mem_append_right _ (h'.fromUnsent x hnew)
  within x hx := by
    rcases mem_append.mp hx with hold | hnew
    · exact hle x (h.fromUnsent x hold)
    · exact h'.within x hnew
  monitored x hx := by
    rcases mem_append.mp hx with hold | hnew
    · exact h.monitored x hold
    · exact h'.monitored x hnew
  complete x hx hxle := by
    rcases mem_append.mp hx with hold | hnew
    · exact (h.complete x hold (hdone x hold)).imp (mem_append_left _) (Or.imp id fun hrep =>
        hrep.mono fun y hy => mem_append_left _ hy)
    · exact (h'.complete x hnew hxle).imp (mem_append_right _) (Or.imp id fun hrep =>
        hrep.mono fun y hy => mem_append_right _ hy)

theorem writeRecords_toExport (a : ExportArgs) (m : Message) (rows : List PbHistory) :
    (writeRecords a m rows).toExport = exportRecords a m.toExport rows := by
  induction rows generalizing m with
  | nil => rfl
  | cons row rows ih =>
    rw [writeRecords, exportRecords]
    split
    · change _ = if zbxDataJsonRecordLimit < (m.add a row).offset then (m.add a row).toExport
        else exportRecords a (m.add a row).toExport rows
      split
      · rfl
      · exact ih _
    · exact ih _

theorem exportMessage_toExport (a : ExportArgs) (m : Message) (rows : List PbHistory) :
    (exportMessage a m rows).toExport = pbHistoryExport a m.toExport rows :=
  writeRecords_toExport a m _

theorem mem_dropDuplicateNovalue (hasc : Ascending rows) (hrow : row ∈ rows) :
    row ∈ dropDuplicateNovalue rows ∨ Repeated rows row := by
  induction rows with
  | nil => exact absurd hrow not_mem_nil
  | cons first rows ih =>
    obtain ⟨hfirst, htail⟩ := pairwise_cons.mp hasc
    rw [dropDuplicateNovalue]
    have hlater : row ∈ rows → row ∈ dropDuplicateNovalue rows ∨ Repeated (first :: rows) row :=
      fun hmem => (ih htail hmem).imp id fun hrep => hrep.mono fun y hy => mem_cons_of_mem _ hy
    split
    · next hdup =>
      obtain ⟨hnovalue, newer, hnewer, hvalue, hitem⟩ := hdup
      rcases mem_cons.mp hrow with rfl | hmem
      · exact .inr ⟨hnovalue, newer, mem_cons_of_mem _ hnewer, hvalue, hitem, hfirst newer hnewer⟩
      · exact hlater hmem
    · rcases mem_cons.mp hrow with rfl | hmem
      · exact .inl mem_cons_self
      · exact (hlater hmem).imp (mem_cons_of_mem _) id

theorem writeRecords_records (a : ExportArgs) (m : Message) (hasc : Ascending rows)
    (hrows : ∀ x ∈ rows, m.lastid < x.id) :
    ∃ sent, (writeRecords a m rows).records = m.records ++ sent ∧
      sent = rows.filter (fun x => a.monitored x.itemid ∧ x.id ≤ (writeRecords a m rows).lastid) ∧
      m.lastid ≤ (writeRecords a m rows).lastid := by
  induction rows generalizing m with
  | nil => exact ⟨[], (append_nil _).symm, rfl, Nat.le_refl _⟩
  | cons row rows ih =>
    obtain ⟨hfirst, htail⟩ := pairwise_cons.mp hasc
    have hrow : m.lastid < row.id := hrows row mem_cons_self
    rw [writeRecords]
    split
    · next hmon =>
      split
      -- the message is full with this row
      · have hnone : rows.filter (fun x => a.monitored x.itemid ∧ x.id ≤ (m.add a row).lastid) =
            [] := by
          rw [filter_eq_nil_iff]
          intro x hx
          have hlt : row.id < x.id := hfirst x hx
          rw [decide_eq_true_eq]
          exact fun h => absurd h.2 (Nat.not_le.mpr hlt)
        have hself : (a.monitored row.itemid ∧ row.id ≤ (m.add a row).lastid) :=
          ⟨hmon, Nat.le_refl _⟩
        refine ⟨[row], rfl, ?_, hrow.le⟩
        rw [filter_cons, if_pos (decide_eq_true hself), hnone]
      · obtain ⟨sent, hsent, hfilter, hle⟩ := ih (m.add a row) htail hfirst
        have hself : a.monitored row.itemid ∧
            row.id ≤ (writeRecords a (m.add a row) rows).lastid := ⟨hmon, hle⟩
        refine ⟨row :: sent, ?_, ?_, hrow.le.trans hle⟩
        · rw [hsent, Message.add, append_assoc, singleton_append]
        · rw [filter_cons, if_pos (decide_eq_true hself), ← hfilter]
    · next hmon =>
      obtain ⟨sent, hsent, hfilter, hle⟩ := ih { m with lastid := row.id } htail hfirst
      have hself : ¬ (a.monitored row.itemid ∧
          row.id ≤ (writeRecords a { m with lastid := row.id } rows).lastid) := fun h => hmon h.1
      refine ⟨sent, hsent, ?_, hrow.le.trans hle⟩
      rw [filter_cons, if_neg (by rw [decide_eq_true_eq]; exact hself), ← hfilter]

theorem exportMessage_covers (a : ExportArgs) (m : Message) (hasc : Ascending chunk)
    (hchunk : ∀ x ∈ chunk, m.lastid < x.id) :
    ∃ sent, (exportMessage a m chunk).records = m.records ++ sent ∧
      CoversPrefix a chunk sent (exportMessage a m chunk).lastid := by
  have hsub := dropDuplicateNovalue_sublist chunk
  obtain ⟨sent, hsent, hfilter, -⟩ := writeRecords_records a m (hasc.sublist hsub)
    fun x hx => hchunk x (hsub.mem hx)
  refine ⟨sent, hsent, ?_⟩
  have hmem : ∀ x, x ∈ sent ↔ x ∈ dropDuplicateNovalue chunk ∧ a.monitored x.itemid = true ∧
      x.id ≤ (exportMessage a m chunk).lastid := by
    intro x
    rw [hfilter, mem_filter, decide_eq_true_eq]
    rfl
  exact
    { ascending := by
        rw [hfilter]
        exact (hasc.sublist hsub).sublist filter_sublist
      fromUnsent := fun x hx => hsub.mem ((hmem x).mp hx).1
      within := fun x hx => ((hmem x).mp hx).2.2
      monitored := fun x hx => ((hmem x).mp hx).2.1
      complete := by
        intro x hx hle
        rcases mem_dropDuplicateNovalue hasc hx with hkept | hrep
        · cases hmon : a.monitored x.itemid with
          | true => exact .inl ((hmem x).mpr ⟨hkept, hmon, hle⟩)
          | false => exact .inr (.inl rfl)
        · exact .inr (.inr hrep) }

structure Behind (a : ExportArgs) (done : List PbHistory) (m : Message) : Prop where
  covers : CoversPrefix a done m.records m.lastid
  within : ∀ x ∈ done, x.id ≤ m.lastid
  lastid : m.lastid = 0 ∨ ∃ x ∈ done, m.lastid = x.id

theorem Behind.start (offset : ℕ) : Behind a [] ⟨⟨0, offset, 0⟩, []⟩ where
  covers := ⟨Ascending.nil, by simp, by simp, by simp, by simp⟩
  within := forall_mem_nil _
  lastid := .inl rfl

theorem Behind.round (h : Behind a done m) (hasc : Ascending (done ++ (chunk ++ rest)))
    (hpos : ∀ x ∈ chunk, m.lastid < x.id) (hne : chunk ≠ []) :
    CoversPrefix a (done ++ (chunk ++ rest)) (exportMessage a m chunk).records
        (exportMessage a m chunk).lastid ∧
      ((exportMessage a m chunk).offset ≤ zbxDataJsonRecordLimit →
        Behind a (done ++ chunk) (exportMessage a m chunk) ∧
          (exportMessage a m chunk).lastid = lastRowId chunk) := by
  have hfront : Ascending (done ++ chunk) := by
    rw [← append_assoc] at hasc
    exact hasc.left
  have hlast : ∃ y ∈ chunk, (exportMessage a m chunk).lastid = y.id := by
    rw [exportMessage_toExport]
    exact pbHistoryExport_lastid a m.toExport hne
  obtain ⟨y, hy, hlastid⟩ := hlast
  obtain ⟨sent, hsent, hcovers⟩ := exportMessage_covers a m hfront.right hpos
  have hdone : ∀ x ∈ done, x.id ≤ (exportMessage a m chunk).lastid := by
    intro x hx
    rw [hlastid]
    exact (hfront.lt hx hy).le
  have hboth := h.covers.append h.within hcovers hfront hdone
  rw [← hsent] at hboth
  constructor
  · rw [← append_assoc]
    apply hboth.append_rest
    intro x hx
    rw [hlastid]
    exact hasc.right.lt hy hx
  · intro hsize
    have hcomplete : (exportMessage a m chunk).lastid = lastRowId chunk := by
      rw [exportMessage_toExport] at hsize ⊢
      exact pbHistoryExport_complete a m.toExport hne hsize
    refine ⟨⟨hboth, ?_, .inr ⟨y, mem_append_right _ hy, hlastid⟩⟩, hcomplete⟩
    intro x hx
    rcases mem_append.mp hx with hold | hnew
    · exact hdone x hold
    · rw [hcomplete]
      exact le_lastRowId hfront.right hnew

theorem getMemMessages_covers (fuel : ℕ) (done rows : List PbHistory) (m : Message)
    (h : Behind a done m) (hasc : Ascending (done ++ rows)) (hpos : ∀ x ∈ rows, m.lastid < x.id) :
    CoversPrefix a (done ++ rows) (getMemMessages a fuel rows m).1.records
      (getMemMessages a fuel rows m).1.lastid := by
  induction fuel generalizing done rows m with
  | zero => exact h.covers.append_rest hpos
  | succ fuel ih =>
    have hsplit : rows.take zbxMaxHrecords ++ rows.drop zbxMaxHrecords = rows :=
      take_append_drop _ _
    rw [getMemMessages]
    by_cases hnil : rows.take zbxMaxHrecords = []
    · have hlen : ([] : List PbHistory).length ≠ zbxMaxHrecords := by decide
      rw [hnil]
      simp only [if_pos hlen]
      exact h.covers.append_rest hpos
    · have hchunk : ∀ x ∈ rows.take zbxMaxHrecords, m.lastid < x.id :=
        fun x hx => hpos x (mem_of_mem_take hx)
      rw [← hsplit] at hasc
      obtain ⟨hcovers, hnext⟩ := h.round hasc hchunk hnil
      rw [hsplit] at hcovers
      by_cases hlen : (rows.take zbxMaxHrecords).length ≠ zbxMaxHrecords
      · simp only [if_pos hlen]
        exact hcovers
      · simp only [if_neg hlen]
        split
        · exact hcovers
        · next hlimit =>
          have hbound : zbxDataJsonBatchLimit ≤ zbxDataJsonRecordLimit := by decide
          obtain ⟨hbehind, hlast⟩ := hnext (by omega)
          have happ : done ++ rows =
              (done ++ rows.take zbxMaxHrecords) ++ rows.drop zbxMaxHrecords := by
            rw [append_assoc, hsplit]
          rw [← append_assoc] at hasc
          rw [happ]
          apply ih _ _ _ hbehind hasc
          intro x hx
          obtain hzero | ⟨y, hy, hylast⟩ := hbehind.lastid
          · rw [hzero]
            exact (Nat.zero_le _).trans_lt (hpos x (mem_of_mem_drop hx))
          · rw [hylast]
            exact hasc.lt hy hx

theorem pbHistoryGetMemMessage_covers (a : ExportArgs) (pb : Pb) (offset : ℕ)
    (hasc : Ascending pb.history) (hpos : ∀ x ∈ pb.history, 0 < x.id) :
    CoversPrefix a pb.history (pbHistoryGetMemMessage a pb offset).1.records
      (pbHistoryGetMemMessage a pb offset).1.lastid := by
  rw [pbHistoryGetMemMessage]
  split
  · next hnil =>
    rw [hnil]
    exact (Behind.start offset).covers
  · exact getMemMessages_covers _ [] pb.history _ (Behind.start offset) hasc hpos

theorem getMemMessages_batch (fuel : ℕ) (rows batch : List PbHistory) (m : Message) :
    (getMemMessages a fuel rows m).1.lastid = (getMemRounds a fuel rows batch m.toExport).lastid ∧
      (getMemMessages a fuel rows m).2 = (getMemRounds a fuel rows batch m.toExport).more := by
  induction fuel generalizing rows batch m with
  | zero => exact ⟨rfl, rfl⟩
  | succ fuel ih =>
    rw [getMemMessages, getMemRounds, ← exportMessage_toExport]
    split
    · exact ⟨rfl, rfl⟩
    · split
      · exact ⟨rfl, rfl⟩
      · exact ih _ _ _

def unsentRows (db : Db) (lastid : ℕ) : List PbHistory :=
  (db.proxyHistory.filter (lastid < ·.id)).insertionSort (fun a b => a.id ≤ b.id)

variable {db : Db} {r r' : Reader}

theorem mem_unsentRows : row ∈ unsentRows db n ↔ row ∈ db.proxyHistory ∧ n < row.id := by
  rw [unsentRows, mem_insertionSort, mem_filter, decide_eq_true_eq]

theorem ascending_unsentRows (hnodup : (db.proxyHistory.map (·.id)).Nodup) (n : ℕ) :
    Ascending (unsentRows db n) := by
  have : Std.Total (fun a b : PbHistory => a.id ≤ b.id) := ⟨fun a b => Nat.le_total a.id b.id⟩
  have : IsTrans PbHistory (fun a b => a.id ≤ b.id) := ⟨fun a b c hab hbc => hab.trans hbc⟩
  have hle : (unsentRows db n).Pairwise fun a b => a.id ≤ b.id := pairwise_insertionSort _ _
  have hfilter : ((db.proxyHistory.filter (n < ·.id)).map (·.id)).Nodup :=
    hnodup.sublist (filter_sublist.map _)
  have hperm := (perm_insertionSort (fun a b : PbHistory => a.id ≤ b.id)
    (db.proxyHistory.filter (n < ·.id))).map (·.id)
  have hne : (unsentRows db n).Pairwise fun a b => a.id ≠ b.id :=
    pairwise_map.mp (hperm.nodup_iff.mpr hfilter)
  exact (hle.and hne).imp fun h => lt_of_le_of_ne h.1 h.2

theorem length_unsentRows_le (db : Db) (n : ℕ) :
    (unsentRows db n).length ≤ db.proxyHistory.length := by
  rw [unsentRows, length_insertionSort]
  exact length_filter_le _ _

theorem unsentRows_behind (hnodup : (db.proxyHistory.map (·.id)).Nodup) {front : List PbHistory}
    (h : unsentRows db n = front ++ row :: rest) : unsentRows db row.id = rest := by
  have hasc := ascending_unsentRows hnodup n
  rw [h] at hasc
  have hrest : Ascending rest := (pairwise_cons.mp hasc.right).2
  have : Std.Irrefl (fun a b : PbHistory => a.id < b.id) := ⟨fun a => Nat.lt_irrefl a.id⟩
  have : Std.Antisymm (fun a b : PbHistory => a.id < b.id) :=
    ⟨fun a b hab hba => absurd hab (Nat.lt_asymm hba)⟩
  apply List.Pairwise.eq_of_mem_iff (ascending_unsentRows hnodup row.id) hrest
  intro x
  have hrow : row ∈ unsentRows db n := by
    rw [h]
    exact mem_append_right _ mem_cons_self
  have hn := (mem_unsentRows.mp hrow).2
  constructor
  · intro hx
    obtain ⟨hmem, hlt⟩ := mem_unsentRows.mp hx
    have hfound : x ∈ front ++ row :: rest := h ▸ mem_unsentRows.mpr ⟨hmem, hn.trans hlt⟩
    rcases mem_append.mp hfound with hfront | hback
    · exact absurd hlt (Nat.lt_asymm (hasc.lt hfront mem_cons_self))
    · rcases mem_cons.mp hback with rfl | hrest
      · exact absurd hlt (Nat.lt_irrefl _)
      · exact hrest
  · intro hx
    have hfound : x ∈ unsentRows db n := by
      rw [h]
      exact mem_append_right _ (mem_cons_of_mem _ hx)
    exact mem_unsentRows.mpr ⟨(mem_unsentRows.mp hfound).1, (pairwise_cons.mp hasc.right).1 x hx⟩

theorem fetchRows_front (r : Reader) (sel : List PbHistory) :
    ((fetchRows r sel).2 = false ∧ (fetchRows r sel).1.rows = r.rows ++ sel) ∨
    ∃ front row back, sel = front ++ row :: back ∧ (fetchRows r sel).2 = true ∧
      (fetchRows r sel).1.rows = r.rows ++ front ∧ (fetchRows r sel).1.gapid = row.id ∧
      ((front = [] ∧ (fetchRows r sel).1.lastid = r.lastid ∧ row.id ≠ r.gapid) ∨
        ∃ init last, front = init ++ [last] ∧ (fetchRows r sel).1.lastid = last.id) := by
  induction sel generalizing r with
  | nil => exact .inl ⟨rfl, (append_nil _).symm⟩
  | cons row sel ih =>
    rw [fetchRows]
    split
    · next hgap =>
      exact .inr ⟨[], row, sel, rfl, rfl, (append_nil _).symm, rfl, .inl ⟨rfl, rfl, hgap.2⟩⟩
    · rcases ih { r with rows := r.rows ++ [row], lastid := row.id } with
        ⟨hdone, hrows⟩ | ⟨front, next, back, rfl, hstop, hrows, hgapid, hlast⟩
      · refine .inl ⟨hdone, hrows.trans ?_⟩
        rw [append_assoc, singleton_append]
      · refine .inr ⟨row :: front, next, back, rfl, hstop, hrows.trans ?_, hgapid, .inr ?_⟩
        · rw [append_assoc, singleton_append]
        · rcases hlast with ⟨rfl, hlast, -⟩ | ⟨init, last, rfl, hlast⟩
          · exact ⟨[], row, rfl, hlast⟩
          · exact ⟨row :: init, last, rfl, hlast⟩

def selectsLeft (db : Db) (r : Reader) : ℕ :=
  2 * (unsentRows db r.lastid).length +
    if (unsentRows db r.lastid).head?.map (·.id) = some r.gapid then 0 else 1

theorem fetchRows_selected (h : fetchRows r (selectRows db r) = (r', false)) :
    r'.rows = r.rows ++ (unsentRows db r.lastid).take (zbxMaxHrecords - r.rows.length) := by
  rcases fetchRows_front r (selectRows db r) with ⟨-, hrows⟩ | ⟨front, row, back, -, hstop, -⟩
  · rw [h] at hrows
    exact hrows
  · rw [h] at hstop
    cases hstop

theorem fetchRows_gap (hnodup : (db.proxyHistory.map (·.id)).Nodup)
    (h : fetchRows r (selectRows db r) = (r', true)) :
    ∃ front, r'.rows = r.rows ++ front ∧ front.length ≤ zbxMaxHrecords - r.rows.length ∧
      unsentRows db r.lastid = front ++ unsentRows db r'.lastid ∧
      selectsLeft db r' < selectsLeft db r := by
  have hsel : selectRows db r =
      (unsentRows db r.lastid).take (zbxMaxHrecords - r.rows.length) := rfl
  obtain ⟨hdone, -⟩ | ⟨front, row, back, hfront, -, hrows, hgapid, hlast⟩ :=
    fetchRows_front r (selectRows db r)
  · rw [h] at hdone
    cases hdone
  · rw [h] at hrows hgapid hlast
    have hcount : front.length ≤ zbxMaxHrecords - r.rows.length := by
      have htake := congrArg List.length hfront
      rw [hsel, length_take, length_append] at htake
      omega
    have hwhole : unsentRows db r.lastid = front ++ (row :: back ++
        (unsentRows db r.lastid).drop (zbxMaxHrecords - r.rows.length)) := by
      rw [← append_assoc, ← hfront, hsel, take_append_drop]
    -- what is left is above the last row that was taken
    have hleft : unsentRows db r'.lastid = row :: back ++
        (unsentRows db r.lastid).drop (zbxMaxHrecords - r.rows.length) := by
      rcases hlast with ⟨hnil, hsame, -⟩ | ⟨init, last, hinit, hlastid⟩
      · rw [hnil, nil_append] at hwhole
        rw [hsame]
        exact hwhole
      · rw [hlastid]
        apply unsentRows_behind hnodup
        rw [hinit, append_assoc] at hwhole
        exact hwhole
    rw [← hleft] at hwhole
    have hhead : (unsentRows db r'.lastid).head?.map (·.id) = some r'.gapid := by
      rw [hleft, hgapid]
      rfl
    have hlength := congrArg List.length hwhole
    rw [length_append] at hlength
    refine ⟨front, hrows, hcount, hwhole, ?_⟩
    unfold selectsLeft
    rw [if_pos hhead]
    rcases hlast with ⟨hnil, hsame, hne⟩ | ⟨init, last, hinit, -⟩
    · have hold : (unsentRows db r.lastid).head?.map (·.id) ≠ some r.gapid := by
        rw [← hsame, hhead, hgapid]
        exact fun h => hne (Option.some_inj.mp h)
      rw [if_neg hold, hsame]
      omega
    · rw [hinit, length_append, length_singleton] at hlength
      omega

theorem pbHistoryGetRowsDb_rows (hnodup : (db.proxyHistory.map (·.id)).Nodup) (fuel : ℕ)
    (r : Reader) (hfuel : selectsLeft db r < fuel) :
    ∃ r', pbHistoryGetRowsDb db fuel r = some r' ∧
      r'.rows = r.rows ++ (unsentRows db r.lastid).take (zbxMaxHrecords - r.rows.length) := by
  induction fuel generalizing r with
  | zero => exact absurd hfuel (Nat.not_lt_zero _)
  | succ fuel ih =>
    rw [pbHistoryGetRowsDb]
    cases hfetch : fetchRows r (selectRows db r) with
    | mk r' gap =>
      cases gap with
      | false => exact ⟨r', rfl, fetchRows_selected hfetch⟩
      | true =>
        obtain ⟨front, hrows, hcount, hwhole, hdecrease⟩ := fetchRows_gap hnodup hfetch
        obtain ⟨r'', hr'', hrows'⟩ := ih r' (hdecrease.trans_le (Nat.le_of_lt_succ hfuel))
        refine ⟨r'', hr'', hrows'.trans ?_⟩
        have hnum : zbxMaxHrecords - r'.rows.length =
            zbxMaxHrecords - r.rows.length - front.length := by
          rw [hrows, length_append]
          omega
        calc r'.rows ++ (unsentRows db r'.lastid).take (zbxMaxHrecords - r'.rows.length)
            = r.rows ++ (front ++ (unsentRows db r'.lastid).take
                (zbxMaxHrecords - r.rows.length - front.length)) := by
              rw [hnum, hrows, append_assoc]
          _ = r.rows ++ (front ++ unsentRows db r'.lastid).take
                (zbxMaxHrecords - r.rows.length) := by
              rw [take_append, take_of_length_le hcount]
          _ = r.rows ++ (unsentRows db r.lastid).take (zbxMaxHrecords - r.rows.length) := by
              rw [← hwhole]

theorem pbHistoryGetRowsDb_chunk (hnodup : (db.proxyHistory.map (·.id)).Nodup) (id : ℕ) :
    ∃ r, pbHistoryGetRowsDb db (2 * db.proxyHistory.length + 2) ⟨id, 0, [], [], 0, 0, 0⟩ = some r ∧
      r.rows = (unsentRows db id).take zbxMaxHrecords := by
  have hselects : selectsLeft db ⟨id, 0, [], [], 0, 0, 0⟩ < 2 * db.proxyHistory.length + 2 := by
    have hle := length_unsentRows_le db id
    unfold selectsLeft
    split <;> simp only <;> omega
  exact pbHistoryGetRowsDb_rows hnodup _ _ hselects

theorem unsentRows_lastRowId (hnodup : (db.proxyHistory.map (·.id)).Nodup) {id k : ℕ}
    (hne : (unsentRows db id).take k ≠ []) :
    unsentRows db (lastRowId ((unsentRows db id).take k)) = (unsentRows db id).drop k := by
  have hlast := dropLast_append_getLast hne
  have hid : lastRowId ((unsentRows db id).take k) =
      (((unsentRows db id).take k).getLast hne).id := by
    rw [lastRowId, List.getLast?_eq_getLast_of_ne_nil hne]
    rfl
  have hwhole : unsentRows db id = ((unsentRows db id).take k).dropLast ++
      ((unsentRows db id).take k).getLast hne :: (unsentRows db id).drop k := by
    calc unsentRows db id
        = (unsentRows db id).take k ++ (unsentRows db id).drop k := (take_append_drop _ _).symm
      _ = ((unsentRows db id).take k).dropLast ++ [((unsentRows db id).take k).getLast hne] ++
            (unsentRows db id).drop k := by rw [hlast]
      _ = ((unsentRows db id).take k).dropLast ++ ((unsentRows db id).take k).getLast hne ::
            (unsentRows db id).drop k := by rw [append_assoc, singleton_append]
  rw [hid]
  exact unsentRows_behind hnodup hwhole

theorem getDbMessages_covers (hnodup : (db.proxyHistory.map (·.id)).Nodup) (fuel id : ℕ)
    (done : List PbHistory) (m : Message) (h : Behind a done m)
    (hasc : Ascending (done ++ unsentRows db id)) (hpos : ∀ x ∈ unsentRows db id, m.lastid < x.id)
    (hfuel : (unsentRows db id).length < fuel) :
    ∃ m', getDbMessages a db fuel id m = some m' ∧
      CoversPrefix a (done ++ unsentRows db id) m'.1.records m'.1.lastid := by
  induction fuel generalizing id done m with
  | zero => exact absurd hfuel (Nat.not_lt_zero _)
  | succ fuel ih =>
    rw [getDbMessages]
    split
    · obtain ⟨r, hr, hrows⟩ := pbHistoryGetRowsDb_chunk hnodup id
      have hsplit : (unsentRows db id).take zbxMaxHrecords ++
          (unsentRows db id).drop zbxMaxHrecords = unsentRows db id := take_append_drop _ _
      rw [hr, Option.bind_some, hrows]
      by_cases hnil : (unsentRows db id).take zbxMaxHrecords = []
      · rw [if_pos hnil]
        exact ⟨_, rfl, h.covers.append_rest hpos⟩
      · have hchunk : ∀ x ∈ (unsentRows db id).take zbxMaxHrecords, m.lastid < x.id :=
          fun x hx => hpos x (mem_of_mem_take hx)
        rw [← hsplit] at hasc
        obtain ⟨hcovers, hnext⟩ := h.round hasc hchunk hnil
        rw [hsplit] at hcovers
        rw [if_neg hnil]
        simp only
        split
        · exact ⟨_, rfl, hcovers⟩
        · have hpositive := length_pos_of_ne_nil hnil
          have htake := length_take_le' zbxMaxHrecords (unsentRows db id)
          by_cases hsize : (exportMessage a m ((unsentRows db id).take zbxMaxHrecords)).offset ≤
              zbxDataJsonRecordLimit
          · obtain ⟨hbehind, hlast⟩ := hnext hsize
            have hrest := unsentRows_lastRowId hnodup hnil
            have happ : done ++ unsentRows db id = (done ++ (unsentRows db id).take zbxMaxHrecords) ++
                unsentRows db (lastRowId ((unsentRows db id).take zbxMaxHrecords)) := by
              rw [hrest, append_assoc, hsplit]
            rw [hlast, happ]
            rw [← append_assoc, ← hrest] at hasc
            apply ih _ _ _ hbehind hasc
            · intro x hx
              rw [hlast]
              exact (mem_unsentRows.mp hx).2
            · rw [hrest, length_drop]
              have hrecords : 0 < zbxMaxHrecords := by decide
              omega
          -- a message that is too long ends the loop
          · obtain ⟨fuel, rfl⟩ : ∃ k, fuel = k + 1 := ⟨fuel - 1, by omega⟩
            have hstop : ¬ readMore
                (exportMessage a m ((unsentRows db id).take zbxMaxHrecords)).recordsNum
                (exportMessage a m ((unsentRows db id).take zbxMaxHrecords)).offset := by
              have hbound : zbxDataJsonBatchLimit ≤ zbxDataJsonRecordLimit := by decide
              intro hread
              exact hsize (hread.1.le.trans hbound)
            rw [getDbMessages, if_neg hstop]
            exact ⟨_, rfl, hcovers⟩
    · exact ⟨_, rfl, h.covers.append_rest hpos⟩

theorem pbHistoryGetDbMessage_covers (hnodup : (db.proxyHistory.map (·.id)).Nodup)
    (a : ExportArgs) (offset : ℕ) :
    ∃ m', pbHistoryGetDbMessage a db offset = some m' ∧
      CoversPrefix a (unsentRows db db.historyLastid) m'.1.records m'.1.lastid := by
  have hpos : ∀ x ∈ unsentRows db db.historyLastid, 0 < x.id :=
    fun x hx => (Nat.zero_le _).trans_lt (mem_unsentRows.mp hx).2
  have hfuel := length_unsentRows_le db db.historyLastid
  exact getDbMessages_covers hnodup _ _ [] _ (Behind.start offset)
    (ascending_unsentRows hnodup _) hpos (by omega)

end Zabbix.ProxyBuffer
