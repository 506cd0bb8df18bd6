import Zabbix.Foundation.Transition
import Mathlib.Data.List.Sort

/-!
# Hybrid-mode proxy buffer: history rows

The buffer state, the `proxy_history` table and the code of `pb_history.c` and `proxybuffer.c` that
moves history rows between them. Every event of `step` is one atomic part of that code: a section
under the buffer lock, the allocation of row ids, a database commit, one select of the database
reader. What the buffer shares with discovery and autoregistration data is an argument of the events
that read it, and so are the clock, the room in the shared memory and the size of the exported JSON.
-/

namespace Zabbix.ProxyBuffer

open Function

inductive PbState
  | database
  | databaseMemory
  | memory
  | memoryDatabase
  deriving DecidableEq, Repr

def getPbDst : PbState → PbState
  | .database => .database
  | .databaseMemory => .memory
  | .memory => .memory
  | .memoryDatabase => .database

def getPbSrc : PbState → PbState
  | .database => .database
  | .databaseMemory => .database
  | .memory => .memory
  | .memoryDatabase => .memory

/-- `zbx_pb_history_t`, as far as the buffer reads it. -/
structure PbHistory where
  id : ℕ
  itemid : ℕ
  flags : ℕ
  writeClock : ℤ
  value : String
  source : String
  deriving DecidableEq, Repr

structure Pb where
  history : List PbHistory
  state : PbState
  dbHandlesNum : ℕ
  maxAge : ℤ
  offlineBuffer : ℤ
  historyLastidSent : ℕ
  historyLastidDb : ℕ
  historyLastidMem : ℕ
  handleid : ℕ
  historyHandleids : List ℕ

/-- Table `proxy_history` and the `history_lastid` row of table `ids` (0 without a row). -/
structure Db where
  proxyHistory : List PbHistory
  historyLastid : ℕ

/-- `zbx_pb_history_data_t` together with the place its owner has reached. -/
inductive Handle
  | closed
  | opened (state : PbState) (rows : List PbHistory)
  /-- Ids are assigned; `pending` is the part of `rows` to be inserted by the commit. -/
  | inserting (rows pending : List PbHistory)
  | committed (rows : List PbHistory) (lastid : ℕ)

def Handle.pending : Handle → List PbHistory
  | .inserting _ pending => pending
  | _ => []

def Handle.usesDb : Handle → Bool
  | .opened .database _ => true
  | .inserting _ _ => true
  | .committed _ _ => true
  | _ => false

/-- The local variables of `pb_history_get_db` and `pb_history_get_rows_db`; `batch` holds the rows
of earlier rounds of the reading loop. -/
structure Reader where
  lastid : ℕ
  gapid : ℕ
  rows : List PbHistory
  batch : List PbHistory
  exported : ℕ
  recordsNum : ℕ
  offset : ℕ

structure Batch where
  lastid : ℕ
  rows : List PbHistory
  more : Bool

inductive Sender
  | idle
  | dbSource (offset : ℕ)
  | reading (r : Reader)
  | gap (r : Reader)
  | waiting (r : Reader) (handleid : ℕ)
  | uploading (b : Batch)
  | acking (b : Batch) (source : PbState)
  | uploaded (b : Batch)

/-- The buffer, the database, the id counter of `proxy_history`, the open handles and the data
sender; as history variables, the rows of closed handles and the ids of rows that were acknowledged
or dropped for their age. -/
structure World where
  pb : Pb
  db : Db
  nextid : ℕ
  handles : ℕ → Handle
  sender : Sender
  finished : List PbHistory
  acked : List ℕ
  dropped : List ℕ

def zbxMaxHrecords : ℕ := 1000
def zbxMaxHrecordsTotal : ℕ := 10000
def zbxMaxRecvDataSize : ℕ := 1024 * 1024 * 1024
def zbxDataJsonReserved : ℕ := 65535 * 4 + 1024 * 4
def zbxDataJsonRecordLimit : ℕ := zbxMaxRecvDataSize - zbxDataJsonReserved
def zbxDataJsonBatchLimit : ℕ := (zbxMaxRecvDataSize - zbxDataJsonReserved) / 2

def pbHistorySetRowIds (last : ℕ) : List PbHistory → List PbHistory
  | [] => []
  | row :: rows => { row with id := last + 1 } :: pbHistorySetRowIds (last + 1) rows

def lastRowId (rows : List PbHistory) : ℕ := (rows.getLast?.map (·.id)).getD 0

/-- `pb_history_add_rows_mem` when the memory takes `fit` more rows; the rows that were
not added are returned. -/
def pbHistoryAddRowsMem (pb : Pb) (rows : List PbHistory) (fit : ℕ) : Pb × List PbHistory :=
  ({ pb with
      history := pb.history ++ rows.take fit
      historyLastidMem := if rows.take fit = [] then pb.historyLastidMem
        else lastRowId (rows.take fit) },
    rows.drop fit)

def pbHistoryClear (pb : Pb) (lastid : ℕ) : Pb :=
  { pb with history := pb.history.dropWhile (·.id ≤ lastid) }

def freshRows (pb : Pb) (now : ℤ) : List PbHistory :=
  pb.history.dropWhile (fun row => pb.offlineBuffer < now - row.writeClock)

/-- `pb_history_check_age`: `none` for `FAIL`, the second clock reading being `now'`. -/
def pbHistoryAgeOk (pb : Pb) (now now' : ℤ) : Bool :=
  decide (pb.maxAge = 0) ||
    match freshRows pb now with
    | [] => true
    | row :: _ => decide (now' - row.writeClock < pb.maxAge)

def pbSetState (pb : Pb) (state : PbState) : Pb := { pb with state := state }

/-- `pb_flush` in hybrid mode; `others` tells whether discovery or autoregistration rows
are in memory. -/
def pbFlush (pb : Pb) (db : Db) (others : Bool) : Pb × Db :=
  if pb.history ≠ [] ∨ others = true then
    ({ pb with
        history := []
        historyLastidDb := max pb.historyLastidDb (lastRowId pb.history) },
      { proxyHistory := db.proxyHistory ++ pb.history
        historyLastid :=
          if pb.historyLastidSent ≠ 0 then pb.historyLastidSent else db.historyLastid })
  else ({ pb with history := [] }, db)

def pdFallbackToDatabase (pb : Pb) (db : Db) (others : Bool) : Pb × Db :=
  (pbSetState (pbFlush pb db others).1 .database, (pbFlush pb db others).2)

def pbRegisterHandle (pb : Pb) : Pb :=
  { pb with
    handleid := pb.handleid + 1
    historyHandleids := pb.historyHandleids ++ [pb.handleid + 1] }

def pbDeregisterHandle (pb : Pb) (handleid : ℕ) : Pb :=
  { pb with historyHandleids := pb.historyHandleids.erase handleid }

def zbxPbHistoryOpen (w : World) : World :=
  let pb := pbRegisterHandle w.pb
  let state := getPbDst pb.state
  { w with
    pb := if state = .database then { pb with dbHandlesNum := pb.dbHandlesNum + 1 } else pb
    handles := update w.handles pb.handleid (.opened state []) }

def zbxPbHistoryWriteValue (w : World) (h : ℕ) (state : PbState) (rows : List PbHistory)
    (row : PbHistory) : World :=
  { w with
    handles := update w.handles h (.opened state (rows ++ [{ row with id := 0 }])) }

structure CloseArgs where
  now : ℤ
  now' : ℤ
  fit : ℕ
  others : Bool

/-- What every path of `zbx_pb_history_close` ends with: the handle is taken off the list and freed.
-/
def finishClose (w : World) (h : ℕ) (rows : List PbHistory) : World :=
  { w with
    pb := pbDeregisterHandle w.pb h
    handles := update w.handles h .closed
    finished := w.finished ++ rows }

def startInsert (w : World) (h : ℕ) (rows pending : List PbHistory) : World :=
  { w with
    pb := { w.pb with dbHandlesNum := w.pb.dbHandlesNum + 1 }
    handles := update w.handles h (.inserting rows pending) }

/-- `pd_fallback_to_database` on the whole state. -/
def fallback (w : World) (others : Bool) : World :=
  { w with
    pb := (pdFallbackToDatabase w.pb w.db others).1
    db := (pdFallbackToDatabase w.pb w.db others).2 }

def closeToMemory (w : World) (h : ℕ) (rows : List PbHistory) (a : CloseArgs) : World :=
  let added := pbHistoryAddRowsMem w.pb rows a.fit
  let w' := { w with pb := added.1 }
  if added.2 = [] then finishClose w' h rows
  else if w'.pb.state = .databaseMemory then startInsert (fallback w' a.others) h rows added.2
  else startInsert { w' with pb := pbSetState w'.pb .memoryDatabase } h rows added.2

/-- The rows `pb_history_check_age` leaves in memory; the others are dropped. -/
def dropAged (w : World) (now : ℤ) : World :=
  { w with
    pb := { w.pb with history := freshRows w.pb now }
    dropped := w.dropped ++
      (w.pb.history.takeWhile
        (fun row => w.pb.offlineBuffer < now - row.writeClock)).map (·.id) }

def closeMemoryHandle (w : World) (h : ℕ) (rows : List PbHistory) (a : CloseArgs) : World :=
  if rows = [] then finishClose w h []
  else
    let ids := pbHistorySetRowIds w.nextid rows
    let w := { w with nextid := w.nextid + rows.length }
    if w.pb.state = .memory then
      if pbHistoryAgeOk w.pb a.now a.now' then closeToMemory (dropAged w a.now) h ids a
      else startInsert (fallback (dropAged w a.now) a.others) h ids ids
    else if getPbDst w.pb.state = .memory then closeToMemory w h ids a
    else startInsert w h ids ids

/-- Id allocation of `zbx_db_insert_execute` for a database handle. -/
def autoincrement (w : World) (h : ℕ) (rows : List PbHistory) : World :=
  { w with
    nextid := w.nextid + rows.length
    handles := update w.handles h
      (.inserting (pbHistorySetRowIds w.nextid rows) (pbHistorySetRowIds w.nextid rows)) }

/-- The database commit of `zbx_pb_history_close`. -/
def commitRows (w : World) (h : ℕ) (rows pending : List PbHistory) : World :=
  { w with
    db := { w.db with proxyHistory := w.db.proxyHistory ++ pending }
    handles := update w.handles h (.committed rows (lastRowId pending)) }

def closeFinal (w : World) (h : ℕ) (rows : List PbHistory) (lastid : ℕ) : World :=
  finishClose
    { w with
      pb := { w.pb with
        historyLastidDb := max w.pb.historyLastidDb lastid
        dbHandlesNum := w.pb.dbHandlesNum - 1 } } h rows

/-- What `pb_history_export` takes from the configuration cache and the JSON layer: the items sent,
and by how much a record makes the message grow. -/
structure ExportArgs where
  monitored : ℕ → Bool
  jsonGrow : ℕ → PbHistory → ℕ

/-- A row without a value and without metadata changes, `ZBX_PROXY_HISTORY_MASK_NOVALUE`. -/
def PbHistory.novalue (row : PbHistory) : Bool := row.flags &&& 3 == 2

/-- The rows `pb_history_export` keeps: of the rows without a value only the last one of
each item. -/
def dropDuplicateNovalue : List PbHistory → List PbHistory
  | [] => []
  | row :: rows =>
    if row.novalue ∧ ∃ r ∈ rows, r.novalue ∧ r.itemid = row.itemid then
      dropDuplicateNovalue rows
    else row :: dropDuplicateNovalue rows

structure Export where
  recordsNum : ℕ
  offset : ℕ
  lastid : ℕ

def exportRecords (a : ExportArgs) : Export → List PbHistory → Export
  | x, [] => x
  | x, row :: rows =>
    if a.monitored row.itemid then
      let x' : Export := ⟨x.recordsNum + 1, x.offset + a.jsonGrow x.recordsNum row, row.id⟩
      if zbxDataJsonRecordLimit < x'.offset then x' else exportRecords a x' rows
    else exportRecords a { x with lastid := row.id } rows

def pbHistoryExport (a : ExportArgs) (x : Export) (rows : List PbHistory) : Export :=
  exportRecords a x (dropDuplicateNovalue rows)

def coveredRows (rows : List PbHistory) (lastid : ℕ) : List PbHistory :=
  rows.filter (·.id ≤ lastid)

/-- The fetch loop of `pb_history_get_rows_db`. The flag is set when a row id is missing before the
row that would be next. -/
def fetchRows (r : Reader) : List PbHistory → Reader × Bool
  | [] => (r, false)
  | row :: rest =>
    if 1 < row.id - r.lastid ∧ row.id ≠ r.gapid then ({ r with gapid := row.id }, true)
    else fetchRows { r with rows := r.rows ++ [row], lastid := row.id } rest

def selectRows (db : Db) (r : Reader) : List PbHistory :=
  ((db.proxyHistory.filter (r.lastid < ·.id)).insertionSort (fun a b => a.id ≤ b.id)).take
    (zbxMaxHrecords - r.rows.length)

/-- The reading loop of `pb_history_get_db` goes on. -/
def readMore (recordsNum offset : ℕ) : Prop :=
  offset < zbxDataJsonBatchLimit ∧ recordsNum < zbxMaxHrecordsTotal

instance (recordsNum offset : ℕ) : Decidable (readMore recordsNum offset) :=
  inferInstanceAs (Decidable (_ ∧ _))

def finishRound (a : ExportArgs) (r : Reader) : Sender :=
  if r.rows = [] then .uploading ⟨r.exported, r.batch, false⟩
  else
    let x := pbHistoryExport a ⟨r.recordsNum, r.offset, r.exported⟩ r.rows
    let batch := r.batch ++ coveredRows r.rows x.lastid
    if r.rows.length < zbxMaxHrecords then .uploading ⟨x.lastid, batch, false⟩
    else if readMore x.recordsNum x.offset then
      .reading ⟨x.lastid, 0, [], batch, x.lastid, x.recordsNum, x.offset⟩
    else .uploading ⟨x.lastid, batch, true⟩

def selectStep (a : ExportArgs) (db : Db) (r : Reader) : Sender :=
  match fetchRows r (selectRows db r) with
  | (r', true) => .gap r'
  | (r', false) => finishRound a r'

def getMemRounds (a : ExportArgs) : ℕ → List PbHistory → List PbHistory → Export → Batch
  | 0, _, batch, x => ⟨x.lastid, batch, false⟩
  | fuel + 1, rows, batch, x =>
    let chunk := rows.take zbxMaxHrecords
    let x' := pbHistoryExport a x chunk
    let batch' := batch ++ coveredRows chunk x'.lastid
    if chunk.length ≠ zbxMaxHrecords then ⟨x'.lastid, batch', false⟩
    else if zbxDataJsonBatchLimit ≤ x'.offset ∨ zbxMaxHrecordsTotal ≤ x'.recordsNum then
      ⟨x'.lastid, batch', true⟩
    else getMemRounds a fuel (rows.drop zbxMaxHrecords) batch' x'

def pbHistoryGetMem (a : ExportArgs) (pb : Pb) (offset : ℕ) : Batch :=
  if pb.history = [] then ⟨0, [], false⟩
  else getMemRounds a (pb.history.length + 1) pb.history [] ⟨0, offset, 0⟩

def zbxPbHistoryGetRows (w : World) (a : ExportArgs) (offset : ℕ) : World :=
  { w with
    sender :=
      if getPbSrc w.pb.state = .memory then .uploading (pbHistoryGetMem a w.pb offset)
      else .dbSource offset }

def pbGetLastid (w : World) (offset : ℕ) : World :=
  { w with
    sender :=
      if readMore 0 offset then .reading ⟨w.db.historyLastid, 0, [], [], 0, 0, offset⟩
      else .uploading ⟨0, [], true⟩ }

def pbWaitHandles (w : World) (r : Reader) : World :=
  { w with sender := .waiting r (w.pb.historyHandleids.foldl max 0) }

def zbxPbSetHistoryLastid (w : World) (b : Batch) : World :=
  let pb := { w.pb with historyLastidSent := b.lastid }
  { w with
    pb := if getPbSrc pb.state = .memory then pbHistoryClear pb b.lastid else pb
    sender := .acking b (getPbSrc pb.state)
    acked := w.acked ++ b.rows.map (·.id) }

/-- The database part of `zbx_pb_set_history_lastid`. -/
def pbHistorySetLastid (w : World) (b : Batch) (source : PbState) : World :=
  { w with
    db := if source = .database then { w.db with historyLastid := b.lastid } else w.db
    sender := .uploaded b }

/-- What `pb_update_state` reads of discovery and autoregistration data: rows in memory;
no pending inserts and everything in the database uploaded. -/
structure UpdateArgs where
  more : Bool
  othersMem : Bool
  othersUploaded : Bool

def pbUpdateState (pb : Pb) (db : Db) (a : UpdateArgs) : Pb × Db :=
  match pb.state with
  | .memory => (pb, db)
  | .memoryDatabase =>
    if pb.history = [] ∧ a.othersMem = false then
      (pbSetState pb .database,
        { db with
          historyLastid :=
            if pb.historyLastidSent ≠ 0 then pb.historyLastidSent else db.historyLastid })
    else (pb, db)
  | .database => if a.more = false then (pbSetState pb .databaseMemory, db) else (pb, db)
  | .databaseMemory =>
    if pb.dbHandlesNum = 0 ∧ a.othersUploaded = true ∧
        pb.historyLastidDb ≤ pb.historyLastidSent then
      (pbSetState pb .memory, db)
    else (pb, db)

def zbxPbUpdateState (w : World) (a : UpdateArgs) : World :=
  { w with
    pb := (pbUpdateState w.pb w.db a).1
    db := (pbUpdateState w.pb w.db a).2
    sender := .idle }

/-- The atomic parts of the history handles and of the data sender, and the two ways in which
closing another handle changes the history buffer. -/
inductive Event
  | openHandle
  | writeValue (h : ℕ) (row : PbHistory)
  | closeMemory (h : ℕ) (a : CloseArgs)
  | autoincrement (h : ℕ)
  | commit (h : ℕ)
  | closeFinal (h : ℕ)
  | getRows (a : ExportArgs) (offset : ℕ)
  | getLastid
  | select (a : ExportArgs)
  | waitHandles
  | handlesClosed
  | uploadFailed
  | uploadSucceeded
  | setHistoryLastid
  | setLastidDb
  | updateState (a : UpdateArgs)
  | skipUpdate
  | otherFallback (others : Bool)
  | otherNoSpace

def step (w : World) : Event → Option World
  | .openHandle => some (zbxPbHistoryOpen w)
  | .writeValue h row =>
    match w.handles h with
    | .opened state rows => some (zbxPbHistoryWriteValue w h state rows row)
    | _ => none
  | .closeMemory h a =>
    match w.handles h with
    | .opened .memory rows => some (closeMemoryHandle w h rows a)
    | _ => none
  | .autoincrement h =>
    match w.handles h with
    | .opened .database rows => some (autoincrement w h rows)
    | _ => none
  | .commit h =>
    match w.handles h with
    | .inserting rows pending => some (commitRows w h rows pending)
    | _ => none
  | .closeFinal h =>
    match w.handles h with
    | .committed rows lastid => some (closeFinal w h rows lastid)
    | _ => none
  | .getRows a offset =>
    match w.sender with
    | .idle => some (zbxPbHistoryGetRows w a offset)
    | _ => none
  | .getLastid =>
    match w.sender with
    | .dbSource offset => some (pbGetLastid w offset)
    | _ => none
  | .select a =>
    match w.sender with
    | .reading r => some { w with sender := selectStep a w.db r }
    | _ => none
  | .waitHandles =>
    match w.sender with
    | .gap r => some (pbWaitHandles w r)
    | _ => none
  | .handlesClosed =>
    match w.sender with
    | .waiting r handleid =>
      if ∀ h ∈ w.pb.historyHandleids, handleid < h then some { w with sender := .reading r }
      else none
    | _ => none
  | .uploadFailed =>
    match w.sender with
    | .uploading _ => some { w with sender := .idle }
    | _ => none
  -- without a history row in the message there is no lastid to store
  | .uploadSucceeded =>
    match w.sender with
    | .uploading b => if b.lastid = 0 then some { w with sender := .uploaded b } else none
    | _ => none
  | .setHistoryLastid =>
    match w.sender with
    | .uploading b => if b.lastid ≠ 0 then some (zbxPbSetHistoryLastid w b) else none
    | _ => none
  | .setLastidDb =>
    match w.sender with
    | .acking b source => some (pbHistorySetLastid w b source)
    | _ => none
  | .updateState a =>
    match w.sender with
    | .uploaded b => if b.more = true → a.more = true then some (zbxPbUpdateState w a) else none
    | _ => none
  | .skipUpdate =>
    match w.sender with
    | .uploaded _ => some { w with sender := .idle }
    | _ => none
  -- in memory state the other data can only be too old while some of it is in memory
  | .otherFallback others =>
    if w.pb.state = .databaseMemory ∨ w.pb.state = .memory ∧ others = true then
      some (fallback w others)
    else none
  | .otherNoSpace =>
    if w.pb.state = .memory then some { w with pb := pbSetState w.pb .memoryDatabase } else none

def maxRowId (rows : List PbHistory) : ℕ := rows.foldl (fun m row => max m row.id) 0

def pbCheckUnsentRows (db : Db) : ℕ := min db.historyLastid (maxRowId db.proxyHistory)

/-- `pb_init_state` in hybrid mode; `othersUnsent` stands for unsent discovery or
autoregistration rows. -/
def pbInitState (db : Db) (maxAge offlineBuffer : ℤ) (othersUnsent : Bool) : World :=
  let lastid := pbCheckUnsentRows db
  let maxid := maxRowId db.proxyHistory
  { pb :=
      { history := []
        state := if lastid < maxid ∨ othersUnsent = true then .database else .memory
        dbHandlesNum := 0
        maxAge := maxAge
        offlineBuffer := offlineBuffer
        historyLastidSent := lastid
        historyLastidDb := maxid
        historyLastidMem := 0
        handleid := 0
        historyHandleids := [] }
    db := { db with historyLastid := lastid }
    nextid := maxid
    handles := fun _ => .closed
    sender := .idle
    finished := db.proxyHistory
    acked := (coveredRows db.proxyHistory lastid).map (·.id)
    dropped := [] }

def Init (w : World) : Prop :=
  ∃ (db : Db) (maxAge offlineBuffer : ℤ) (othersUnsent : Bool),
    (db.proxyHistory.map (·.id)).Nodup ∧ (∀ row ∈ db.proxyHistory, row.id ≠ 0) ∧
      w = pbInitState db maxAge offlineBuffer othersUnsent

end Zabbix.ProxyBuffer
