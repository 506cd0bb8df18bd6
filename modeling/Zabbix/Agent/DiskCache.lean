import Mathlib.Data.List.Sort
import Zabbix.Agent.ResultCache

/-!
# The disk cache of agent 2

`diskcache.go`: the results wait in the tables `data` and `log` of a database, the results of
commands in the table `command`.
-/

namespace Zabbix.ResultCache

open Zabbix.Transition

/-- A row, with the result its columns were made of. The code reads the columns only. -/
structure Row (α : Type) where
  id : ℕ
  writeClock : ℤ
  source : α
  deriving DecidableEq

def dbVariableNotSet : ℤ := -1

def storageTolerance : ℤ := 600

def dataLimit : ℕ := 10000

namespace Row

variable {α : Type} (row : Row PluginResult) (command : Row CommandResult)

/-! What `write` puts into the columns. -/

def lastlogsize : ℤ :=
  (row.source.lastLogsize.map fun n : ℕ => (n : ℤ).bmod 18446744073709551616).getD dbVariableNotSet

def value : String := (if row.source.error = none then row.source.value else row.source.error).getD ""

def state : ℤ := (row.source.error.map fun _ => stateNotSupported).getD dbVariableNotSet

def clock : ℤ := (row.source.ts.map Prod.fst).getD 0

def ns : ℤ := (row.source.ts.map Prod.snd).getD 0

/-- The pointer to a scanned variable, which is set where it does not hold the marker. -/
def nullable {β : Type} [DecidableEq β] (marker x : β) : Option β :=
  if x = marker then none else some x

def resultFetch : AgentData where
  id := row.id
  itemid := row.source.itemid
  lastLogsize :=
    (nullable dbVariableNotSet row.lastlogsize).map fun z => (z % 18446744073709551616).toNat
  mtime := nullable dbVariableNotSet (row.source.mtime.getD dbVariableNotSet)
  state := nullable dbVariableNotSet row.state
  value := nullable "" row.value
  eventSource := nullable "" (row.source.eventSource.getD "")
  eventID := nullable dbVariableNotSet (row.source.eventID.getD dbVariableNotSet)
  eventSeverity := nullable dbVariableNotSet (row.source.eventSeverity.getD dbVariableNotSet)
  eventTimestamp := nullable dbVariableNotSet (row.source.eventTimestamp.getD dbVariableNotSet)
  clock := row.clock
  ns := row.ns
  persistent := false

def error : String := command.source.error.getD ""

/-- `SELECT MAX(id)`. -/
def lastID (rows : List (Row α)) : ℕ := rows.foldl (fun id row => max id row.id) 0

/-- `SELECT MIN(write_clock)`. -/
def oldestWriteClock : List (Row α) → ℤ
  | [] => 0
  | row :: rows => rows.foldl (fun clock row => min clock row.writeClock) row.writeClock

/-- `ORDER BY id LIMIT DataLimit`. -/
def select (rows : List (Row α)) : List (Row α) :=
  (rows.insertionSort fun a b => a.id ≤ b.id).take dataLimit

end Row

structure DiskCache where
  storagePeriod : ℤ
  oldestLog : ℤ
  oldestData : ℤ
  oldestCommand : ℤ
  persistFlag : Bool
  lastDataID : ℕ
  lastCommandID : ℕ
  data : List (Row PluginResult)
  log : List (Row PluginResult)
  command : List (Row CommandResult)

namespace DiskCache

def write (c : DiskCache) (now : ℤ) (r : PluginResult) : DiskCache :=
  let c := { c with lastDataID := c.lastDataID + 1 }
  let row : Row PluginResult := ⟨c.lastDataID, now, r⟩
  if r.persistent then
    let c := if c.oldestLog = 0 then { c with oldestLog := row.clock } else c
    let c := if c.storagePeriod < now - c.oldestLog then { c with persistFlag := true } else c
    { c with log := c.log ++ [row] }
  else
    let c := if c.oldestData = 0 then { c with oldestData := row.clock } else c
    let c :=
      if c.storagePeriod + storageTolerance < now - c.oldestData then
        let data := c.data.filter fun row => now - c.storagePeriod ≤ row.clock
        { c with
          data := data
          oldestData := Row.oldestWriteClock data }
      else c
    { c with data := c.data ++ [row] }

def writeCommand (c : DiskCache) (now : ℤ) (cr : CommandResult) : DiskCache :=
  let c := { c with lastCommandID := c.lastCommandID + 1 }
  let c := if c.oldestCommand = 0 then { c with oldestCommand := now } else c
  let c :=
    if c.storagePeriod + storageTolerance < now - c.oldestCommand then
      let command := c.command.filter fun row => now - c.storagePeriod ≤ row.writeClock
      { c with
        command := command
        oldestCommand := Row.oldestWriteClock command }
    else c
  { c with command := c.command ++ [⟨c.lastCommandID, now, cr⟩] }

def batch (c : DiskCache) : List (Row PluginResult) := Row.select (c.data ++ c.log)

def commandBatch (c : DiskCache) : List (Row CommandResult) := Row.select c.command

structure Fetched where
  results : List AgentData
  maxDataId : ℕ
  maxLogId : ℕ

def Fetched.next (f : Fetched) (row : Row PluginResult) : Fetched :=
  let result := row.resultFetch
  if result.lastLogsize = none then
    { f with
      results := f.results ++ [result]
      maxDataId := row.id }
  else
    { f with
      results := f.results ++ [result]
      maxLogId := row.id }

def resultsGet (c : DiskCache) : Fetched := c.batch.foldl Fetched.next ⟨[], 0, 0⟩

/-- The variables of `commandResultsGet`; all its results point to `result`, whose own pointers lead
to `Value` and `ErrMsg`. -/
structure Scan where
  id : ℕ
  resultId : ℕ
  value : String
  errMsg : String
  -- `result.Value != nil` and `result.Error != nil`
  valueSet : Bool
  errorSet : Bool
  results : ℕ
  maxCommandId : ℕ

def Scan.next (s : Scan) (row : Row CommandResult) : Scan where
  id := row.id
  resultId := row.source.id
  value := row.source.result
  errMsg := row.error
  valueSet := s.valueSet || row.source.result ≠ ""
  errorSet := s.errorSet || row.error ≠ ""
  results := s.results + 1
  maxCommandId := row.id

def Scan.result (s : Scan) : AgentCommands where
  id := s.resultId
  value := if s.valueSet then some s.value else none
  error := if s.errorSet then some s.errMsg else none

def scan (rows : List (Row CommandResult)) : Scan :=
  rows.foldl Scan.next ⟨0, 0, "", "", false, false, 0, 0⟩

def commandResultsGet (c : DiskCache) : List AgentCommands × ℕ :=
  let s := scan c.commandBatch
  (List.replicate s.results s.result, s.maxCommandId)

def upload (c : DiskCache) (now : ℤ) (u : Reply) : DiskCache × Option Upload :=
  let fetched := c.resultsGet
  let (cresults, maxCommandId) := c.commandResultsGet
  if fetched.results.length + cresults.length = 0 then (c, none)
  else
    let attempt : Upload :=
      { data := fetched.results, commands := cresults, succeeded := u.marshalled && !u.errs }
    if attempt.succeeded = false then (c, some attempt)
    else
      let c :=
        if fetched.maxDataId ≠ 0 then
          let data := c.data.filter fun row => fetched.maxDataId < row.id
          { c with
            data := data
            oldestData := Row.oldestWriteClock data }
        else c
      let c :=
        if fetched.maxLogId ≠ 0 then
          let log := c.log.filter fun row => fetched.maxLogId < row.id
          let oldestLog := Row.oldestWriteClock log
          { c with
            log := log
            oldestLog := oldestLog
            persistFlag := c.persistFlag && ¬(oldestLog = 0 ∨ now - oldestLog < c.storagePeriod) }
        else c
      let c :=
        if maxCommandId ≠ 0 then
          let command := c.command.filter fun row => maxCommandId < row.id
          { c with
            command := command
            oldestCommand := Row.oldestWriteClock command }
        else c
      (c, some attempt)

/-- `init` of the next process, after `prepareDiskCache` has deleted the logs. -/
def restart (c : DiskCache) (storagePeriod : ℤ) : DiskCache where
  storagePeriod := storagePeriod
  oldestLog := 0
  oldestData := Row.oldestWriteClock c.data
  oldestCommand := Row.oldestWriteClock c.command
  persistFlag := false
  lastDataID := Row.lastID c.data
  lastCommandID := Row.lastID c.command
  data := c.data
  log := []
  command := c.command

inductive Event
  | write (now : ℤ) (r : PluginResult)
  | writeCommand (now : ℤ) (cr : CommandResult)
  | upload (now : ℤ) (u : Reply)
  | updateOptions (storagePeriod : ℤ)
  | restart (storagePeriod : ℤ)

def step (c : DiskCache) : Event → Option DiskCache
  | .write now r => some (c.write now r)
  | .writeCommand now cr => some (c.writeCommand now cr)
  | .upload now u => some (c.upload now u).1
  | .updateOptions storagePeriod => some { c with storagePeriod := storagePeriod }
  | .restart storagePeriod => some (c.restart storagePeriod)

def initial (storagePeriod : ℤ) : DiskCache := ⟨storagePeriod, 0, 0, 0, false, 0, 0, [], [], []⟩

def Reachable : DiskCache → Prop :=
  Reach (fun c => ∃ storagePeriod, c = initial storagePeriod) step anyEvent

end DiskCache
end Zabbix.ResultCache
