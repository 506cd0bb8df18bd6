import Mathlib.Data.Int.Init
import Zabbix.Foundation.Transition

/-!
# The memory cache of agent 2

`memorycache.go`: the results that wait to be sent to the server, and the goroutine that takes
its messages from a channel. Writers only put messages into the channel.
-/

namespace Zabbix.ResultCache

structure PluginResult where
  itemid : ℕ
  value : Option String
  error : Option String
  -- seconds and nanoseconds
  ts : Option (ℤ × ℤ)
  lastLogsize : Option ℕ
  mtime : Option ℤ
  eventSource : Option String
  eventID : Option ℤ
  eventSeverity : Option ℤ
  eventTimestamp : Option ℤ
  persistent : Bool
  deriving DecidableEq

structure AgentData where
  id : ℕ
  itemid : ℕ
  lastLogsize : Option ℕ
  mtime : Option ℤ
  state : Option ℤ
  value : Option String
  eventSource : Option String
  eventID : Option ℤ
  eventSeverity : Option ℤ
  eventTimestamp : Option ℤ
  clock : ℤ
  ns : ℤ
  persistent : Bool
  deriving DecidableEq

structure CommandResult where
  id : ℕ
  result : String
  error : Option String
  deriving DecidableEq

structure AgentCommands where
  id : ℕ
  value : Option String
  error : Option String
  deriving DecidableEq

structure MemoryCache where
  results : List AgentData
  cresults : List AgentCommands
  maxBufferSize : ℤ
  totalValueNum : ℤ
  persistValueNum : ℤ
  -- `c.uploader != nil`
  uploader : Bool
  lastDataID : ℕ
  lastCommandID : ℕ
  -- `c.retry != nil`
  retry : Bool
  -- the flag of `cacheData`, which `EnableUpload` sets
  historyUpload : Bool
  deriving DecidableEq

def int32 (n : ℤ) : ℤ := n.bmod 4294967296

structure Reply where
  marshalled : Bool
  upload : Bool
  errs : Bool
  canRetry : Bool
  deriving DecidableEq

structure Upload where
  data : List AgentData
  commands : List AgentCommands
  succeeded : Bool
  deriving DecidableEq

def MemoryCache.enableUpload (c : MemoryCache) (enabled : Bool) : MemoryCache :=
  { c with historyUpload := enabled }

def MemoryCache.upload (c : MemoryCache) (u : Reply) : MemoryCache × Option Upload :=
  if c.results.length + c.cresults.length = 0 then (c, none)
  else
    let attempt : Upload :=
      { data := c.results, commands := c.cresults, succeeded := u.marshalled && !u.errs }
    if u.marshalled = false then (c, some attempt)
    else
      let c := c.enableUpload u.upload
      if u.errs then (c, some attempt)
      else
        ({ c with
            results := []
            cresults := []
            totalValueNum := 0
            persistValueNum := 0 }, some attempt)

def MemoryCache.flushOutput (c : MemoryCache) (u : Reply) : MemoryCache × Option Upload :=
  let (c, upload) := ({ c with retry := false } : MemoryCache).upload u
  ({ c with retry := upload.any (!·.succeeded) && u.canRetry }, upload)

def MemoryCache.full (c : MemoryCache) : Bool :=
  c.maxBufferSize.tdiv 2 ≤ c.persistValueNum || c.maxBufferSize ≤ c.totalValueNum

def MemoryCache.addResult (c : MemoryCache) (result : AgentData) (u : Reply) :
    MemoryCache × Option Upload :=
  let full := c.full
  let c := { c with
    results := c.results ++ [result]
    totalValueNum := int32 (c.totalValueNum + 1)
    persistValueNum :=
      if result.persistent then int32 (c.persistValueNum + 1) else c.persistValueNum }
  if c.full ∧ full = false ∧ c.uploader then c.flushOutput u else (c, none)

/-- The result that `insertResult` replaces and `persistValueNum` after that. -/
def MemoryCache.findReplaced (c : MemoryCache) (result : AgentData) : Option ℕ × ℤ :=
  let index := if result.persistent then none else c.results.findIdx? (·.itemid = result.itemid)
  if index = none ∧ (result.persistent = false ∨ c.persistValueNum < c.maxBufferSize.tdiv 2) then
    match c.results.findIdx? (!·.persistent) with
    | none => (none, c.persistValueNum)
    | some i =>
      (some i, if result.persistent then int32 (c.persistValueNum + 1) else c.persistValueNum)
  else (index, c.persistValueNum)

def MemoryCache.insertResult (c : MemoryCache) (result : AgentData) (u : Reply) :
    MemoryCache × Option Upload :=
  match c.findReplaced result with
  | (none, _) => c.addResult result u
  | (some index, persistValueNum) =>
    ({ c with
        results := c.results.eraseIdx index ++ [result]
        persistValueNum := persistValueNum }, none)

def stateNotSupported : ℤ := 1

def agentData (id : ℕ) (r : PluginResult) : AgentData where
  id := id
  itemid := r.itemid
  lastLogsize := r.lastLogsize
  mtime := r.mtime
  state := r.error.map fun _ => stateNotSupported
  value := if r.error = none then r.value else r.error
  eventSource := r.eventSource
  eventID := r.eventID
  eventSeverity := r.eventSeverity
  eventTimestamp := r.eventTimestamp
  clock := (r.ts.map Prod.fst).getD 0
  ns := (r.ts.map Prod.snd).getD 0
  persistent := r.persistent

def MemoryCache.write (c : MemoryCache) (r : PluginResult) (u : Reply) :
    MemoryCache × Option Upload :=
  let c := { c with lastDataID := c.lastDataID + 1 }
  let data := agentData c.lastDataID r
  if c.maxBufferSize ≤ c.totalValueNum then c.insertResult data u else c.addResult data u

def MemoryCache.writeCommand (c : MemoryCache) (cr : CommandResult) : MemoryCache :=
  { c with
    lastCommandID := c.lastCommandID + 1
    cresults := c.cresults ++ [{
      id := cr.id
      value := if cr.result = "" then none else some cr.result
      error := cr.error }] }

def MemoryCache.updateOptions (c : MemoryCache) (bufferSize : ℤ) : MemoryCache :=
  { c with maxBufferSize := int32 bufferSize }

inductive Message
  | uploader
  | result (r : PluginResult)
  | command (cr : CommandResult)
  | options (bufferSize : ℤ)
  | stop
  deriving DecidableEq

/-- The cache with its channel, what was sent so far and all results that were written. -/
structure System where
  cache : MemoryCache
  input : List Message
  running : Bool
  uploads : List Upload
  written : List AgentData
  deriving DecidableEq

inductive Event
  -- a writer puts a message into the channel
  | send (message : Message)
  -- `Upload` is called, or the retry timer expires
  | requestUpload
  | retryTimer
  | enableUpload (enabled : Bool)
  -- `run` takes the next message; the reply is that to the upload it may lead to
  | receive (u : Reply)

def inputCapacity : ℕ := 100

def System.send (s : System) (message : Message) : Option System :=
  if s.input.length < inputCapacity then some { s with input := s.input ++ [message] } else none

def System.process (s : System) (message : Message) (u : Reply) : System :=
  match message with
  | .uploader =>
    let (c, upload) := s.cache.flushOutput u
    { s with
      cache := c
      uploads := s.uploads ++ upload.toList }
  | .result r =>
    let (c, upload) := s.cache.write r u
    { s with
      cache := c
      uploads := s.uploads ++ upload.toList
      written := s.written ++ [agentData (s.cache.lastDataID + 1) r] }
  | .command cr => { s with cache := s.cache.writeCommand cr }
  | .options bufferSize => { s with cache := s.cache.updateOptions bufferSize }
  | .stop => { s with running := false }

def step (s : System) : Event → Option System
  | .send message => s.send message
  | .requestUpload => if s.cache.historyUpload then s.send .uploader else some s
  | .retryTimer =>
    if s.cache.retry then
      if s.cache.historyUpload then s.send .uploader else some s
    else none
  | .enableUpload enabled => some { s with cache := s.cache.enableUpload enabled }
  | .receive u =>
    match s.input with
    | message :: input =>
      if s.running then some (({ s with input := input } : System).process message u) else none
    | [] => none

def initial (bufferSize : ℤ) (uploader : Bool) : System where
  cache :=
    { results := [], cresults := [], maxBufferSize := int32 bufferSize, totalValueNum := 0
      persistValueNum := 0, uploader := uploader, lastDataID := 0, lastCommandID := 0
      retry := false, historyUpload := false }
  input := []
  running := true
  uploads := []
  written := []

def Initial (s : System) : Prop := ∃ bufferSize uploader, s = initial bufferSize uploader

end Zabbix.ResultCache
