import Mathlib.Data.Fintype.Basic
import Zabbix.Ipc.Socket

/-!
# IPC clients and the service that receives from them

A connection has the client that sends, the wire, and the client of the service that receives.
-/

namespace Zabbix.Ipc

open Function

structure Outgoing where
  code : UInt32
  data : List UInt8
  size_lt : data.length < 2 ^ 32 - 8

def Outgoing.message (m : Outgoing) : IpcMessage :=
  ⟨m.code, UInt32.ofNat m.data.length, m.data⟩

/-- The `tx_` fields of `zbx_ipc_client_t`; `event` tells whether the write event is added. -/
structure Tx where
  code : UInt32
  size : UInt32
  data : List UInt8
  bytes : ℕ
  queue : List IpcMessage
  event : Bool

def ipcClientPopTxMessage (tx : Tx) : Tx :=
  match tx.queue with
  | [] => { tx with data := [], bytes := 0 }
  | message :: queue =>
    { tx with
      code := message.code
      size := message.size
      data := message.data
      bytes := (zbxIpcHeaderSize + message.size.toNat) % 2 ^ 32
      queue := queue }

def ipcClientWriteData (tx : Tx) (wire : List UInt8) (results : List IoResult) : Tx × List UInt8 :=
  if 0 < tx.bytes then
    let written := ipcWriteData ((tx.data.drop (tx.size.toNat - tx.bytes)).take tx.bytes) wire
      results
    if written.sizeSent = 0 then (tx, written.wire)
    else
      ipcClientWriteData { tx with bytes := tx.bytes - written.sizeSent } written.wire
        written.results
  else (ipcClientPopTxMessage tx, wire)
termination_by tx.bytes
decreasing_by
  have hsent : 0 < written.sizeSent := Nat.pos_of_ne_zero ‹¬written.sizeSent = 0›
  change tx.bytes - written.sizeSent < tx.bytes
  omega

def ipcClientWrite (tx : Tx) (wire : List UInt8) (results : List IoResult) : Tx × List UInt8 :=
  if tx.size.toNat < tx.bytes then
    let size := tx.bytes - tx.size.toNat
    let offset := zbxIpcHeaderSize - size
    let written := ipcWriteData (((headerBytes tx.code tx.size).drop offset).take size) wire results
    let tx := { tx with bytes := tx.bytes - written.sizeSent }
    if tx.size.toNat < tx.bytes then (tx, written.wire)
    else ipcClientWriteData tx written.wire written.results
  else ipcClientWriteData tx wire results

def ipcClientWriteEventCb (tx : Tx) (wire : List UInt8) (results : List IoResult) :
    Tx × List UInt8 :=
  let (tx, wire) := ipcClientWrite tx wire results
  (if tx.bytes = 0 then { tx with event := false } else tx, wire)

def zbxIpcClientSend (tx : Tx) (m : Outgoing) (wire : List UInt8) (results : List IoResult) :
    Tx × List UInt8 :=
  let message := m.message
  if tx.bytes ≠ 0 then ({ tx with queue := tx.queue ++ [message] }, wire)
  else
    let written := ipcSocketWriteMessage message.code message.data message.size wire results
    let total := (zbxIpcHeaderSize + message.size.toNat) % 2 ^ 32
    if written.sizeSent ≠ total then
      ({ tx with
        code := message.code
        size := message.size
        data := message.data
        bytes := total - written.sizeSent
        event := true }, written.wire)
    else (tx, written.wire)

/-- The fields of `zbx_ipc_client_t` for receiving; `event` tells whether there are events. -/
structure Rx where
  socket : RxSocket
  queue : List IpcMessage
  event : Bool
  queued : Bool

def ipcClientPushRxMessage (rx : Rx) (socket : RxSocket) : Rx :=
  let message := socket.message
  { rx with
    socket := { socket with message := { message with data := [], bytes := 0 } }
    queue := rx.queue ++ [⟨headerCode message.header, headerDataSize message.header, message.data⟩] }

/-- The loop of `ipc_client_read`, at most so many times. -/
def ipcClientReadLoop (closed : Bool) : ℕ → Rx → List UInt8 → List IoResult →
    Bool × Rx × List UInt8
  | 0, rx, wire, _ => (true, rx, wire)
  | n + 1, rx, wire, results =>
    let read := ipcSocketReadMessage closed rx.socket wire results
    if read.ok = false then
      let message := { read.socket.message with data := [], bytes := 0 }
      (false, { rx with socket := { read.socket with message := message } }, read.wire)
    else if ipcMessageIsCompleted read.socket.message then
      ipcClientReadLoop closed n (ipcClientPushRxMessage rx read.socket) read.wire read.results
    else (true, { rx with socket := read.socket }, read.wire)

def unreadBytes (rx : Rx) (wire : List UInt8) : ℕ :=
  rx.socket.buffer.length - rx.socket.offset + wire.length

/-- `ipc_client_read`; every message takes at least one of the bytes. -/
def ipcClientRead (closed : Bool) (rx : Rx) (wire : List UInt8) (results : List IoResult) :
    Bool × Rx × List UInt8 :=
  ipcClientReadLoop closed (unreadBytes rx wire + 1) rx wire results

/-- A connection with what was sent and what `zbx_ipc_service_recv` gave, nothing for the report
that it was closed. -/
structure Conn where
  tx : Tx
  wire : List UInt8
  closed : Bool
  rx : Rx
  sent : List IpcMessage
  given : List (Option IpcMessage)

structure Service (ι : Type) where
  conn : ι → Conn
  clientsRecv : List ι

section Service

variable {ι : Type} [DecidableEq ι]

def ipcServicePushClient (s : Service ι) (i : ι) : Service ι :=
  let c := s.conn i
  if c.rx.queued then s
  else if c.rx.queue.length = 0 ∧ c.rx.event then s
  else
    ⟨update s.conn i { c with rx := { c.rx with queued := true } }, s.clientsRecv ++ [i]⟩

def ipcClientReadEventCb (s : Service ι) (i : ι) (results : List IoResult) : Service ι :=
  let c := s.conn i
  let (ok, rx, wire) := ipcClientRead c.closed c.rx c.wire results
  let rx := if ok then rx else { rx with event := false }
  ipcServicePushClient { s with conn := update s.conn i { c with rx := rx, wire := wire } }
    i

def zbxIpcServiceRecv (s : Service ι) : Service ι :=
  match s.clientsRecv with
  | [] => s
  | i :: rest =>
    let c := s.conn i
    match c.rx.queue with
    | [] =>
      ⟨update s.conn i
        { c with rx := { c.rx with queued := false }, given := c.given ++ [none] }, rest⟩
    | message :: queue =>
      ipcServicePushClient
        ⟨update s.conn i
          { c with
            rx := { c.rx with queued := false, queue := queue }
            given := c.given ++ [some message] }, rest⟩ i

inductive Event (ι : Type)
  | send (i : ι) (m : Outgoing) (results : List IoResult)
  | write (i : ι) (results : List IoResult)
  | read (i : ι) (results : List IoResult)
  | close (i : ι)
  | recv

def step (s : Service ι) : Event ι → Service ι
  | .send i m results =>
    let c := s.conn i
    if c.closed then s
    else
      let (tx, wire) := zbxIpcClientSend c.tx m c.wire results
      { s with
        conn := update s.conn i
          { c with tx := tx, wire := wire, sent := c.sent ++ [m.message] } }
  | .write i results =>
    let c := s.conn i
    if c.closed = false ∧ c.tx.event then
      let (tx, wire) := ipcClientWriteEventCb c.tx c.wire results
      { s with conn := update s.conn i { c with tx := tx, wire := wire } }
    else s
  | .read i results => if (s.conn i).rx.event then ipcClientReadEventCb s i results else s
  | .close i =>
    { s with conn := update s.conn i { s.conn i with closed := true } }
  | .recv => zbxIpcServiceRecv s

def run (s : Service ι) (events : List (Event ι)) : Service ι := events.foldl step s

def newConn : Conn where
  tx := ⟨0, 0, [], 0, [], false⟩
  wire := []
  closed := false
  rx := ⟨⟨⟨List.replicate zbxIpcHeaderSize 0, [], 0⟩, [], 0⟩, [], true, false⟩
  sent := []
  given := []

def newService (ι : Type) : Service ι := ⟨fun _ => newConn, []⟩

end Service

end Zabbix.Ipc
