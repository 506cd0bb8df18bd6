import Zabbix.Serialize.Compact

/-!
# IPC sockets

Messages over a socket that takes and returns any number of bytes at a time. The bytes that were
written and not read yet are the wire; what every call of `write` and `read` does is given, and a
socket for which nothing more is given would block.
-/

namespace Zabbix.Ipc

open Zabbix.Serialize

def zbxIpcHeaderSize : ℕ := 8

def zbxIpcSocketBufferSize : ℕ := 4096

structure IpcMessage where
  code : UInt32
  size : UInt32
  data : List UInt8
  deriving DecidableEq

def headerBytes (code size : UInt32) : List UInt8 :=
  zbxSerializeValue code ++ zbxSerializeValue size

def headerCode (header : List UInt8) : UInt32 := UInt32.ofNat (rawValue (header.take 4))

def headerDataSize (header : List UInt8) : UInt32 :=
  UInt32.ofNat (rawValue ((header.drop 4).take 4))

def memcpy (memory : List UInt8) (offset : ℕ) (bytes : List UInt8) : List UInt8 :=
  memory.take offset ++ bytes ++ memory.drop (offset + bytes.length)

/-- What a call of `write` or `read` does: it moves one byte and at most so many more, is
interrupted, or would block. -/
inductive IoResult
  | bytes (more : ℕ)
  | intr
  | wouldBlock

structure Written where
  wire : List UInt8
  sizeSent : ℕ
  results : List IoResult

def ipcWriteDataFrom (data : List UInt8) : List IoResult → List UInt8 → ℕ → Written
  | [], wire, offset => ⟨wire, offset, []⟩
  | result :: results, wire, offset =>
    if offset = data.length then ⟨wire, offset, result :: results⟩
    else
      match result with
      | .intr => ipcWriteDataFrom data results wire offset
      | .wouldBlock => ⟨wire, offset, results⟩
      | .bytes more =>
        let n := min (more + 1) (data.length - offset)
        ipcWriteDataFrom data results (wire ++ (data.drop offset).take n) (offset + n)

def ipcWriteData (data wire : List UInt8) (results : List IoResult) : Written :=
  ipcWriteDataFrom data results wire 0

def ipcSocketWriteMessage (code : UInt32) (data : List UInt8) (size : UInt32) (wire : List UInt8)
    (results : List IoResult) : Written :=
  let header := headerBytes code size
  if size.toNat ≤ zbxIpcSocketBufferSize - zbxIpcHeaderSize then
    ipcWriteData (header ++ data.take size.toNat) wire results
  else
    let head := ipcWriteData header wire results
    if head.sizeSent ≠ zbxIpcHeaderSize then head
    else
      let body := ipcWriteData (data.take size.toNat) head.wire head.results
      { body with sizeSent := (head.sizeSent + body.sizeSent) % 2 ^ 32 }

structure ReadData where
  ok : Bool
  bytes : List UInt8
  wire : List UInt8
  results : List IoResult

def ipcReadData (closed : Bool) (size : ℕ) (wire : List UInt8) : List IoResult → ReadData
  | [] => ⟨true, [], wire, []⟩
  | .intr :: results => ipcReadData closed size wire results
  | .wouldBlock :: results => ⟨true, [], wire, results⟩
  | .bytes more :: results =>
    if wire = [] then ⟨!closed, [], wire, results⟩
    else
      let n := min (more + 1) size
      ⟨true, wire.take n, wire.drop n, results⟩

theorem ipcReadData_wire (closed : Bool) (size : ℕ) (wire : List UInt8) (results : List IoResult) :
    (ipcReadData closed size wire results).bytes ++ (ipcReadData closed size wire results).wire =
      wire := by
  induction results with
  | nil => rfl
  | cons result results ih =>
    cases result with
    | intr => exact ih
    | wouldBlock => rfl
    | bytes more =>
      simp only [ipcReadData]
      split_ifs with hwire
      · rfl
      · exact List.take_append_drop _ wire

/-- `ipc_read_data_full` from an offset on, with what was read before it. -/
def ipcReadDataFullFrom (closed : Bool) (size : ℕ) (before wire : List UInt8)
    (results : List IoResult) : ReadData :=
  if before.length < size then
    let chunk := ipcReadData closed (size - before.length) wire results
    if chunk.ok = false then ⟨false, before, chunk.wire, chunk.results⟩
    else if chunk.bytes.length = 0 then ⟨true, before, chunk.wire, chunk.results⟩
    else ipcReadDataFullFrom closed size (before ++ chunk.bytes) chunk.wire chunk.results
  else ⟨true, before, wire, results⟩
termination_by size - before.length
decreasing_by
  change size - (before ++ chunk.bytes).length < size - before.length
  rw [List.length_append]
  omega

def ipcReadDataFull (closed : Bool) (size : ℕ) (wire : List UInt8) (results : List IoResult) :
    ReadData :=
  ipcReadDataFullFrom closed size [] wire results

structure RxMessage where
  header : List UInt8
  data : List UInt8
  bytes : ℕ

structure ReadBuffer where
  completed : Bool
  message : RxMessage
  readSize : ℕ

/-- The part of `ipc_read_buffer` that reads data; `readSize` bytes of the buffer belong to the
header. -/
def ipcReadBufferData (message : RxMessage) (buffer : List UInt8) (dataOffset readSize : ℕ) :
    ReadBuffer :=
  let dataSize := (headerDataSize message.header).toNat
  let copySize := min (dataSize - dataOffset) (buffer.length - readSize)
  let readSize' := readSize + copySize
  ⟨decide ((message.bytes + readSize') % 2 ^ 32 = (dataSize + zbxIpcHeaderSize) % 2 ^ 32),
    { message with
      data := memcpy message.data dataOffset ((buffer.drop readSize).take copySize)
      bytes := (message.bytes + readSize') % 2 ^ 32 }, readSize'⟩

def ipcReadBuffer (message : RxMessage) (buffer : List UInt8) : ReadBuffer :=
  if message.bytes < zbxIpcHeaderSize then
    let copySize := min (zbxIpcHeaderSize - message.bytes) buffer.length
    let message' := { message with
      header := memcpy message.header message.bytes (buffer.take copySize) }
    if message.bytes + copySize < zbxIpcHeaderSize then
      ⟨false, { message' with bytes := message.bytes + copySize }, copySize⟩
    else if headerDataSize message'.header = 0 then
      ⟨true, { message' with data := [], bytes := message.bytes + copySize }, copySize⟩
    else
      let data := List.replicate (headerDataSize message'.header).toNat 0
      ipcReadBufferData { message' with data := data } buffer 0 copySize
  else ipcReadBufferData message buffer (message.bytes - zbxIpcHeaderSize) 0

def ipcMessageIsCompleted (message : RxMessage) : Bool :=
  decide (zbxIpcHeaderSize ≤ message.bytes ∧
    ((headerDataSize message.header).toNat + zbxIpcHeaderSize) % 2 ^ 32 = message.bytes)

structure RxSocket where
  message : RxMessage
  buffer : List UInt8
  offset : ℕ

structure ReadMessage where
  ok : Bool
  socket : RxSocket
  wire : List UInt8
  results : List IoResult

def ipcSocketReadLoop (closed : Bool) (message : RxMessage) (wire : List UInt8)
    (results : List IoResult) : ReadMessage :=
  let offset := message.bytes - zbxIpcHeaderSize
  let dataSize := (headerDataSize message.header).toNat - offset
  -- three quarters of the buffer
  if zbxIpcHeaderSize < message.bytes ∧ 3072 < dataSize then
    let full := ipcReadDataFull closed dataSize wire results
    ⟨full.ok,
      ⟨{ message with
          data := memcpy message.data offset full.bytes
          bytes := (message.bytes + full.bytes.length) % 2 ^ 32 }, [], 0⟩, full.wire, full.results⟩
  else
    let chunk := ipcReadData closed zbxIpcSocketBufferSize wire results
    if chunk.ok = false ∨ chunk.bytes = [] then
      ⟨chunk.ok, ⟨message, [], 0⟩, chunk.wire, chunk.results⟩
    else
      let read := ipcReadBuffer message chunk.bytes
      if read.completed then
        ⟨true, ⟨read.message, chunk.bytes, read.readSize⟩, chunk.wire, chunk.results⟩
      else ipcSocketReadLoop closed read.message chunk.wire chunk.results
termination_by wire.length
decreasing_by
  have hlength : (chunk.bytes ++ chunk.wire).length = wire.length :=
    congrArg List.length (ipcReadData_wire closed zbxIpcSocketBufferSize wire results)
  have hread : 0 < chunk.bytes.length := List.length_pos_iff.mpr fun hnil =>
    absurd (Or.inr hnil) ‹¬(chunk.ok = false ∨ chunk.bytes = [])›
  change chunk.wire.length < wire.length
  rw [List.length_append] at hlength
  omega

def ipcSocketReadMessage (closed : Bool) (socket : RxSocket) (wire : List UInt8)
    (results : List IoResult) : ReadMessage :=
  if socket.offset < socket.buffer.length then
    let read := ipcReadBuffer socket.message (socket.buffer.drop socket.offset)
    if read.completed then
      ⟨true, ⟨read.message, socket.buffer, socket.offset + read.readSize⟩, wire, results⟩
    else ipcSocketReadLoop closed read.message wire results
  else ipcSocketReadLoop closed socket.message wire results

end Zabbix.Ipc
