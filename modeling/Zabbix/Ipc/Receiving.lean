import Zabbix.Ipc.Sending

/-!
# What the receiver reads off the wire

Wherever the reads end, the client has read the messages that are complete, and holds the first
bytes of the one that follows.
-/

namespace Zabbix.Ipc

open List Zabbix.Serialize

variable {memory bytes read rest more buffer chunk : List UInt8} {offset n size : ℕ} {rx : Rx}

theorem uint32_rawValue (value : UInt32) :
    UInt32.ofNat (rawValue (rawBytes 4 value.toNat)) = value := by
  rw [rawValue_rawBytes value.toNat_lt, UInt32.ofNat_toNat]

theorem headerCode_headerBytes (code size : UInt32) : headerCode (headerBytes code size) = code := by
  have htake : (headerBytes code size).take 4 = rawBytes 4 code.toNat :=
    take_left' (length_rawBytes 4 _)
  rw [headerCode, htake, uint32_rawValue]

theorem headerDataSize_headerBytes (code size : UInt32) :
    headerDataSize (headerBytes code size) = size := by
  have hdrop : (headerBytes code size).drop 4 = rawBytes 4 size.toNat :=
    drop_left' (length_rawBytes 4 _)
  rw [headerDataSize, hdrop, take_of_length_le (by simp), uint32_rawValue]

theorem length_memcpy (h : offset + bytes.length ≤ memory.length) :
    (memcpy memory offset bytes).length = memory.length := by
  simp only [memcpy, length_append, length_take, length_drop]
  omega

theorem take_memcpy (h : offset ≤ memory.length) :
    (memcpy memory offset bytes).take (offset + bytes.length) = memory.take offset ++ bytes := by
  have hlength : (memory.take offset ++ bytes).length = offset + bytes.length := by
    rw [length_append, length_take, Nat.min_eq_left h]
  rw [memcpy, ← hlength, take_left]

structure Partial (message : RxMessage) (read : List UInt8) : Prop where
  bytes : message.bytes = read.length
  length_header : message.header.length = zbxIpcHeaderSize
  header : message.header.take read.length = read.take zbxIpcHeaderSize
  data : zbxIpcHeaderSize ≤ read.length →
    message.data.length = (headerDataSize message.header).toNat ∧
      message.data.take (read.length - zbxIpcHeaderSize) = read.drop zbxIpcHeaderSize

variable {m : IpcMessage}

theorem take_header_of_prefix (h : read <+: m.bytes) (hlength : zbxIpcHeaderSize ≤ read.length) :
    read.take zbxIpcHeaderSize = headerBytes m.code m.size := by
  obtain ⟨rest, hrest⟩ := h
  have htake : (read ++ rest).take zbxIpcHeaderSize = read.take zbxIpcHeaderSize :=
    take_append_of_le_length hlength
  rw [← htake, hrest, IpcMessage.bytes]
  exact take_left' (length_headerBytes _ _)

theorem Partial.header_eq {message : RxMessage} (h : Partial message read)
    (hfront : read <+: m.bytes) (hlength : zbxIpcHeaderSize ≤ read.length) :
    message.header = headerBytes m.code m.size := by
  rw [← take_header_of_prefix hfront hlength, ← h.header, take_of_length_le]
  rw [h.length_header]
  exact hlength

theorem prefix_of_stream (hstream : read ++ rest = m.bytes ++ more)
    (hfits : read.length ≤ m.bytes.length) :
    read <+: m.bytes :=
  prefix_of_prefix_length_le ⟨rest, hstream⟩ ⟨more, rfl⟩ hfits

theorem prefix_of_buffer (hstream : read ++ buffer ++ rest = m.bytes ++ more)
    (hread : read.length < m.bytes.length) :
    read ++ buffer.take (m.bytes.length - read.length) <+: m.bytes := by
  have hsplit : read ++ buffer.take (m.bytes.length - read.length) ++
      (buffer.drop (m.bytes.length - read.length) ++ rest) = m.bytes ++ more := by
    rw [← hstream, ← append_assoc, append_assoc read, take_append_drop]
  apply prefix_of_stream hsplit
  rw [length_append, length_take]
  omega

theorem partial_data {header data : List UInt8} (hm : m.Ok)
    (hheader : header = headerBytes m.code m.size) (hdata : data.length = m.size.toNat)
    (htake : data.take (read.length - zbxIpcHeaderSize) = read.drop zbxIpcHeaderSize)
    (hlength : zbxIpcHeaderSize ≤ read.length) (hfront : read ++ chunk <+: m.bytes) :
    Partial ⟨header, memcpy data (read.length - zbxIpcHeaderSize) chunk, (read ++ chunk).length⟩
      (read ++ chunk) := by
  have htotal := hm.length_bytes
  have hle := hfront.length_le
  rw [length_append] at hle
  rw [hheader]
  refine ⟨rfl, length_headerBytes _ _, ?_, fun _ => ⟨?_, ?_⟩⟩
  · change (headerBytes m.code m.size).take _ = _
    rw [take_of_length_le, take_append_of_le_length hlength,
      take_header_of_prefix ((prefix_append read chunk).trans hfront) hlength]
    rw [length_headerBytes, length_append]
    omega
  · change (memcpy _ _ _).length = (headerDataSize (headerBytes m.code m.size)).toNat
    rw [headerDataSize_headerBytes, ← hdata]
    apply length_memcpy
    omega
  · have hplace : (read ++ chunk).length - zbxIpcHeaderSize =
        read.length - zbxIpcHeaderSize + chunk.length := by
      rw [length_append]
      omega
    rw [hplace, take_memcpy (by omega), htake, drop_append_of_le_length hlength]

theorem ipcReadBufferData_spec (message : RxMessage) (buffer : List UInt8) (readSize : ℕ)
    (hm : m.Ok) (hbytes : message.bytes + readSize = read.length)
    (hheader : message.header = headerBytes m.code m.size)
    (hdata : message.data.length = m.size.toNat)
    (htake : message.data.take (read.length - zbxIpcHeaderSize) = read.drop zbxIpcHeaderSize)
    (hlength : zbxIpcHeaderSize ≤ read.length)
    (hchunk : (buffer.drop readSize).take (m.bytes.length - read.length) = chunk)
    (hfront : read ++ chunk <+: m.bytes) :
    (ipcReadBufferData message buffer (read.length - zbxIpcHeaderSize) readSize).readSize =
        readSize + chunk.length ∧
      Partial (ipcReadBufferData message buffer (read.length - zbxIpcHeaderSize) readSize).message
        (read ++ chunk) ∧
      ((ipcReadBufferData message buffer (read.length - zbxIpcHeaderSize) readSize).completed =
        true ↔ (read ++ chunk).length = m.bytes.length) := by
  have htotal := hm.length_bytes
  have hfits := hm.fits
  have hle := hfront.length_le
  rw [length_append] at hle
  have hcopy : min (m.size.toNat - (read.length - zbxIpcHeaderSize)) (buffer.length - readSize) =
      chunk.length := by
    rw [← hchunk, length_take, length_drop]
    omega
  have hchunk' : (buffer.drop readSize).take chunk.length = chunk :=
    (prefix_iff_eq_take.mp (hchunk ▸ take_prefix _ _)).symm
  have hnext : message.bytes + (readSize + chunk.length) = (read ++ chunk).length := by
    rw [length_append]
    omega
  have hwhole : (read ++ chunk).length < 2 ^ 32 := by
    rw [length_append]
    omega
  have hheld := partial_data hm hheader hdata htake hlength hfront
  simp only [ipcReadBufferData, hheader, headerDataSize_headerBytes, hcopy, hchunk', hnext,
    Nat.mod_eq_of_lt hwhole]
  refine ⟨trivial, hheader ▸ hheld, ?_⟩
  rw [decide_eq_true_eq, Nat.add_comm m.size.toNat, Nat.mod_eq_of_lt hfits, htotal]

theorem take_split {α : Type*} (bytes : List α) {k l : ℕ} (h : n = k + l) :
    bytes.take n = bytes.take k ++ (bytes.drop k).take l := by
  rw [h, take_add]

theorem Partial.memcpy_header {message : RxMessage} (h : Partial message read) (chunk : List UInt8)
    (hfits : read.length + chunk.length ≤ zbxIpcHeaderSize) :
    (memcpy message.header message.bytes chunk).length = zbxIpcHeaderSize ∧
      (memcpy message.header message.bytes chunk).take (read ++ chunk).length = read ++ chunk := by
  have hlength := h.length_header
  rw [h.bytes]
  refine ⟨(length_memcpy (by omega)).trans hlength, ?_⟩
  rw [length_append, take_memcpy (by omega), h.header, take_of_length_le (by omega)]

theorem Partial.header_completed {message : RxMessage} (h : Partial message read)
    (hfront : read ++ chunk <+: m.bytes) (hfull : (read ++ chunk).length = zbxIpcHeaderSize) :
    memcpy message.header message.bytes chunk = headerBytes m.code m.size := by
  obtain ⟨hlength, htake⟩ := h.memcpy_header chunk (by rw [← length_append]; omega)
  rw [take_of_length_le (by omega)] at htake
  rw [htake, ← take_header_of_prefix hfront (Nat.le_of_eq hfull.symm),
    take_of_length_le (Nat.le_of_eq hfull)]

theorem ipcReadBuffer_spec {message : RxMessage} (h : Partial message read) (hm : m.Ok)
    (hstream : read ++ buffer ++ rest = m.bytes ++ more) (hread : read.length < m.bytes.length) :
    (ipcReadBuffer message buffer).readSize =
        (buffer.take (m.bytes.length - read.length)).length ∧
      Partial (ipcReadBuffer message buffer).message
        (read ++ buffer.take (m.bytes.length - read.length)) ∧
      ((ipcReadBuffer message buffer).completed = true ↔
        (read ++ buffer.take (m.bytes.length - read.length)).length = m.bytes.length) := by
  have htotal := hm.length_bytes
  have hlengths : (read ++ buffer.take (m.bytes.length - read.length)).length =
      read.length + min (m.bytes.length - read.length) buffer.length := by
    rw [length_append, length_take]
  have hfront := prefix_of_buffer hstream hread
  have hbytes := h.bytes
  simp only [ipcReadBuffer]
  by_cases hhead : message.bytes < zbxIpcHeaderSize
  · rw [if_pos hhead]
    by_cases hmore : message.bytes + min (zbxIpcHeaderSize - message.bytes) buffer.length <
        zbxIpcHeaderSize
    · -- the header is not complete
      rw [if_pos hmore]
      have hall : buffer.take (m.bytes.length - read.length) = buffer :=
        take_of_length_le (by omega)
      have hcopy : min (zbxIpcHeaderSize - message.bytes) buffer.length = buffer.length := by omega
      obtain ⟨hheader, htake⟩ := h.memcpy_header buffer (by omega)
      rw [hcopy] at hmore
      rw [hall] at hlengths ⊢
      simp only [hcopy, take_length]
      refine ⟨trivial, ⟨?_, hheader, ?_, fun hfull => ?_⟩, ?_⟩
      · rw [hlengths, hbytes, min_eq_right (by omega)]
      · rw [htake, take_of_length_le (by rw [length_append]; omega)]
      · rw [length_append] at hfull
        omega
      · rw [length_append]
        constructor
        · intro hfalse
          exact absurd hfalse (by decide)
        · intro hfull
          omega
    · rw [if_neg hmore]
      have hcopy : min (zbxIpcHeaderSize - message.bytes) buffer.length =
          zbxIpcHeaderSize - read.length := by omega
      have hsplit := take_split buffer (show m.bytes.length - read.length =
        zbxIpcHeaderSize - read.length + m.size.toNat by omega)
      have hchunk : (buffer.take (zbxIpcHeaderSize - read.length)).length =
          zbxIpcHeaderSize - read.length := by
        rw [length_take]
        omega
      have hfull : (read ++ buffer.take (zbxIpcHeaderSize - read.length)).length =
          zbxIpcHeaderSize := by
        rw [length_append]
        omega
      rw [hsplit, ← append_assoc] at hfront
      have hfront' := (prefix_append _ _).trans hfront
      have hheader := h.header_completed hfront' hfull
      simp only [hcopy, hheader, headerDataSize_headerBytes]
      rw [hsplit, ← append_assoc]
      by_cases hempty : m.size = 0
      · -- the header ends the message
        have hsize : m.size.toNat = 0 := congrArg UInt32.toNat hempty
        rw [if_pos hempty, hsize, take_zero, append_nil, append_nil, hchunk]
        refine ⟨rfl, ⟨?_, length_headerBytes _ _, ?_, fun _ => ⟨?_, ?_⟩⟩, ?_⟩
        · rw [hfull]
          change message.bytes + (zbxIpcHeaderSize - read.length) = zbxIpcHeaderSize
          omega
        · change (headerBytes m.code m.size).take _ = _
          rw [take_of_length_le, take_header_of_prefix hfront' (Nat.le_of_eq hfull.symm)]
          rw [length_headerBytes, hfull]
        · change 0 = (headerDataSize (headerBytes m.code m.size)).toNat
          rw [headerDataSize_headerBytes, hsize]
        · rw [drop_of_length_le (Nat.le_of_eq hfull)]
          exact take_nil
        · rw [hfull, htotal, hsize]
          exact ⟨fun _ => rfl, fun _ => rfl⟩
      · -- the header is followed by data
        rw [if_neg hempty, length_append, hchunk]
        have hbytes' : message.bytes + (zbxIpcHeaderSize - read.length) =
            (read ++ buffer.take (zbxIpcHeaderSize - read.length)).length := by
          rw [hfull]
          omega
        have hnone : (replicate m.size.toNat (0 : UInt8)).take
            ((read ++ buffer.take (zbxIpcHeaderSize - read.length)).length - zbxIpcHeaderSize) =
              (read ++ buffer.take (zbxIpcHeaderSize - read.length)).drop zbxIpcHeaderSize := by
          rw [hfull, Nat.sub_self, take_zero, drop_of_length_le (Nat.le_of_eq hfull)]
        have hspec := ipcReadBufferData_spec
          ⟨headerBytes m.code m.size, replicate m.size.toNat 0, message.bytes⟩ buffer
          (zbxIpcHeaderSize - read.length) hm hbytes' rfl length_replicate hnone
          (Nat.le_of_eq hfull.symm)
          (by rw [hfull, htotal, Nat.add_sub_cancel_left]) hfront
        rw [hfull, Nat.sub_self] at hspec
        exact hspec
  · -- the header was complete
    rw [if_neg hhead]
    have hfull : zbxIpcHeaderSize ≤ read.length := by omega
    have hread' : read <+: m.bytes := (prefix_append read _).trans hfront
    have hheader := h.header_eq hread' hfull
    obtain ⟨hdata, htake⟩ := h.data hfull
    rw [hheader, headerDataSize_headerBytes] at hdata
    have hspec := ipcReadBufferData_spec message buffer 0 hm hbytes hheader hdata htake hfull rfl
      hfront
    rw [hbytes]
    simpa using hspec

structure BufferSpec (m : IpcMessage) (stream buffer : List UInt8) (r : ReadBuffer)
    (read : List UInt8) : Prop where
  message : Partial r.message read
  whole : read <+: m.bytes
  stream : read ++ buffer.drop r.readSize = stream
  completed : r.completed = true ↔ read.length = m.bytes.length
  pending : read.length < m.bytes.length → buffer.drop r.readSize = []

theorem ipcReadBuffer_stream {message : RxMessage} (h : Partial message read) (hm : m.Ok)
    (hstream : read ++ buffer ++ rest = m.bytes ++ more) (hread : read.length < m.bytes.length) :
    ∃ read', BufferSpec m (read ++ buffer) buffer (ipcReadBuffer message buffer) read' := by
  obtain ⟨hsize, hmessage, hcompleted⟩ := ipcReadBuffer_spec h hm hstream hread
  have hdrop : buffer.drop (ipcReadBuffer message buffer).readSize =
      buffer.drop (m.bytes.length - read.length) := by
    rw [hsize, length_take]
    rcases Nat.le_total (m.bytes.length - read.length) buffer.length with hle | hle
    · rw [min_eq_left hle]
    · rw [min_eq_right hle, drop_length, drop_of_length_le hle]
  refine ⟨_, ⟨hmessage, prefix_of_buffer hstream hread, ?_, hcompleted, fun hless => ?_⟩⟩
  · rw [hdrop, append_assoc, take_append_drop]
  · rw [hdrop]
    apply drop_of_length_le
    rw [length_append, length_take] at hless
    omega

theorem Partial.isCompleted {message : RxMessage} (h : Partial message read) (hm : m.Ok)
    (hfront : read <+: m.bytes) :
    ipcMessageIsCompleted message = true ↔ read.length = m.bytes.length := by
  have htotal := hm.length_bytes
  have hfits := hm.fits
  rw [ipcMessageIsCompleted, decide_eq_true_eq, h.bytes]
  constructor
  · rintro ⟨hlength, hsize⟩
    rw [h.header_eq hfront hlength, headerDataSize_headerBytes, Nat.add_comm,
      Nat.mod_eq_of_lt hfits] at hsize
    omega
  · intro hfull
    have hlength : zbxIpcHeaderSize ≤ read.length := by omega
    refine ⟨hlength, ?_⟩
    rw [h.header_eq hfront hlength, headerDataSize_headerBytes, Nat.add_comm,
      Nat.mod_eq_of_lt hfits]
    omega

theorem ipcReadData_ok {closed : Bool} {wire : List UInt8} {results : List IoResult}
    (h : (ipcReadData closed size wire results).ok = false) : closed = true ∧ wire = [] := by
  induction results with
  | nil => exact absurd h (by simp [ipcReadData])
  | cons result results ih =>
    cases result with
    | intr => exact ih h
    | wouldBlock => exact absurd h (by simp [ipcReadData])
    | bytes more =>
      simp only [ipcReadData] at h
      split_ifs at h with hwire
      exact ⟨by simpa using h, hwire⟩

theorem ipcReadData_length (closed : Bool) (size : ℕ) (wire : List UInt8)
    (results : List IoResult) : (ipcReadData closed size wire results).bytes.length ≤ size := by
  induction results with
  | nil => exact Nat.zero_le size
  | cons result results ih =>
    cases result with
    | intr => exact ih
    | wouldBlock => exact Nat.zero_le size
    | bytes more =>
      simp only [ipcReadData]
      split_ifs with hwire
      · exact Nat.zero_le size
      · rw [length_take]
        omega

theorem ipcReadDataFullFrom_step (closed : Bool) {before : List UInt8} (wire : List UInt8)
    (results : List IoResult) (h : before.length < size) :
    ipcReadDataFullFrom closed size before wire results =
      if (ipcReadData closed (size - before.length) wire results).ok = false then
        ⟨false, before, (ipcReadData closed (size - before.length) wire results).wire,
          (ipcReadData closed (size - before.length) wire results).results⟩
      else if (ipcReadData closed (size - before.length) wire results).bytes.length = 0 then
        ⟨true, before, (ipcReadData closed (size - before.length) wire results).wire,
          (ipcReadData closed (size - before.length) wire results).results⟩
      else
        ipcReadDataFullFrom closed size
          (before ++ (ipcReadData closed (size - before.length) wire results).bytes)
          (ipcReadData closed (size - before.length) wire results).wire
          (ipcReadData closed (size - before.length) wire results).results := by
  rw [ipcReadDataFullFrom]
  exact if_pos h

/-- By induction on the reads: what was read comes from the front of the wire. -/
theorem ipcReadDataFullFrom_spec (closed : Bool) (size : ℕ) (before wire : List UInt8)
    (results : List IoResult) (hbefore : before.length ≤ size) :
    (ipcReadDataFullFrom closed size before wire results).bytes ++
        (ipcReadDataFullFrom closed size before wire results).wire = before ++ wire ∧
      (ipcReadDataFullFrom closed size before wire results).bytes.length ≤ size ∧
      ((ipcReadDataFullFrom closed size before wire results).ok = false →
        closed = true ∧ (ipcReadDataFullFrom closed size before wire results).wire = [] ∧
          (ipcReadDataFullFrom closed size before wire results).bytes.length < size) := by
  induction before, wire, results using ipcReadDataFullFrom.induct closed size with
  | case1 before wire results hless chunk hfail =>
    have heq : ipcReadDataFullFrom closed size before wire results =
        ⟨false, before, chunk.wire, chunk.results⟩ :=
      (ipcReadDataFullFrom_step closed wire results hless).trans (if_pos hfail)
    have hchunk : chunk.bytes ++ chunk.wire = wire := ipcReadData_wire _ _ _ _
    obtain ⟨hclosed, hwire⟩ := ipcReadData_ok hfail
    rw [hwire, append_eq_nil_iff] at hchunk
    rw [heq]
    simp only [hchunk.2, hwire]
    exact ⟨trivial, hbefore, fun _ => ⟨hclosed, trivial, hless⟩⟩
  | case2 before wire results hless chunk hok hnone =>
    have heq : ipcReadDataFullFrom closed size before wire results =
        ⟨true, before, chunk.wire, chunk.results⟩ := by
      rw [ipcReadDataFullFrom_step closed wire results hless]
      exact (if_neg hok).trans (if_pos hnone)
    have hchunk : chunk.bytes ++ chunk.wire = wire := ipcReadData_wire _ _ _ _
    rw [length_eq_zero_iff.mp hnone, nil_append] at hchunk
    rw [heq]
    simp only [hchunk]
    exact ⟨trivial, hbefore, fun hfalse => absurd hfalse (by decide)⟩
  | case3 before wire results hless chunk hok hsome ih =>
    have heq : ipcReadDataFullFrom closed size before wire results =
        ipcReadDataFullFrom closed size (before ++ chunk.bytes) chunk.wire chunk.results := by
      rw [ipcReadDataFullFrom_step closed wire results hless]
      exact (if_neg hok).trans (if_neg hsome)
    have hchunk : chunk.bytes ++ chunk.wire = wire := ipcReadData_wire _ _ _ _
    have hlength : chunk.bytes.length ≤ size - before.length := ipcReadData_length _ _ _ _
    rw [heq, ← hchunk, ← append_assoc]
    apply ih
    rw [length_append]
    omega
  | case4 before wire results hdone =>
    have heq : ipcReadDataFullFrom closed size before wire results =
        ⟨true, before, wire, results⟩ := by
      rw [ipcReadDataFullFrom, if_neg hdone]
    rw [heq]
    exact ⟨rfl, hbefore, fun hfalse => absurd hfalse Bool.noConfusion⟩

def RxSocket.unread (socket : RxSocket) : List UInt8 := socket.buffer.drop socket.offset

structure ReadSpec (closed : Bool) (m : IpcMessage) (stream : List UInt8) (r : ReadMessage)
    (read : List UInt8) : Prop where
  message : Partial r.socket.message read
  whole : read <+: m.bytes
  stream : read ++ r.socket.unread ++ r.wire = stream
  pending : read.length < m.bytes.length → r.socket.unread = []
  failed : r.ok = false → closed = true ∧ r.wire = [] ∧ read.length < m.bytes.length

section ReadLoop

variable {closed : Bool} {message : RxMessage} {wire : List UInt8} {results : List IoResult}

def directSize (message : RxMessage) : ℕ :=
  (headerDataSize message.header).toNat - (message.bytes - zbxIpcHeaderSize)

theorem ipcSocketReadLoop_direct
    (h : zbxIpcHeaderSize < message.bytes ∧ 3072 < directSize message) :
    ipcSocketReadLoop closed message wire results =
      ⟨(ipcReadDataFull closed (directSize message) wire results).ok,
        ⟨⟨message.header,
          memcpy message.data (message.bytes - zbxIpcHeaderSize)
            (ipcReadDataFull closed (directSize message) wire results).bytes,
          (message.bytes +
            (ipcReadDataFull closed (directSize message) wire results).bytes.length) % 2 ^ 32⟩,
          [], 0⟩, (ipcReadDataFull closed (directSize message) wire results).wire,
        (ipcReadDataFull closed (directSize message) wire results).results⟩ := by
  rw [ipcSocketReadLoop]
  exact if_pos h

theorem ipcSocketReadLoop_buffered
    (h : ¬(zbxIpcHeaderSize < message.bytes ∧ 3072 < directSize message)) :
    ipcSocketReadLoop closed message wire results =
      if (ipcReadData closed zbxIpcSocketBufferSize wire results).ok = false ∨
          (ipcReadData closed zbxIpcSocketBufferSize wire results).bytes = [] then
        ⟨(ipcReadData closed zbxIpcSocketBufferSize wire results).ok, ⟨message, [], 0⟩,
          (ipcReadData closed zbxIpcSocketBufferSize wire results).wire,
          (ipcReadData closed zbxIpcSocketBufferSize wire results).results⟩
      else if (ipcReadBuffer message
          (ipcReadData closed zbxIpcSocketBufferSize wire results).bytes).completed then
        ⟨true, ⟨(ipcReadBuffer message
            (ipcReadData closed zbxIpcSocketBufferSize wire results).bytes).message,
          (ipcReadData closed zbxIpcSocketBufferSize wire results).bytes,
          (ipcReadBuffer message
            (ipcReadData closed zbxIpcSocketBufferSize wire results).bytes).readSize⟩,
          (ipcReadData closed zbxIpcSocketBufferSize wire results).wire,
          (ipcReadData closed zbxIpcSocketBufferSize wire results).results⟩
      else
        ipcSocketReadLoop closed
          (ipcReadBuffer message
            (ipcReadData closed zbxIpcSocketBufferSize wire results).bytes).message
          (ipcReadData closed zbxIpcSocketBufferSize wire results).wire
          (ipcReadData closed zbxIpcSocketBufferSize wire results).results := by
  rw [ipcSocketReadLoop]
  exact if_neg h

end ReadLoop

theorem ipcSocketReadLoop_spec (closed : Bool) (hm : m.Ok) (message : RxMessage) (wire : List UInt8)
    (results : List IoResult) (h : Partial message read)
    (hstream : read ++ wire ++ rest = m.bytes ++ more) (hread : read.length < m.bytes.length) :
    ∃ read', ReadSpec closed m (read ++ wire) (ipcSocketReadLoop closed message wire results)
      read' := by
  have htotal := hm.length_bytes
  have hfits := hm.fits
  induction message, wire, results using ipcSocketReadLoop.induct closed generalizing read with
  | case1 message wire results offset dataSize =>
    rename_i hdirect
    change zbxIpcHeaderSize < message.bytes ∧ 3072 < directSize message at hdirect
    have hbytes := h.bytes
    have hfull : zbxIpcHeaderSize ≤ read.length := by omega
    rw [append_assoc] at hstream
    have hheader := h.header_eq (prefix_of_stream hstream (Nat.le_of_lt hread)) hfull
    obtain ⟨hdata, htake⟩ := h.data hfull
    rw [hheader, headerDataSize_headerBytes] at hdata
    have hneeded : directSize message = m.bytes.length - read.length := by
      simp only [directSize, hheader, headerDataSize_headerBytes]
      omega
    obtain ⟨hwire, hlength, hfailed⟩ :=
      ipcReadDataFullFrom_spec closed (directSize message) [] wire results (Nat.zero_le _)
    rw [ipcSocketReadLoop_direct hdirect, ipcReadDataFull]
    generalize ipcReadDataFullFrom closed (directSize message) [] wire results = full
      at hwire hlength hfailed ⊢
    rw [nil_append] at hwire
    have hsplit : read ++ full.bytes ++ (full.wire ++ rest) = m.bytes ++ more := by
      rw [← hstream, ← hwire]
      simp
    have hsum : (read ++ full.bytes).length = read.length + full.bytes.length := length_append
    have hfront : read ++ full.bytes <+: m.bytes := prefix_of_stream hsplit (by omega)
    have hmessage := partial_data hm hheader hdata htake hfull hfront
    have hnext : (message.bytes + full.bytes.length) % 2 ^ 32 = (read ++ full.bytes).length := by
      rw [Nat.mod_eq_of_lt (by omega)]
      omega
    rw [hnext, hbytes]
    refine ⟨read ++ full.bytes, ⟨hmessage, hfront, ?_, fun _ => rfl, fun hfail => ?_⟩⟩
    · change read ++ full.bytes ++ [] ++ full.wire = _
      rw [append_nil, append_assoc, hwire]
    · obtain ⟨hclosed, hnil, hless⟩ := hfailed hfail
      exact ⟨hclosed, hnil, by omega⟩
  | case2 message wire results offset dataSize hbuffer chunk =>
    rename_i hstop
    have heq : ipcSocketReadLoop closed message wire results =
        ⟨chunk.ok, ⟨message, [], 0⟩, chunk.wire, chunk.results⟩ :=
      (ipcSocketReadLoop_buffered hbuffer).trans (if_pos hstop)
    have hchunk : chunk.bytes ++ chunk.wire = wire := ipcReadData_wire _ _ _ _
    have hnil : chunk.bytes = [] := by
      rcases hstop with hfail | hnil
      · rw [(ipcReadData_ok hfail).2, append_eq_nil_iff] at hchunk
        exact hchunk.1
      · exact hnil
    rw [hnil, nil_append] at hchunk
    have hwhole : read <+: m.bytes := by
      rw [append_assoc] at hstream
      exact prefix_of_stream hstream (Nat.le_of_lt hread)
    rw [heq]
    refine ⟨read, ⟨h, hwhole, ?_, fun _ => rfl, fun hfail => ?_⟩⟩
    · change read ++ [] ++ chunk.wire = _
      rw [hchunk, append_nil]
    · obtain ⟨hclosed, hwire⟩ := ipcReadData_ok hfail
      exact ⟨hclosed, hchunk.trans hwire, hread⟩
  | case3 message wire results offset dataSize hbuffer chunk hmore buffered =>
    rename_i hcompleted
    have heq : ipcSocketReadLoop closed message wire results =
        ⟨true, ⟨buffered.message, chunk.bytes, buffered.readSize⟩, chunk.wire, chunk.results⟩ := by
      rw [ipcSocketReadLoop_buffered hbuffer]
      exact (if_neg hmore).trans (if_pos hcompleted)
    have hchunk : chunk.bytes ++ chunk.wire = wire := ipcReadData_wire _ _ _ _
    rw [← hchunk, ← append_assoc read, append_assoc _ chunk.wire] at hstream
    obtain ⟨read', hspec⟩ := ipcReadBuffer_stream h hm hstream hread
    have hcomplete := hspec.completed.mp hcompleted
    rw [heq]
    refine ⟨read', ⟨hspec.message, hspec.whole, ?_, fun hless => ?_, fun hfalse => ?_⟩⟩
    · rw [← hchunk, ← append_assoc]
      exact congrArg (· ++ chunk.wire) hspec.stream
    · omega
    · exact absurd hfalse Bool.noConfusion
  | case4 message wire results offset dataSize hbuffer chunk hmore buffered =>
    rename_i hpart ih
    have heq : ipcSocketReadLoop closed message wire results =
        ipcSocketReadLoop closed buffered.message chunk.wire chunk.results := by
      rw [ipcSocketReadLoop_buffered hbuffer]
      exact (if_neg hmore).trans (if_neg hpart)
    have hchunk : chunk.bytes ++ chunk.wire = wire := ipcReadData_wire _ _ _ _
    have hstream' := hstream
    rw [← hchunk, ← append_assoc read, append_assoc _ chunk.wire] at hstream'
    obtain ⟨read', hspec⟩ := ipcReadBuffer_stream h hm hstream' hread
    have hless : read'.length < m.bytes.length :=
      Nat.lt_of_le_of_ne hspec.whole.length_le fun hcomplete => hpart (hspec.completed.mpr hcomplete)
    have hall := hspec.stream
    rw [hspec.pending hless, append_nil] at hall
    have hnext : read' ++ chunk.wire = read ++ wire := by rw [hall, ← hchunk, append_assoc]
    rw [heq, ← hnext]
    apply ih hspec.message _ hless
    rw [hnext, hstream]

variable {socket : RxSocket}

theorem ipcSocketReadMessage_spec (closed : Bool) (hm : m.Ok) (wire : List UInt8)
    (results : List IoResult) (h : Partial socket.message read)
    (hstream : read ++ socket.unread ++ wire ++ rest = m.bytes ++ more)
    (hread : read.length < m.bytes.length) :
    ∃ read', ReadSpec closed m (read ++ socket.unread ++ wire)
      (ipcSocketReadMessage closed socket wire results) read' := by
  rw [ipcSocketReadMessage]
  by_cases hbuffer : socket.offset < socket.buffer.length
  · rw [if_pos hbuffer]
    have hstream' := hstream
    rw [append_assoc _ wire] at hstream'
    obtain ⟨read', hspec⟩ := ipcReadBuffer_stream h hm hstream' hread
    simp only
    split_ifs with hcompleted
    · have hcomplete := hspec.completed.mp hcompleted
      refine ⟨read', ⟨hspec.message, hspec.whole, ?_, fun hless => ?_, fun hfalse => ?_⟩⟩
      · change read' ++ socket.buffer.drop (socket.offset + _) ++ wire = _
        rw [← drop_drop]
        exact congrArg (· ++ wire) hspec.stream
      · omega
      · exact absurd hfalse Bool.noConfusion
    · have hless : read'.length < m.bytes.length :=
        Nat.lt_of_le_of_ne hspec.whole.length_le fun hcomplete =>
          hcompleted (hspec.completed.mpr hcomplete)
      have hall : read' = read ++ socket.unread := by
        have hsum := hspec.stream
        rwa [hspec.pending hless, append_nil] at hsum
      rw [← hall] at hstream ⊢
      exact ipcSocketReadLoop_spec closed hm _ wire results hspec.message hstream hless
  · rw [if_neg hbuffer]
    have hnil : socket.unread = [] := drop_of_length_le (not_lt.mp hbuffer)
    rw [hnil, append_nil] at hstream ⊢
    exact ipcSocketReadLoop_spec closed hm _ wire results h hstream hread

def Started (read : List UInt8) : List IpcMessage → Prop
  | [] => read = []
  | m :: _ => read.length < m.bytes.length

theorem IpcMessage.Ok.bytes_pos (h : m.Ok) : 0 < m.bytes.length := by
  rw [h.length_bytes, zbxIpcHeaderSize]
  omega

variable {messages : List IpcMessage}

theorem started_nil (h : ∀ m ∈ messages, m.Ok) : Started [] messages := by
  cases messages with
  | nil => rfl
  | cons m messages => exact (h m mem_cons_self).bytes_pos

theorem Partial.received {message : RxMessage} (h : Partial message m.bytes) (hm : m.Ok) :
    (⟨headerCode message.header, headerDataSize message.header, message.data⟩ : IpcMessage) = m := by
  have htotal := hm.length_bytes
  have hfull : zbxIpcHeaderSize ≤ m.bytes.length := by omega
  have hheader := h.header_eq (prefix_refl _) hfull
  obtain ⟨hlength, htake⟩ := h.data hfull
  have hdrop : m.bytes.drop zbxIpcHeaderSize = m.data := drop_left' (length_headerBytes _ _)
  rw [hheader, headerDataSize_headerBytes] at hlength
  rw [hdrop, take_of_length_le (by omega)] at htake
  rw [hheader, headerCode_headerBytes, headerDataSize_headerBytes, htake]

theorem partial_reset {message : RxMessage} (h : Partial message read) :
    Partial { message with data := [], bytes := 0 } [] :=
  ⟨rfl, h.length_header, rfl, fun hlength => absurd hlength (by decide)⟩

theorem ipcSocketReadMessage_nothing (closed : Bool) (results : List IoResult)
    (h : Partial socket.message []) (hunread : socket.unread = []) :
    (ipcSocketReadMessage closed socket [] results).socket = ⟨socket.message, [], 0⟩ ∧
      (ipcSocketReadMessage closed socket [] results).wire = [] ∧
      ((ipcSocketReadMessage closed socket [] results).ok = false → closed = true) := by
  have hbuffer : ¬ socket.offset < socket.buffer.length := not_lt.mpr (drop_eq_nil_iff.mp hunread)
  have hbytes : socket.message.bytes = 0 := h.bytes
  have hchunk := ipcReadData_wire closed zbxIpcSocketBufferSize [] results
  rw [append_eq_nil_iff] at hchunk
  rw [ipcSocketReadMessage, if_neg hbuffer, ipcSocketReadLoop, if_neg]
  · simp only [hchunk.1, hchunk.2, or_true, if_true]
    exact ⟨trivial, trivial, fun hfail => (ipcReadData_ok hfail).1⟩
  · rw [hbytes]
    exact fun hdirect => absurd hdirect.1 (by decide)

/-- What `ipc_client_read` leaves: completed messages are in the queue, what was read of the next
one is in the memory of the client. -/
structure ClientReadSpec (closed : Bool) (messages : List IpcMessage) (rest : List UInt8) (rx : Rx)
    (r : Bool × Rx × List UInt8) (done messages' : List IpcMessage) (read : List UInt8) : Prop where
  messages : messages = done ++ messages'
  queue : r.2.1.queue = rx.queue ++ done
  event : r.2.1.event = rx.event
  queued : r.2.1.queued = rx.queued
  started : Started read messages'
  stream : read ++ r.2.2 ++ rest = messagesBytes messages'
  succeeded : r.1 = true → Partial r.2.1.socket.message read ∧ r.2.1.socket.unread = []
  failed : r.1 = false → closed = true ∧ r.2.2 = []

theorem ipcClientReadLoop_spec (closed : Bool) {wire : List UInt8} {results : List IoResult}
    (hmessages : ∀ m ∈ messages, m.Ok) (h : Partial rx.socket.message read)
    (hstarted : Started read messages)
    (hstream : read ++ rx.socket.unread ++ wire ++ rest = messagesBytes messages)
    (hn : rx.socket.unread.length + wire.length < n) :
    ∃ done messages' read', ClientReadSpec closed messages rest rx
      (ipcClientReadLoop closed n rx wire results) done messages' read' := by
  induction n generalizing rx wire results messages read with
  | zero => exact absurd hn (Nat.not_lt_zero _)
  | succ n ih =>
    cases messages with
    | nil =>
      rw [messagesBytes_nil, append_eq_nil_iff, append_eq_nil_iff] at hstream
      obtain ⟨⟨hread, hwire⟩, hrest⟩ := hstream
      obtain ⟨hnil, hunread⟩ := append_eq_nil_iff.mp hread
      rw [hnil] at h
      obtain ⟨hsocket, hwire', hfail⟩ := ipcSocketReadMessage_nothing closed results h hunread
      have hincomplete : ipcMessageIsCompleted rx.socket.message = false := by
        have hbytes : rx.socket.message.bytes = 0 := h.bytes
        simp [ipcMessageIsCompleted, hbytes, zbxIpcHeaderSize]
      refine ⟨[], [], [], ?_⟩
      rw [hwire]
      simp only [ipcClientReadLoop, hsocket, hincomplete, Bool.false_eq_true, if_false]
      split_ifs with hok
      · exact ⟨rfl, (append_nil _).symm, rfl, rfl, rfl, by rw [hwire', hrest]; rfl,
          fun htrue => absurd htrue Bool.noConfusion, fun _ => ⟨hfail hok, hwire'⟩⟩
      · exact ⟨rfl, (append_nil _).symm, rfl, rfl, rfl, by rw [hwire', hrest]; rfl,
          fun _ => ⟨h, rfl⟩, fun hfalse => absurd hfalse Bool.noConfusion⟩
    | cons m messages =>
      have hm := hmessages m mem_cons_self
      rw [messagesBytes_cons] at hstream
      obtain ⟨read', hspec⟩ := ipcSocketReadMessage_spec closed hm wire results h hstream hstarted
      have hcompleted := hspec.message.isCompleted hm hspec.whole
      simp only [ipcClientReadLoop]
      generalize ipcSocketReadMessage closed rx.socket wire results = r at hspec hcompleted ⊢
      have hstream' : read' ++ r.socket.unread ++ r.wire ++ rest =
          m.bytes ++ messagesBytes messages := by
        rw [hspec.stream, hstream]
      split_ifs with hok hcomplete
      · obtain ⟨hclosed, hwire, hless⟩ := hspec.failed hok
        refine ⟨[], m :: messages, read', rfl, (append_nil _).symm, rfl, rfl, hless, ?_,
          fun htrue => absurd htrue Bool.noConfusion, fun _ => ⟨hclosed, hwire⟩⟩
        rw [hspec.pending hless, append_nil] at hstream'
        exact hstream'
      · have hfull : read' = m.bytes := hspec.whole.eq_of_length (hcompleted.mp hcomplete)
        have hmessage := hspec.message
        have hlengths := congrArg List.length hspec.stream
        rw [hfull] at hmessage hstream'
        simp only [length_append, hfull] at hlengths
        rw [append_assoc, append_assoc, append_right_inj] at hstream'
        have hqueue : (ipcClientPushRxMessage rx r.socket).queue = rx.queue ++ [m] := by
          rw [ipcClientPushRxMessage, hmessage.received hm]
        have hless : r.socket.unread.length + r.wire.length < n := by
          change read.length < m.bytes.length at hstarted
          omega
        have hrest : ∀ m' ∈ messages, m'.Ok := fun m' hm' => hmessages m' (mem_cons_of_mem m hm')
        have hnothing : [] ++ r.socket.unread ++ r.wire ++ rest = messagesBytes messages := by
          rw [nil_append, append_assoc, hstream']
        have hnext : ∃ done messages' read'',
            ClientReadSpec closed messages rest (ipcClientPushRxMessage rx r.socket)
              (ipcClientReadLoop closed n (ipcClientPushRxMessage rx r.socket) r.wire r.results)
              done messages' read'' :=
          ih hrest (partial_reset hmessage) (started_nil hrest) hnothing hless
        obtain ⟨done, messages', read'', hnext⟩ := hnext
        refine ⟨m :: done, messages', read'', ⟨?_, ?_, hnext.event, hnext.queued, hnext.started,
          hnext.stream, hnext.succeeded, hnext.failed⟩⟩
        · rw [hnext.messages, cons_append]
        · rw [hnext.queue, hqueue, append_assoc]
          rfl
      · have hless : read'.length < m.bytes.length :=
          Nat.lt_of_le_of_ne hspec.whole.length_le fun hfull => hcomplete (hcompleted.mpr hfull)
        refine ⟨[], m :: messages, read', rfl, (append_nil _).symm, rfl, rfl, hless, ?_,
          fun _ => ⟨hspec.message, hspec.pending hless⟩, fun hfalse => absurd hfalse Bool.noConfusion⟩
        rw [hspec.pending hless, append_nil] at hstream'
        exact hstream'

theorem ipcClientRead_spec (closed : Bool) {wire : List UInt8} (results : List IoResult)
    (hmessages : ∀ m ∈ messages, m.Ok) (h : Partial rx.socket.message read)
    (hstarted : Started read messages)
    (hstream : read ++ rx.socket.unread ++ wire ++ rest = messagesBytes messages) :
    ∃ done messages' read', ClientReadSpec closed messages rest rx
      (ipcClientRead closed rx wire results) done messages' read' := by
  apply ipcClientReadLoop_spec closed hmessages h hstarted hstream
  rw [RxSocket.unread, length_drop, unreadBytes]
  exact Nat.lt_succ_self _

end Zabbix.Ipc
