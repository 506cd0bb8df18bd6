import Zabbix.Ipc.Client

/-!
# What the sender puts on the wire

Whatever part of the bytes the socket takes, the wire and what the client still has to send are the
bytes of the messages one after another.
-/

namespace Zabbix.Ipc

open List Zabbix.Serialize

def IpcMessage.bytes (m : IpcMessage) : List UInt8 := headerBytes m.code m.size ++ m.data

def messagesBytes (messages : List IpcMessage) : List UInt8 :=
  (messages.map IpcMessage.bytes).flatten

@[simp]
theorem length_headerBytes (code size : UInt32) :
    (headerBytes code size).length = zbxIpcHeaderSize := by
  simp [headerBytes, zbxSerializeValue, zbxIpcHeaderSize]

@[simp]
theorem messagesBytes_nil : messagesBytes [] = [] := rfl

@[simp]
theorem messagesBytes_cons (m : IpcMessage) (messages : List IpcMessage) :
    messagesBytes (m :: messages) = m.bytes ++ messagesBytes messages := rfl

@[simp]
theorem messagesBytes_append (messages messages' : List IpcMessage) :
    messagesBytes (messages ++ messages') = messagesBytes messages ++ messagesBytes messages' := by
  simp [messagesBytes]

structure IpcMessage.Ok (m : IpcMessage) : Prop where
  size : m.size.toNat = m.data.length
  fits : zbxIpcHeaderSize + m.size.toNat < 2 ^ 32

theorem Outgoing.ok (m : Outgoing) : m.message.Ok := by
  have hsize : (UInt32.ofNat m.data.length).toNat = m.data.length :=
    UInt32.toNat_ofNat_of_lt' (Nat.lt_of_lt_of_le m.size_lt (by decide))
  refine ⟨hsize, ?_⟩
  have := m.size_lt
  simp only [message, hsize, zbxIpcHeaderSize]
  omega

theorem IpcMessage.Ok.length_bytes {m : IpcMessage} (h : m.Ok) :
    m.bytes.length = zbxIpcHeaderSize + m.size.toNat := by
  rw [bytes, length_append, length_headerBytes, h.size]

theorem IpcMessage.Ok.total {m : IpcMessage} (h : m.Ok) :
    (zbxIpcHeaderSize + m.size.toNat) % 2 ^ 32 = m.bytes.length := by
  rw [Nat.mod_eq_of_lt h.fits, h.length_bytes]

theorem ipcWriteDataFrom_wire (data : List UInt8) (results : List IoResult) (wire : List UInt8)
    (offset : ℕ) (hoffset : offset ≤ data.length) :
    offset ≤ (ipcWriteDataFrom data results wire offset).sizeSent ∧
      (ipcWriteDataFrom data results wire offset).sizeSent ≤ data.length ∧
      (ipcWriteDataFrom data results wire offset).wire ++
        data.drop (ipcWriteDataFrom data results wire offset).sizeSent =
          wire ++ data.drop offset := by
  induction results generalizing wire offset with
  | nil => exact ⟨le_refl offset, hoffset, rfl⟩
  | cons result results ih =>
    simp only [ipcWriteDataFrom]
    split_ifs with hdone
    · exact ⟨le_refl offset, hoffset, rfl⟩
    · cases result with
      | intr => exact ih wire offset hoffset
      | wouldBlock => exact ⟨le_refl offset, hoffset, rfl⟩
      | bytes more =>
        simp only
        generalize hn : min (more + 1) (data.length - offset) = n
        have hle : n ≤ data.length - offset := hn ▸ Nat.min_le_right _ _
        obtain ⟨hfrom, hto, hwire⟩ := ih (wire ++ (data.drop offset).take n) (offset + n) (by omega)
        refine ⟨by omega, hto, ?_⟩
        rw [hwire, append_assoc, ← drop_drop, take_append_drop]

theorem ipcWriteData_sizeSent (data wire : List UInt8) (results : List IoResult) :
    (ipcWriteData data wire results).sizeSent ≤ data.length :=
  (ipcWriteDataFrom_wire data results wire 0 (Nat.zero_le _)).2.1

theorem ipcWriteData_wire (data wire : List UInt8) (results : List IoResult) :
    (ipcWriteData data wire results).wire ++
      data.drop (ipcWriteData data wire results).sizeSent = wire ++ data :=
  (ipcWriteDataFrom_wire data results wire 0 (Nat.zero_le _)).2.2

def movesBytes : List IoResult → Bool
  | [] => false
  | .intr :: results => movesBytes results
  | .wouldBlock :: _ => false
  | .bytes _ :: _ => true

theorem ipcWriteData_bytes {data : List UInt8} (hdata : data ≠ []) (wire : List UInt8)
    {results : List IoResult} (h : movesBytes results = true) :
    0 < (ipcWriteData data wire results).sizeSent := by
  have hpos : 0 < data.length := length_pos_iff.mpr hdata
  have hne : ¬ 0 = data.length := by omega
  induction results with
  | nil => exact absurd h Bool.noConfusion
  | cons result results ih =>
    cases result with
    | intr =>
      rw [ipcWriteData, ipcWriteDataFrom, if_neg hne]
      exact ih h
    | wouldBlock => exact absurd h Bool.noConfusion
    | bytes more =>
      rw [ipcWriteData, ipcWriteDataFrom, if_neg hne]
      have hfrom := (ipcWriteDataFrom_wire data results
        (wire ++ (data.drop 0).take (min (more + 1) (data.length - 0)))
        (0 + min (more + 1) (data.length - 0)) (by omega)).1
      exact Nat.lt_of_lt_of_le (by omega) hfrom

def Tx.frame (tx : Tx) : List UInt8 := headerBytes tx.code tx.size ++ tx.data

def Tx.unsent (tx : Tx) : List UInt8 :=
  tx.frame.drop (tx.frame.length - tx.bytes) ++ messagesBytes tx.queue

structure Tx.Ok (tx : Tx) : Prop where
  data : tx.bytes ≠ 0 → tx.size.toNat = tx.data.length
  bytes : tx.bytes ≤ zbxIpcHeaderSize + tx.data.length
  idle : tx.bytes = 0 → tx.queue = []
  queue : ∀ m ∈ tx.queue, m.Ok

theorem Tx.length_frame (tx : Tx) : tx.frame.length = zbxIpcHeaderSize + tx.data.length := by
  rw [frame, length_append, length_headerBytes]

theorem Tx.unsent_idle {tx : Tx} (h : tx.bytes = 0) : tx.unsent = messagesBytes tx.queue := by
  rw [unsent, h, Nat.sub_zero, drop_length, nil_append]

theorem Tx.unsent_sent {tx : Tx} {n : ℕ} (hn : n ≤ tx.bytes) (hbytes : tx.bytes ≤ tx.frame.length) :
    Tx.unsent { tx with bytes := tx.bytes - n } =
      (tx.frame.drop (tx.frame.length - tx.bytes)).drop n ++ messagesBytes tx.queue := by
  have hplace : tx.frame.length - tx.bytes + n = tx.frame.length - (tx.bytes - n) := by omega
  rw [drop_drop, hplace]
  rfl

theorem ipcClientPopTxMessage_spec {tx : Tx} (hidle : tx.bytes = 0)
    (hqueue : ∀ m ∈ tx.queue, m.Ok) :
    (ipcClientPopTxMessage tx).Ok ∧ (ipcClientPopTxMessage tx).unsent = tx.unsent := by
  rw [Tx.unsent_idle hidle]
  cases hq : tx.queue with
  | nil =>
    simp only [ipcClientPopTxMessage, hq]
    refine ⟨⟨fun h => absurd rfl h, Nat.zero_le _, fun _ => rfl, ?_⟩, by simp [Tx.unsent]⟩
    intro m hm
    exact absurd hm not_mem_nil
  | cons message queue =>
    rw [hq] at hqueue
    have hok := hqueue message mem_cons_self
    have hbytes := hok.total
    simp only [ipcClientPopTxMessage, hq, hbytes]
    refine ⟨⟨fun _ => hok.size, ?_, ?_, fun m hm => hqueue m (mem_cons_of_mem message hm)⟩, ?_⟩
    · rw [hok.length_bytes, hok.size]
    · intro hzero
      change message.bytes.length = 0 at hzero
      rw [hok.length_bytes, zbxIpcHeaderSize] at hzero
      omega
    · simp [Tx.unsent, Tx.frame, IpcMessage.bytes]

theorem Tx.length_drop_frame {tx : Tx} (hbytes : tx.bytes ≤ tx.frame.length) :
    (tx.frame.drop (tx.frame.length - tx.bytes)).length = tx.bytes := by
  rw [length_drop]
  omega

theorem Tx.unsent_written {tx : Tx} {part rest : List UInt8} (wire : List UInt8)
    (results : List IoResult) (hbytes : tx.bytes ≤ tx.frame.length)
    (hpart : tx.frame.drop (tx.frame.length - tx.bytes) = part ++ rest) :
    (ipcWriteData part wire results).sizeSent ≤ tx.bytes ∧
      (ipcWriteData part wire results).wire ++
        Tx.unsent { tx with bytes := tx.bytes - (ipcWriteData part wire results).sizeSent } =
          wire ++ tx.unsent := by
  have hsent := ipcWriteData_sizeSent part wire results
  have hlength := Tx.length_drop_frame hbytes
  rw [hpart, length_append] at hlength
  have hle : (ipcWriteData part wire results).sizeSent ≤ tx.bytes := by omega
  refine ⟨hle, ?_⟩
  rw [Tx.unsent_sent hle hbytes, Tx.unsent, hpart, drop_append_of_le_length hsent]
  simp only [← append_assoc]
  rw [ipcWriteData_wire]

theorem Tx.drop_frame_data {tx : Tx} (hsize : tx.size.toNat = tx.data.length)
    (hbytes : tx.bytes ≤ tx.size.toNat) :
    tx.frame.drop (tx.frame.length - tx.bytes) =
      (tx.data.drop (tx.size.toNat - tx.bytes)).take tx.bytes := by
  have hplace : tx.frame.length - tx.bytes =
      (headerBytes tx.code tx.size).length + (tx.size.toNat - tx.bytes) := by
    rw [Tx.length_frame, length_headerBytes]
    omega
  rw [hplace, Tx.frame, drop_append, take_of_length_le]
  · simp
  · rw [length_drop]
    omega

theorem Tx.unsent_data {tx : Tx} (wire : List UInt8) (results : List IoResult)
    (hsize : tx.size.toNat = tx.data.length) (hbytes : tx.bytes ≤ tx.size.toNat) :
    (ipcWriteData ((tx.data.drop (tx.size.toNat - tx.bytes)).take tx.bytes) wire
        results).sizeSent ≤ tx.bytes ∧
      (ipcWriteData ((tx.data.drop (tx.size.toNat - tx.bytes)).take tx.bytes) wire
          results).wire ++
        Tx.unsent { tx with
          bytes := tx.bytes - (ipcWriteData
            ((tx.data.drop (tx.size.toNat - tx.bytes)).take tx.bytes) wire results).sizeSent } =
          wire ++ tx.unsent := by
  apply Tx.unsent_written wire results
  · rw [Tx.length_frame]
    omega
  · rw [append_nil]
    exact Tx.drop_frame_data hsize hbytes

section WriteData

variable {tx : Tx} {wire : List UInt8} {results : List IoResult}

def Tx.writtenData (tx : Tx) (wire : List UInt8) (results : List IoResult) : Written :=
  ipcWriteData ((tx.data.drop (tx.size.toNat - tx.bytes)).take tx.bytes) wire results

theorem ipcClientWriteData_blocked (hpos : 0 < tx.bytes)
    (hnone : (tx.writtenData wire results).sizeSent = 0) :
    ipcClientWriteData tx wire results = (tx, (tx.writtenData wire results).wire) := by
  rw [ipcClientWriteData, if_pos hpos]
  exact if_pos hnone

theorem ipcClientWriteData_wrote (hpos : 0 < tx.bytes)
    (hsome : (tx.writtenData wire results).sizeSent ≠ 0) :
    ipcClientWriteData tx wire results =
      ipcClientWriteData { tx with bytes := tx.bytes - (tx.writtenData wire results).sizeSent }
        (tx.writtenData wire results).wire (tx.writtenData wire results).results := by
  rw [ipcClientWriteData, if_pos hpos]
  exact if_neg hsome

theorem ipcClientWriteData_done (hzero : ¬0 < tx.bytes) :
    ipcClientWriteData tx wire results = (ipcClientPopTxMessage tx, wire) := by
  rw [ipcClientWriteData, if_neg hzero]

end WriteData

/-- By induction on what is left to be sent of the data; the message that follows is taken at the
end. -/
theorem ipcClientWriteData_spec (tx : Tx) (wire : List UInt8) (results : List IoResult)
    (hsize : tx.bytes ≠ 0 → tx.size.toNat = tx.data.length) (hbytes : tx.bytes ≤ tx.size.toNat)
    (hqueue : ∀ m ∈ tx.queue, m.Ok) :
    (ipcClientWriteData tx wire results).1.Ok ∧
      (ipcClientWriteData tx wire results).2 ++ (ipcClientWriteData tx wire results).1.unsent =
        wire ++ tx.unsent := by
  induction tx, wire, results using ipcClientWriteData.induct with
  | case1 tx wire results hpos written hnone =>
    have heq : ipcClientWriteData tx wire results = (tx, written.wire) :=
      ipcClientWriteData_blocked hpos hnone
    obtain ⟨-, hwire⟩ := Tx.unsent_data wire results (hsize (Nat.ne_of_gt hpos)) hbytes
    change written.wire ++ Tx.unsent { tx with bytes := tx.bytes - written.sizeSent } = _ at hwire
    rw [hnone] at hwire
    rw [heq]
    refine ⟨⟨hsize, ?_, fun hzero => absurd hzero (Nat.ne_of_gt hpos), hqueue⟩, hwire⟩
    change tx.bytes ≤ zbxIpcHeaderSize + tx.data.length
    have := hsize (Nat.ne_of_gt hpos)
    omega
  | case2 tx wire results hpos written hsome ih =>
    have heq : ipcClientWriteData tx wire results =
        ipcClientWriteData { tx with bytes := tx.bytes - written.sizeSent } written.wire
          written.results := ipcClientWriteData_wrote hpos hsome
    obtain ⟨-, hwire⟩ := Tx.unsent_data wire results (hsize (Nat.ne_of_gt hpos)) hbytes
    rw [heq, ← hwire]
    exact ih (fun _ => hsize (Nat.ne_of_gt hpos)) (Nat.le_trans (Nat.sub_le _ _) hbytes) hqueue
  | case3 tx wire results hzero =>
    have heq : ipcClientWriteData tx wire results = (ipcClientPopTxMessage tx, wire) :=
      ipcClientWriteData_done hzero
    obtain ⟨hok, hunsent⟩ := ipcClientPopTxMessage_spec (Nat.eq_zero_of_not_pos hzero) hqueue
    rw [heq, hunsent]
    exact ⟨hok, rfl⟩

theorem Tx.drop_frame_header {tx : Tx} (hsize : tx.size.toNat = tx.data.length)
    (hheader : tx.size.toNat < tx.bytes) (hbytes : tx.bytes ≤ zbxIpcHeaderSize + tx.data.length) :
    tx.frame.drop (tx.frame.length - tx.bytes) =
      ((headerBytes tx.code tx.size).drop (zbxIpcHeaderSize - (tx.bytes - tx.size.toNat))).take
        (tx.bytes - tx.size.toNat) ++ tx.data := by
  have hplace : tx.frame.length - tx.bytes = zbxIpcHeaderSize - (tx.bytes - tx.size.toNat) := by
    rw [Tx.length_frame]
    omega
  rw [hplace, Tx.frame, drop_append_of_le_length, take_of_length_le]
  · rw [length_drop, length_headerBytes]
    omega
  · rw [length_headerBytes]
    omega

theorem ipcClientWrite_spec {tx : Tx} (h : tx.Ok) (wire : List UInt8) (results : List IoResult) :
    (ipcClientWrite tx wire results).1.Ok ∧
      (ipcClientWrite tx wire results).2 ++ (ipcClientWrite tx wire results).1.unsent =
        wire ++ tx.unsent := by
  simp only [ipcClientWrite]
  split_ifs with hheader hmore
  · have hsize := h.data (by omega)
    have hframe : tx.bytes ≤ tx.frame.length := tx.length_frame ▸ h.bytes
    obtain ⟨-, hwire⟩ := Tx.unsent_written wire results hframe
      (Tx.drop_frame_header hsize hheader h.bytes)
    refine ⟨⟨fun _ => hsize, ?_, ?_, h.queue⟩, hwire⟩
    · exact Nat.le_trans (Nat.sub_le _ _) h.bytes
    · intro hzero
      change tx.size.toNat < _ at hmore
      change tx.bytes - _ = 0 at hzero
      omega
  · have hsize := h.data (by omega)
    have hframe : tx.bytes ≤ tx.frame.length := tx.length_frame ▸ h.bytes
    obtain ⟨-, hwire⟩ := Tx.unsent_written wire results hframe
      (Tx.drop_frame_header hsize hheader h.bytes)
    rw [← hwire]
    exact ipcClientWriteData_spec _ _ _ (fun _ => hsize) (not_lt.mp hmore) h.queue
  · exact ipcClientWriteData_spec tx wire results h.data (not_lt.mp hheader) h.queue

theorem ipcClientWriteEventCb_spec {tx : Tx} (h : tx.Ok) (wire : List UInt8)
    (results : List IoResult) :
    (ipcClientWriteEventCb tx wire results).1.Ok ∧
      (ipcClientWriteEventCb tx wire results).2 ++ (ipcClientWriteEventCb tx wire results).1.unsent =
        wire ++ tx.unsent := by
  obtain ⟨hok, hwire⟩ := ipcClientWrite_spec h wire results
  simp only [ipcClientWriteEventCb]
  split_ifs with hidle
  · exact ⟨⟨hok.data, hok.bytes, hok.idle, hok.queue⟩, hwire⟩
  · exact ⟨hok, hwire⟩

theorem ipcSocketWriteMessage_spec {m : IpcMessage} (h : m.Ok) (wire : List UInt8)
    (results : List IoResult) :
    (ipcSocketWriteMessage m.code m.data m.size wire results).sizeSent ≤ m.bytes.length ∧
      (ipcSocketWriteMessage m.code m.data m.size wire results).wire ++
        m.bytes.drop (ipcSocketWriteMessage m.code m.data m.size wire results).sizeSent =
          wire ++ m.bytes := by
  have hdata : m.data.take m.size.toNat = m.data := by
    rw [h.size]
    exact take_length
  simp only [ipcSocketWriteMessage, hdata]
  split_ifs with hsmall hpart
  · exact ⟨ipcWriteData_sizeSent m.bytes wire results, ipcWriteData_wire m.bytes wire results⟩
  · have hsent := ipcWriteData_sizeSent (headerBytes m.code m.size) wire results
    have hwire := ipcWriteData_wire (headerBytes m.code m.size) wire results
    refine ⟨?_, ?_⟩
    · rw [IpcMessage.bytes, length_append]
      omega
    · rw [IpcMessage.bytes, drop_append_of_le_length hsent, ← append_assoc, hwire, append_assoc]
  · have hhead := ipcWriteData_wire (headerBytes m.code m.size) wire results
    rw [not_not.mp hpart, ← length_headerBytes m.code m.size, drop_length, append_nil] at hhead
    have hsent := ipcWriteData_sizeSent m.data (ipcWriteData (headerBytes m.code m.size) wire
      results).wire (ipcWriteData (headerBytes m.code m.size) wire results).results
    have hbody := ipcWriteData_wire m.data (ipcWriteData (headerBytes m.code m.size) wire
      results).wire (ipcWriteData (headerBytes m.code m.size) wire results).results
    generalize ipcWriteData m.data (ipcWriteData (headerBytes m.code m.size) wire results).wire
      (ipcWriteData (headerBytes m.code m.size) wire results).results = body at hsent hbody ⊢
    have hfits := h.fits
    have hsize := h.size
    have hsum : ((ipcWriteData (headerBytes m.code m.size) wire results).sizeSent +
        body.sizeSent) % 2 ^ 32 = (headerBytes m.code m.size).length + body.sizeSent := by
      rw [not_not.mp hpart, length_headerBytes, Nat.mod_eq_of_lt]
      omega
    simp only [hsum]
    refine ⟨?_, ?_⟩
    · rw [IpcMessage.bytes, length_append]
      omega
    · rw [IpcMessage.bytes, drop_append, ← append_assoc wire, ← hhead, ← hbody]
      simp

theorem zbxIpcClientSend_spec {tx : Tx} (h : tx.Ok) (m : Outgoing) (wire : List UInt8)
    (results : List IoResult) :
    (zbxIpcClientSend tx m wire results).1.Ok ∧
      (zbxIpcClientSend tx m wire results).2 ++ (zbxIpcClientSend tx m wire results).1.unsent =
        wire ++ tx.unsent ++ m.message.bytes := by
  have hm := m.ok
  simp only [zbxIpcClientSend, hm.total]
  split_ifs with hbusy hpart
  · refine ⟨⟨h.data, h.bytes, fun hzero => absurd hzero hbusy, ?_⟩, ?_⟩
    · intro message hmessage
      rcases mem_append.mp hmessage with hold | hnew
      · exact h.queue message hold
      · rw [mem_singleton.mp hnew]
        exact hm
    · simp [Tx.unsent, Tx.frame]
  · have hidle := not_not.mp hbusy
    obtain ⟨hsent, hwire⟩ := ipcSocketWriteMessage_spec hm wire results
    rw [Tx.unsent_idle hidle, h.idle hidle, messagesBytes_nil, append_nil, ← hwire]
    generalize ipcSocketWriteMessage m.message.code m.message.data m.message.size wire results =
      written at hsent hpart ⊢
    have hlength : m.message.bytes.length = zbxIpcHeaderSize + m.message.data.length := by
      rw [hm.length_bytes, hm.size]
    refine ⟨⟨fun _ => hm.size, ?_, fun _ => rfl, ?_⟩, ?_⟩
    · change m.message.bytes.length - written.sizeSent ≤
        zbxIpcHeaderSize + m.message.data.length
      omega
    · intro message hmessage
      exact absurd hmessage not_mem_nil
    · have hplace : m.message.bytes.length - (m.message.bytes.length - written.sizeSent) =
          written.sizeSent := by omega
      simp only [Tx.unsent, Tx.frame, messagesBytes_nil, append_nil]
      change written.wire ++ m.message.bytes.drop (m.message.bytes.length -
        (m.message.bytes.length - written.sizeSent)) = _
      rw [hplace]
  · have hidle := not_not.mp hbusy
    obtain ⟨-, hwire⟩ := ipcSocketWriteMessage_spec hm wire results
    rw [not_not.mp hpart, drop_length, append_nil] at hwire
    refine ⟨h, ?_⟩
    rw [hwire, Tx.unsent_idle hidle, h.idle hidle]
    simp

def Tx.Armed (tx : Tx) : Prop := tx.bytes ≠ 0 → tx.event = true

theorem ipcClientPopTxMessage_event (tx : Tx) : (ipcClientPopTxMessage tx).event = tx.event := by
  unfold ipcClientPopTxMessage
  split <;> rfl

theorem ipcClientWriteData_event (tx : Tx) (wire : List UInt8) (results : List IoResult) :
    (ipcClientWriteData tx wire results).1.event = tx.event := by
  induction tx, wire, results using ipcClientWriteData.induct with
  | case1 tx wire results hpos written hnone =>
    exact congrArg (·.1.event) (ipcClientWriteData_blocked hpos hnone)
  | case2 tx wire results hpos written hsome ih =>
    exact (congrArg (·.1.event) (ipcClientWriteData_wrote hpos hsome)).trans ih
  | case3 tx wire results hzero =>
    rw [ipcClientWriteData_done hzero]
    exact ipcClientPopTxMessage_event tx

theorem ipcClientWriteEventCb_armed {tx : Tx} (h : tx.event = true) (wire : List UInt8)
    (results : List IoResult) : (ipcClientWriteEventCb tx wire results).1.Armed := by
  have hevent : (ipcClientWrite tx wire results).1.event = tx.event := by
    simp only [ipcClientWrite]
    split_ifs with hheader hmore
    · rfl
    · exact ipcClientWriteData_event _ _ _
    · exact ipcClientWriteData_event _ _ _
  simp only [ipcClientWriteEventCb]
  split_ifs with hidle
  · exact fun hbusy => absurd hidle hbusy
  · exact fun _ => hevent.trans h

theorem zbxIpcClientSend_armed {tx : Tx} (h : tx.Armed) (m : Outgoing) (wire : List UInt8)
    (results : List IoResult) : (zbxIpcClientSend tx m wire results).1.Armed := by
  simp only [zbxIpcClientSend]
  split_ifs with hbusy hpart
  · exact fun _ => h hbusy
  · exact fun _ => rfl
  · exact h

theorem ipcWriteData_length (data wire : List UInt8) (results : List IoResult) :
    (ipcWriteData data wire results).wire.length =
      wire.length + (ipcWriteData data wire results).sizeSent := by
  have hwire := congrArg List.length (ipcWriteData_wire data wire results)
  have hsent := ipcWriteData_sizeSent data wire results
  rw [length_append, length_append, length_drop] at hwire
  omega

theorem ipcClientWriteData_length (tx : Tx) (wire : List UInt8) (results : List IoResult) :
    wire.length ≤ (ipcClientWriteData tx wire results).2.length := by
  induction tx, wire, results using ipcClientWriteData.induct with
  | case1 tx wire results hpos written hnone =>
    have heq : ipcClientWriteData tx wire results = (tx, written.wire) :=
      ipcClientWriteData_blocked hpos hnone
    have hlength : written.wire.length = wire.length + written.sizeSent := ipcWriteData_length _ _ _
    rw [heq]
    change wire.length ≤ written.wire.length
    omega
  | case2 tx wire results hpos written hsome ih =>
    have heq : ipcClientWriteData tx wire results =
        ipcClientWriteData { tx with bytes := tx.bytes - written.sizeSent } written.wire
          written.results := ipcClientWriteData_wrote hpos hsome
    have hlength : written.wire.length = wire.length + written.sizeSent := ipcWriteData_length _ _ _
    rw [heq]
    omega
  | case3 tx wire results hzero => rw [ipcClientWriteData_done hzero]

theorem ipcClientWriteEventCb_length (tx : Tx) (wire : List UInt8) (results : List IoResult) :
    wire.length ≤ (ipcClientWriteEventCb tx wire results).2.length := by
  change wire.length ≤ (ipcClientWrite tx wire results).2.length
  simp only [ipcClientWrite]
  split_ifs
  · rw [ipcWriteData_length]
    exact Nat.le_add_right _ _
  · apply Nat.le_trans _ (ipcClientWriteData_length _ _ _)
    rw [ipcWriteData_length]
    exact Nat.le_add_right _ _
  · exact ipcClientWriteData_length _ _ _

theorem ipcClientWriteEventCb_bytes {tx : Tx} (h : tx.Ok) (hbusy : tx.bytes ≠ 0)
    (wire : List UInt8) {results : List IoResult} (hmoves : movesBytes results = true) :
    wire.length < (ipcClientWriteEventCb tx wire results).2.length := by
  have hsize := h.data hbusy
  have hbytes := h.bytes
  change wire.length < (ipcClientWrite tx wire results).2.length
  by_cases hheader : tx.size.toNat < tx.bytes
  · have hpart : ((headerBytes tx.code tx.size).drop
        (zbxIpcHeaderSize - (tx.bytes - tx.size.toNat))).take (tx.bytes - tx.size.toNat) ≠ [] := by
      rw [← length_pos_iff, length_take, length_drop, length_headerBytes]
      omega
    have hsome := ipcWriteData_bytes hpart wire hmoves
    have hlength := ipcWriteData_length (((headerBytes tx.code tx.size).drop
      (zbxIpcHeaderSize - (tx.bytes - tx.size.toNat))).take (tx.bytes - tx.size.toNat)) wire results
    simp only [ipcClientWrite, if_pos hheader]
    split_ifs with hmore
    · exact hlength ▸ Nat.lt_add_of_pos_right hsome
    · apply Nat.lt_of_lt_of_le _ (ipcClientWriteData_length _ _ _)
      omega
  · have hpos : 0 < tx.bytes := Nat.pos_of_ne_zero hbusy
    have hdata : (tx.data.drop (tx.size.toNat - tx.bytes)).take tx.bytes ≠ [] := by
      rw [← length_pos_iff, length_take, length_drop]
      omega
    have hsome : 0 < (tx.writtenData wire results).sizeSent := ipcWriteData_bytes hdata wire hmoves
    have hlength : (tx.writtenData wire results).wire.length =
        wire.length + (tx.writtenData wire results).sizeSent :=
      ipcWriteData_length _ _ _
    rw [ipcClientWrite, if_neg hheader, ipcClientWriteData_wrote hpos (Nat.ne_of_gt hsome)]
    apply Nat.lt_of_lt_of_le _ (ipcClientWriteData_length _ _ _)
    omega

end Zabbix.Ipc
