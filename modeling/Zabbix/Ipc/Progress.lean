import Zabbix.Ipc.Connection

/-!
# Events that move bytes

A write event whose socket takes a byte makes what the sender still has shorter, and a read event
whose socket returns a byte makes the wire shorter or finds that the connection was closed.
-/

namespace Zabbix.Ipc

open List

variable {size : ℕ} {wire : List UInt8} {results : List IoResult} {rx : Rx}

variable (closed : Bool)

theorem ipcReadData_wire_le (size : ℕ) (wire : List UInt8) (results : List IoResult) :
    (ipcReadData closed size wire results).wire.length ≤ wire.length := by
  have hlength := congrArg List.length (ipcReadData_wire closed size wire results)
  rw [length_append] at hlength
  omega

theorem ipcReadData_bytes (hsize : 0 < size) (hwire : wire ≠ [])
    (hmoves : movesBytes results = true) :
    (ipcReadData closed size wire results).ok = true ∧
      (ipcReadData closed size wire results).bytes ≠ [] ∧
      (ipcReadData closed size wire results).wire.length < wire.length := by
  induction results with
  | nil => exact absurd hmoves Bool.noConfusion
  | cons result results ih =>
    cases result with
    | intr => exact ih hmoves
    | wouldBlock => exact absurd hmoves Bool.noConfusion
    | bytes more =>
      have hpos : 0 < wire.length := length_pos_iff.mpr hwire
      simp only [ipcReadData, if_neg hwire]
      refine ⟨trivial, ?_, ?_⟩
      · rw [← length_pos_iff, length_take]
        omega
      · rw [length_drop]
        omega

theorem ipcReadData_closed (size : ℕ) (hmoves : movesBytes results = true) :
    (ipcReadData true size [] results).ok = false := by
  induction results with
  | nil => exact absurd hmoves Bool.noConfusion
  | cons result results ih =>
    cases result with
    | intr => exact ih hmoves
    | wouldBlock => exact absurd hmoves Bool.noConfusion
    | bytes more => rfl

theorem ipcReadDataFullFrom_wire_le (size : ℕ) (before wire : List UInt8) (results : List IoResult)
    :
    (ipcReadDataFullFrom closed size before wire results).wire.length ≤ wire.length := by
  induction before, wire, results using ipcReadDataFullFrom.induct closed size with
  | case1 before wire results hless chunk hfail =>
    rw [ipcReadDataFullFrom_step closed wire results hless, if_pos hfail]
    exact ipcReadData_wire_le closed _ wire results
  | case2 before wire results hless chunk hok hnone =>
    rw [ipcReadDataFullFrom_step closed wire results hless, if_neg hok, if_pos hnone]
    exact ipcReadData_wire_le closed _ wire results
  | case3 before wire results hless chunk hok hsome ih =>
    rw [ipcReadDataFullFrom_step closed wire results hless, if_neg hok, if_neg hsome]
    exact Nat.le_trans ih (ipcReadData_wire_le closed _ wire results)
  | case4 before wire results hdone => rw [ipcReadDataFullFrom, if_neg hdone]

theorem ipcReadDataFull_bytes (hsize : 0 < size) (hwire : wire ≠ [])
    (hmoves : movesBytes results = true) :
    (ipcReadDataFull closed size wire results).wire.length < wire.length := by
  obtain ⟨hok, hbytes, hless⟩ := ipcReadData_bytes closed hsize hwire hmoves
  have hfirst : ¬(ipcReadData closed (size - ([] : List UInt8).length) wire
      results).ok = false := fun hfail =>
    absurd (hok.symm.trans hfail) Bool.noConfusion
  have hsome : ¬(ipcReadData closed (size - ([] : List UInt8).length) wire
      results).bytes.length = 0 := fun hnone =>
    hbytes (length_eq_zero_iff.mp hnone)
  rw [ipcReadDataFull, ipcReadDataFullFrom_step closed wire _ hsize, if_neg hfirst, if_neg hsome]
  exact Nat.lt_of_le_of_lt (ipcReadDataFullFrom_wire_le closed _ _ _ _) hless

theorem ipcSocketReadLoop_wire_le (message : RxMessage) (wire : List UInt8)
    (results : List IoResult) :
    (ipcSocketReadLoop closed message wire results).wire.length ≤ wire.length := by
  induction message, wire, results using ipcSocketReadLoop.induct closed with
  | case1 message wire results offset dataSize hdirect =>
    rw [ipcSocketReadLoop_direct hdirect]
    exact ipcReadDataFullFrom_wire_le closed _ [] wire results
  | case2 message wire results offset dataSize hbuffer chunk hstop =>
    have hchunk : chunk.wire.length ≤ wire.length := ipcReadData_wire_le closed _ wire results
    rw [ipcSocketReadLoop_buffered hbuffer, if_pos hstop]
    exact hchunk
  | case3 message wire results offset dataSize hbuffer chunk hmore buffered hcompleted =>
    have hchunk : chunk.wire.length ≤ wire.length := ipcReadData_wire_le closed _ wire results
    rw [ipcSocketReadLoop_buffered hbuffer, if_neg hmore, if_pos hcompleted]
    exact hchunk
  | case4 message wire results offset dataSize hbuffer chunk hmore buffered hpart ih =>
    have hchunk : chunk.wire.length ≤ wire.length := ipcReadData_wire_le closed _ wire results
    rw [ipcSocketReadLoop_buffered hbuffer, if_neg hmore, if_neg hpart]
    exact Nat.le_trans ih hchunk

theorem ipcSocketReadLoop_bytes (message : RxMessage) (hwire : wire ≠ [])
    (hmoves : movesBytes results = true) :
    (ipcSocketReadLoop closed message wire results).wire.length < wire.length := by
  by_cases hdirect : zbxIpcHeaderSize < message.bytes ∧ 3072 < directSize message
  · rw [ipcSocketReadLoop_direct hdirect]
    exact ipcReadDataFull_bytes closed (Nat.lt_trans (by decide) hdirect.2) hwire hmoves
  · obtain ⟨hok, hbytes, hless⟩ :=
      ipcReadData_bytes closed (show 0 < zbxIpcSocketBufferSize by decide) hwire hmoves
    rw [ipcSocketReadLoop_buffered hdirect, if_neg]
    · split_ifs with hcompleted
      · exact hless
      · exact Nat.lt_of_le_of_lt (ipcSocketReadLoop_wire_le closed _ _ _) hless
    · rintro (hfail | hnone)
      · exact absurd (hok.symm.trans hfail) Bool.noConfusion
      · exact hbytes hnone

theorem ipcSocketReadLoop_closed (message : RxMessage) (hmoves : movesBytes results = true) :
    (ipcSocketReadLoop true message [] results).ok = false := by
  by_cases hdirect : zbxIpcHeaderSize < message.bytes ∧ 3072 < directSize message
  · have hsize : ([] : List UInt8).length < directSize message :=
      Nat.lt_trans (by decide) hdirect.2
    rw [ipcSocketReadLoop_direct hdirect, ipcReadDataFull,
      ipcReadDataFullFrom_step true [] _ hsize, if_pos (ipcReadData_closed _ hmoves)]
  · have hclosed := ipcReadData_closed zbxIpcSocketBufferSize hmoves
    rw [ipcSocketReadLoop_buffered hdirect, if_pos (Or.inl hclosed), hclosed]

theorem ipcSocketReadMessage_wire_le (socket : RxSocket) (wire : List UInt8)
    (results : List IoResult) :
    (ipcSocketReadMessage closed socket wire results).wire.length ≤ wire.length := by
  simp only [ipcSocketReadMessage]
  split_ifs with hbuffer hcompleted
  · exact Nat.le_refl _
  · exact ipcSocketReadLoop_wire_le closed _ wire results
  · exact ipcSocketReadLoop_wire_le closed _ wire results

theorem ipcSocketReadMessage_empty {socket : RxSocket} (h : socket.unread = []) (wire : List UInt8)
    (results : List IoResult) :
    ipcSocketReadMessage closed socket wire results =
      ipcSocketReadLoop closed socket.message wire results := by
  rw [ipcSocketReadMessage, if_neg]
  exact not_lt.mpr (drop_eq_nil_iff.mp h)

theorem ipcClientReadLoop_wire_le (n : ℕ) (rx : Rx) (wire : List UInt8) (results : List IoResult) :
    (ipcClientReadLoop closed n rx wire results).2.2.length ≤ wire.length := by
  induction n generalizing rx wire results with
  | zero => exact Nat.le_refl _
  | succ n ih =>
    have hread := ipcSocketReadMessage_wire_le closed rx.socket wire results
    simp only [ipcClientReadLoop]
    split_ifs with hfail hcompleted
    · exact hread
    · exact Nat.le_trans (ih _ _ _) hread
    · exact hread

theorem ipcClientRead_bytes (h : rx.socket.unread = []) (hwire : wire ≠ [])
    (hmoves : movesBytes results = true) :
    (ipcClientRead closed rx wire results).2.2.length < wire.length := by
  have hread := ipcSocketReadLoop_bytes closed rx.socket.message hwire hmoves
  rw [← ipcSocketReadMessage_empty closed h] at hread
  simp only [ipcClientRead, ipcClientReadLoop]
  split_ifs with hfail hcompleted
  · exact hread
  · exact Nat.lt_of_le_of_lt (ipcClientReadLoop_wire_le closed _ _ _ _) hread
  · exact hread

theorem ipcClientRead_closed (h : rx.socket.unread = []) (hmoves : movesBytes results = true) :
    (ipcClientRead true rx [] results).1 = false := by
  have hfail := ipcSocketReadLoop_closed rx.socket.message hmoves
  rw [← ipcSocketReadMessage_empty true h] at hfail
  simp only [ipcClientRead, ipcClientReadLoop, hfail, if_true]

end Zabbix.Ipc
