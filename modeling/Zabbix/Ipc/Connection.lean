import Zabbix.Ipc.Receiving

/-!
# Connections of an IPC service

Between two events the bytes that were read of the next message, the wire and what the sender
still has are the messages that were sent and not received yet.
-/

namespace Zabbix.Ipc

open List

variable {pending : List IpcMessage}

def Conn.handed (c : Conn) : List IpcMessage := c.given.filterMap id

def Conn.Waiting (c : Conn) : Prop :=
  c.rx.queue ≠ [] ∨ (c.rx.event = false ∧ none ∉ c.given)

/-- What holds of a connection between two events; `read` are the bytes of the first of the messages
that are not received yet. -/
structure ConnSpec (c : Conn) (pending : List IpcMessage) (read : List UInt8) : Prop where
  tx : c.tx.Ok
  armed : c.tx.Armed
  sent : c.sent = c.handed ++ c.rx.queue ++ pending
  ok : ∀ m ∈ c.sent, m.Ok
  started : Started read pending
  stream : read ++ c.wire ++ c.tx.unsent = messagesBytes pending
  reading : c.rx.event = true → Partial c.rx.socket.message read ∧ c.rx.socket.unread = []
  finished : c.rx.event = false → c.closed = true ∧ c.wire = []
  report : none ∈ c.given →
    c.rx.event = false ∧ c.rx.queue = [] ∧ c.given = c.handed.map some ++ [none]
  messages : none ∉ c.given → c.given = c.handed.map some
  queued : c.rx.queued = true ↔ c.Waiting

def Conn.Ok (c : Conn) : Prop := ∃ pending read, ConnSpec c pending read

theorem Conn.ok_new : newConn.Ok := by
  refine ⟨[], [], ⟨⟨fun h => absurd rfl h, Nat.zero_le _, fun _ => rfl, ?_⟩, fun h => absurd rfl h,
    rfl, ?_, rfl, rfl, fun _ => ⟨⟨rfl, rfl, rfl, fun h => absurd h (by decide)⟩, rfl⟩,
    fun h => absurd h (by decide), ?_, fun _ => rfl, ?_⟩⟩
  · intro m hm
    exact absurd hm not_mem_nil
  · intro m hm
    exact absurd hm not_mem_nil
  · intro hnone
    exact absurd hnone not_mem_nil
  · simp [newConn, Conn.Waiting]

theorem started_append {read : List UInt8} {m : IpcMessage} (hm : m.Ok) (h : Started read pending) :
    Started read (pending ++ [m]) := by
  cases pending with
  | nil =>
    change read = [] at h
    rw [h]
    exact hm.bytes_pos
  | cons first pending => exact h

variable {c : Conn}

theorem ConnSpec.event {read : List UInt8} (hc : ConnSpec c pending read)
    (hopen : c.closed = false) :
    c.rx.event = true := by
  cases hevent : c.rx.event with
  | true => rfl
  | false =>
    rw [(hc.finished hevent).1] at hopen
    exact absurd hopen (by decide)

theorem Conn.Ok.send (h : c.Ok) (hopen : c.closed = false) (m : Outgoing) (results : List IoResult)
    :
    Conn.Ok { c with
      tx := (zbxIpcClientSend c.tx m c.wire results).1
      wire := (zbxIpcClientSend c.tx m c.wire results).2
      sent := c.sent ++ [m.message] } := by
  obtain ⟨pending, read, hc⟩ := h
  obtain ⟨htx, hwire⟩ := zbxIpcClientSend_spec hc.tx m c.wire results
  have hevent := hc.event hopen
  refine ⟨pending ++ [m.message], read,
    { tx := htx
      armed := zbxIpcClientSend_armed hc.armed m c.wire results
      sent := ?_, ok := ?_
      started := started_append m.ok hc.started
      stream := ?_
      reading := hc.reading
      finished := fun hfalse => absurd (hevent.symm.trans hfalse) (by decide)
      report := hc.report, messages := hc.messages, queued := hc.queued }⟩
  · change c.sent ++ [m.message] = c.handed ++ c.rx.queue ++ (pending ++ [m.message])
    rw [hc.sent, append_assoc]
  · intro message hmessage
    rcases mem_append.mp hmessage with hold | hnew
    · exact hc.ok message hold
    · rw [mem_singleton.mp hnew]
      exact m.ok
  · rw [messagesBytes_append, ← hc.stream, append_assoc, hwire]
    simp

theorem Conn.Ok.write (h : c.Ok) (hopen : c.closed = false) (hevent : c.tx.event = true)
    (results : List IoResult) :
    Conn.Ok { c with
      tx := (ipcClientWriteEventCb c.tx c.wire results).1
      wire := (ipcClientWriteEventCb c.tx c.wire results).2 } := by
  obtain ⟨pending, read, hc⟩ := h
  obtain ⟨htx, hwire⟩ := ipcClientWriteEventCb_spec hc.tx c.wire results
  have hrx := hc.event hopen
  refine ⟨pending, read,
    { tx := htx
      armed := ipcClientWriteEventCb_armed hevent c.wire results
      sent := hc.sent, ok := hc.ok, started := hc.started
      stream := ?_
      reading := hc.reading
      finished := fun hfalse => absurd (hrx.symm.trans hfalse) (by decide)
      report := hc.report, messages := hc.messages, queued := hc.queued }⟩
  rw [← hc.stream, append_assoc, hwire, append_assoc]

theorem Conn.Ok.close (h : c.Ok) : Conn.Ok { c with closed := true } := by
  obtain ⟨pending, read, hc⟩ := h
  exact ⟨pending, read,
    { tx := hc.tx, armed := hc.armed, sent := hc.sent, ok := hc.ok, started := hc.started
      stream := hc.stream, reading := hc.reading
      finished := fun hevent => ⟨rfl, (hc.finished hevent).2⟩
      report := hc.report, messages := hc.messages, queued := hc.queued }⟩

def Conn.pushed (c : Conn) : Conn :=
  if c.rx.queued ∨ (c.rx.queue.length = 0 ∧ c.rx.event) then c
  else { c with rx := { c.rx with queued := true } }

structure Loose (c : Conn) (pending : List IpcMessage) (read : List UInt8) : Prop where
  tx : c.tx.Ok
  armed : c.tx.Armed
  sent : c.sent = c.handed ++ c.rx.queue ++ pending
  ok : ∀ m ∈ c.sent, m.Ok
  started : Started read pending
  stream : read ++ c.wire ++ c.tx.unsent = messagesBytes pending
  reading : c.rx.event = true → Partial c.rx.socket.message read ∧ c.rx.socket.unread = []
  finished : c.rx.event = false → c.closed = true ∧ c.wire = []
  messages : c.given = c.handed.map some
  queued : c.rx.queued = true → c.Waiting

theorem Loose.pushed {read : List UInt8} (h : Loose c pending read) :
    ConnSpec c.pushed pending read := by
  have hnone : none ∉ c.given := by
    rw [h.messages]
    simp
  have hwaiting : c.Waiting ↔ ¬(c.rx.queue.length = 0 ∧ c.rx.event = true) := by
    simp only [Conn.Waiting, hnone, not_false_eq_true, and_true, length_eq_zero_iff, not_and,
      Bool.not_eq_true]
    exact or_iff_not_imp_left.trans (by simp)
  unfold Conn.pushed
  split_ifs with hpush
  · refine { h with report := fun hmem => absurd hmem hnone, messages := fun _ => h.messages,
                    queued := ⟨h.queued, fun hwait => ?_⟩ }
    exact hpush.resolve_right (hwaiting.mp hwait)
  · rw [not_or] at hpush
    exact
      { tx := h.tx, armed := h.armed, sent := h.sent, ok := h.ok, started := h.started
        stream := h.stream, reading := h.reading, finished := h.finished
        report := fun hmem => absurd hmem hnone, messages := fun _ => h.messages
        queued := ⟨fun _ => hwaiting.mpr hpush.2, fun _ => rfl⟩ }

/-- A connection after `ipc_client_read` in the callback. -/
def Conn.afterRead (c : Conn) (results : List IoResult) : Conn :=
  let r := ipcClientRead c.closed c.rx c.wire results
  { c with rx := if r.1 then r.2.1 else { r.2.1 with event := false }, wire := r.2.2 }

theorem Conn.Ok.read (h : c.Ok) (hevent : c.rx.event = true) (results : List IoResult) :
    (c.afterRead results).pushed.Ok := by
  obtain ⟨pending, read, hc⟩ := h
  obtain ⟨hheld, hunread⟩ := hc.reading hevent
  have hpending : ∀ m ∈ pending, m.Ok := fun m hm => hc.ok m (hc.sent ▸ mem_append_right _ hm)
  have hstream : read ++ c.rx.socket.unread ++ c.wire ++ c.tx.unsent = messagesBytes pending := by
    rw [hunread, append_nil, hc.stream]
  obtain ⟨done, pending', read', hread⟩ :=
    ipcClientRead_spec c.closed results hpending hheld hc.started hstream
  have hnone : none ∉ c.given := fun hmem =>
    absurd (hevent.symm.trans (hc.report hmem).1) (by decide)
  refine ⟨pending', read', Loose.pushed ?_⟩
  have hqueue : (c.afterRead results).rx.queue = c.rx.queue ++ done := by
    rw [← hread.queue]
    simp only [Conn.afterRead]
    split_ifs <;> rfl
  have hqueued : (c.afterRead results).rx.queued = c.rx.queued := by
    rw [← hread.queued]
    simp only [Conn.afterRead]
    split_ifs <;> rfl
  refine
    { tx := hc.tx, armed := hc.armed, sent := ?_, ok := hc.ok, started := hread.started
      stream := hread.stream, reading := fun hopen => ?_, finished := fun hfalse => ?_
      messages := hc.messages hnone, queued := fun hwas => ?_ }
  · rw [hqueue]
    change c.sent = c.handed ++ (c.rx.queue ++ done) ++ pending'
    rw [hc.sent, hread.messages]
    simp
  · simp only [Conn.afterRead] at hopen ⊢
    split_ifs at hopen ⊢ with hok
    exact hread.succeeded hok
  · simp only [Conn.afterRead] at hfalse ⊢
    split_ifs at hfalse with hok
    · exact absurd (hread.event.symm.trans hfalse) (by simp [hevent])
    · exact hread.failed (eq_false_of_ne_true hok)
  · rw [hqueued] at hwas
    rcases hc.queued.mp hwas with hmessages | hreport
    · left
      rw [hqueue]
      exact append_ne_nil_of_left_ne_nil hmessages done
    · exact absurd (hevent.symm.trans hreport.1) (by decide)

def Conn.reported (c : Conn) : Conn :=
  { c with rx := { c.rx with queued := false }, given := c.given ++ [none] }

def Conn.gave (c : Conn) (message : IpcMessage) (queue : List IpcMessage) : Conn :=
  { c with
    rx := { c.rx with queued := false, queue := queue }
    given := c.given ++ [some message] }

theorem Conn.Ok.report (h : c.Ok) (hqueued : c.rx.queued = true) (hqueue : c.rx.queue = []) :
    c.reported.Ok := by
  obtain ⟨pending, read, hc⟩ := h
  obtain ⟨hevent, hnone⟩ := (hc.queued.mp hqueued).resolve_left fun hne => hne hqueue
  have hhanded : c.reported.handed = c.handed := by simp [Conn.reported, Conn.handed]
  have hmem : none ∈ c.reported.given := mem_append_right _ mem_cons_self
  refine ⟨pending, read,
    { tx := hc.tx, armed := hc.armed
      sent := by rw [hhanded]; exact hc.sent
      ok := hc.ok, started := hc.started, stream := hc.stream
      reading := hc.reading, finished := hc.finished
      report := fun _ => ⟨hevent, hqueue, ?_⟩
      messages := fun hnot => absurd hmem hnot
      queued := ⟨fun hfalse => absurd hfalse Bool.noConfusion, fun hwait => ?_⟩ }⟩
  · rw [hhanded, ← hc.messages hnone]
    rfl
  · rcases hwait with hne | hreport
    · exact absurd hqueue hne
    · exact absurd hmem hreport.2

theorem Conn.Ok.give (h : c.Ok) {message : IpcMessage} {queue : List IpcMessage}
    (hqueue : c.rx.queue = message :: queue) : (c.gave message queue).pushed.Ok := by
  obtain ⟨pending, read, hc⟩ := h
  have hnone : none ∉ c.given := fun hmem => by
    rw [(hc.report hmem).2.1] at hqueue
    exact absurd hqueue (by simp)
  have hhanded : (c.gave message queue).handed = c.handed ++ [message] := by
    simp [Conn.gave, Conn.handed]
  refine ⟨pending, read, Loose.pushed
    { tx := hc.tx, armed := hc.armed, sent := ?_, ok := hc.ok, started := hc.started
      stream := hc.stream, reading := hc.reading, finished := hc.finished, messages := ?_
      queued := fun hfalse => absurd hfalse Bool.noConfusion }⟩
  · rw [hhanded]
    change c.sent = c.handed ++ [message] ++ queue ++ pending
    rw [hc.sent, hqueue]
    simp
  · rw [hhanded, map_append, ← hc.messages hnone]
    rfl

end Zabbix.Ipc
