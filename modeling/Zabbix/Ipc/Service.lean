import Zabbix.Ipc.Progress

/-!
# The service and its connections

What an event makes of a connection depends on it and on whether its client is the first in the
queue of the service. The clients in the queue are those that are marked as queued, each of them
once.
-/

namespace Zabbix.Ipc

open List Function

section Service

variable {ι : Type} [DecidableEq ι]

def Conn.sending (c : Conn) (m : Outgoing) (results : List IoResult) : Conn :=
  { c with
    tx := (zbxIpcClientSend c.tx m c.wire results).1
    wire := (zbxIpcClientSend c.tx m c.wire results).2
    sent := c.sent ++ [m.message] }

def Conn.writing (c : Conn) (results : List IoResult) : Conn :=
  { c with
    tx := (ipcClientWriteEventCb c.tx c.wire results).1
    wire := (ipcClientWriteEventCb c.tx c.wire results).2 }

def Conn.taken (c : Conn) : Conn :=
  match c.rx.queue with
  | [] => c.reported
  | message :: queue => (c.gave message queue).pushed

variable {c : Conn}

theorem Conn.taken_nil (h : c.rx.queue = []) : c.taken = c.reported := by rw [taken, h]

theorem Conn.taken_cons {message : IpcMessage} {queue : List IpcMessage}
    (h : c.rx.queue = message :: queue) : c.taken = (c.gave message queue).pushed := by
  rw [taken, h]

def Conn.after (i : ι) (first : Bool) (c : Conn) : Event ι → Conn
  | .send j m results => if j = i ∧ c.closed = false then c.sending m results else c
  | .write j results =>
    if j = i ∧ c.closed = false ∧ c.tx.event = true then c.writing results else c
  | .read j results => if j = i ∧ c.rx.event = true then (c.afterRead results).pushed else c
  | .close j => if j = i then { c with closed := true } else c
  | .recv => if first then c.taken else c

theorem Conn.Ok.after (h : c.Ok) (i : ι) {first : Bool} (hfirst : first = true → c.rx.queued = true)
    (event : Event ι) :
    (c.after i first event).Ok := by
  cases event with
  | send j m results =>
    simp only [Conn.after]
    split_ifs with hopen
    · exact h.send hopen.2 m results
    · exact h
  | write j results =>
    simp only [Conn.after]
    split_ifs with hevent
    · exact h.write hevent.2.1 hevent.2.2 results
    · exact h
  | read j results =>
    simp only [Conn.after]
    split_ifs with hevent
    · exact h.read hevent.2 results
    · exact h
  | close j =>
    simp only [Conn.after]
    split_ifs
    · exact h.close
    · exact h
  | recv =>
    simp only [Conn.after]
    split_ifs with hrecv
    · cases hqueue : c.rx.queue with
      | nil => exact c.taken_nil hqueue ▸ h.report (hfirst hrecv) hqueue
      | cons message queue => exact c.taken_cons hqueue ▸ h.give hqueue
    · exact h

structure Service.QueueOk (s : Service ι) : Prop where
  nodup : s.clientsRecv.Nodup
  queued : ∀ i, i ∈ s.clientsRecv ↔ (s.conn i).rx.queued = true

variable {s : Service ι} {i : ι}

theorem Service.QueueOk.update (h : s.QueueOk) (hqueued : c.rx.queued = (s.conn i).rx.queued) :
    Service.QueueOk { s with conn := Function.update s.conn i c } := by
  refine ⟨h.nodup, fun j => ?_⟩
  change j ∈ s.clientsRecv ↔ (Function.update s.conn i c j).rx.queued = true
  rw [h.queued j]
  by_cases hj : j = i
  · rw [hj, update_self, hqueued]
  · rw [update_of_ne hj]

theorem ipcServicePushClient_conn (s : Service ι) (i : ι) :
    (ipcServicePushClient s i).conn = Function.update s.conn i (s.conn i).pushed := by
  simp only [ipcServicePushClient, Conn.pushed]
  by_cases hqueued : (s.conn i).rx.queued = true
  · rw [if_pos hqueued, if_pos (Or.inl hqueued), update_eq_self]
  · rw [if_neg hqueued]
    by_cases hidle : (s.conn i).rx.queue.length = 0 ∧ (s.conn i).rx.event = true
    · rw [if_pos hidle, if_pos (Or.inr hidle), update_eq_self]
    · rw [if_neg hidle, if_neg (not_or.mpr ⟨hqueued, hidle⟩)]

theorem ipcServicePushClient_update (conn : ι → Conn) (i : ι) (c : Conn) (clients : List ι) :
    (ipcServicePushClient ⟨Function.update conn i c, clients⟩ i).conn =
      Function.update conn i c.pushed := by
  rw [ipcServicePushClient_conn]
  change Function.update (Function.update conn i c) i (Function.update conn i c i).pushed = _
  rw [update_idem, update_self]

theorem Service.QueueOk.push (h : s.QueueOk) (i : ι) : (ipcServicePushClient s i).QueueOk := by
  simp only [ipcServicePushClient]
  split_ifs with hqueued hidle
  · exact h
  · exact h
  · have hnew : i ∉ s.clientsRecv := fun hmem => hqueued ((h.queued i).mp hmem)
    constructor
    · rw [nodup_append]
      refine ⟨h.nodup, nodup_singleton i, fun a ha b hb hab => hnew ?_⟩
      rw [← mem_singleton.mp hb, ← hab]
      exact ha
    · intro j
      rw [mem_append, mem_singleton, h.queued j]
      by_cases hj : j = i
      · simp [hj]
      · simp [hj]

variable {rest : List ι}

theorem Service.QueueOk.pop (h : s.QueueOk) (hfirst : s.clientsRecv = i :: rest)
    (hqueued : c.rx.queued = false) :
    Service.QueueOk ⟨Function.update s.conn i c, rest⟩ := by
  have hnodup := h.nodup
  rw [hfirst, nodup_cons] at hnodup
  refine ⟨hnodup.2, fun j => ?_⟩
  change j ∈ rest ↔ (Function.update s.conn i c j).rx.queued = true
  have hmem := h.queued j
  rw [hfirst, mem_cons] at hmem
  by_cases hj : j = i
  · rw [hj, update_self, hqueued]
    exact ⟨fun hrest => absurd hrest hnodup.1, fun hfalse => absurd hfalse Bool.noConfusion⟩
  · rw [update_of_ne hj, ← hmem]
    exact ⟨Or.inr, fun hor => hor.resolve_left hj⟩

theorem step_send_conn (s : Service ι) (i : ι) (m : Outgoing) (results : List IoResult)
    (first : Bool) :
    (step s (.send i m results)).conn =
      Function.update s.conn i ((s.conn i).after i first (.send i m results)) := by
  simp only [step, Conn.after, true_and]
  by_cases hclosed : (s.conn i).closed = true
  · rw [if_pos hclosed, if_neg (by simp [hclosed]), update_eq_self]
  · rw [if_neg hclosed, if_pos (Bool.not_eq_true _ ▸ hclosed)]
    rfl

theorem step_write_conn (s : Service ι) (i : ι) (results : List IoResult) (first : Bool) :
    (step s (.write i results)).conn =
      Function.update s.conn i ((s.conn i).after i first (.write i results)) := by
  simp only [step, Conn.after, true_and]
  split_ifs
  · rfl
  · rw [update_eq_self]

theorem step_read_conn (s : Service ι) (i : ι) (results : List IoResult) (first : Bool) :
    (step s (.read i results)).conn =
      Function.update s.conn i ((s.conn i).after i first (.read i results)) := by
  simp only [step, Conn.after, true_and]
  split_ifs
  · exact ipcServicePushClient_update s.conn i ((s.conn i).afterRead results) s.clientsRecv
  · rw [update_eq_self]

theorem step_close_conn (s : Service ι) (i : ι) (first : Bool) :
    (step s (.close i)).conn = Function.update s.conn i ((s.conn i).after i first (.close i)) := by
  simp only [step, Conn.after, if_true]

theorem zbxIpcServiceRecv_first (hfirst : s.clientsRecv = i :: rest) :
    zbxIpcServiceRecv s =
      match (s.conn i).rx.queue with
      | [] => ⟨Function.update s.conn i (s.conn i).reported, rest⟩
      | message :: queue =>
        ipcServicePushClient
          ⟨Function.update s.conn i ((s.conn i).gave message queue), rest⟩ i := by
  rw [zbxIpcServiceRecv, hfirst]
  rfl

theorem zbxIpcServiceRecv_conn (hfirst : s.clientsRecv = i :: rest) :
    (zbxIpcServiceRecv s).conn = Function.update s.conn i (s.conn i).taken := by
  rw [zbxIpcServiceRecv_first hfirst, Conn.taken]
  cases (s.conn i).rx.queue with
  | nil => rfl
  | cons message queue => exact ipcServicePushClient_update s.conn i _ rest

theorem update_after {j : ι} {first : Bool} {event : Event ι}
    (hother : j ≠ i → (s.conn i).after i first event = s.conn i) :
    Function.update s.conn j ((s.conn j).after j first event) i =
      (s.conn i).after i first event := by
  by_cases hj : i = j
  · rw [hj, update_self]
  · rw [update_of_ne hj, hother (Ne.symm hj)]

theorem step_conn (s : Service ι) (event : Event ι) (i : ι) :
    (step s event).conn i = (s.conn i).after i (decide (s.clientsRecv.head? = some i)) event := by
  cases event with
  | send j m results =>
    rw [step_send_conn]
    exact update_after fun hj => if_neg fun h => hj h.1
  | write j results =>
    rw [step_write_conn]
    exact update_after fun hj => if_neg fun h => hj h.1
  | read j results =>
    rw [step_read_conn]
    exact update_after fun hj => if_neg fun h => hj h.1
  | close j =>
    rw [step_close_conn]
    exact update_after fun hj => if_neg hj
  | recv =>
    rw [step, Conn.after]
    cases hqueue : s.clientsRecv with
    | nil =>
      rw [zbxIpcServiceRecv, hqueue]
      rfl
    | cons first rest =>
      rw [zbxIpcServiceRecv_conn hqueue, List.head?_cons]
      by_cases hfirst : first = i
      · rw [hfirst, update_self, if_pos (by simp)]
      · rw [update_of_ne (Ne.symm hfirst), if_neg (by simp [hfirst])]

structure Service.Ok (s : Service ι) : Prop where
  conn : ∀ i, (s.conn i).Ok
  queue : s.QueueOk

omit [DecidableEq ι] in
theorem Service.ok_new : (newService ι).Ok := by
  refine ⟨fun _ => Conn.ok_new, nodup_nil, fun i => ?_⟩
  exact ⟨fun hmem => absurd hmem not_mem_nil, fun hfalse => absurd hfalse Bool.noConfusion⟩

theorem Service.QueueOk.first (h : s.QueueOk) (i : ι)
    (hfirst : decide (s.clientsRecv.head? = some i) = true) : (s.conn i).rx.queued = true :=
  (h.queued i).mp (List.mem_of_mem_head? (of_decide_eq_true hfirst))

theorem ipcClientReadLoop_kept (closed : Bool) (n : ℕ) (rx : Rx) (wire : List UInt8)
    (results : List IoResult) :
    (ipcClientReadLoop closed n rx wire results).2.1.queued = rx.queued ∧
      (ipcClientReadLoop closed n rx wire results).2.1.event = rx.event := by
  induction n generalizing rx wire results with
  | zero => exact ⟨rfl, rfl⟩
  | succ n ih =>
    simp only [ipcClientReadLoop]
    split_ifs
    · exact ⟨rfl, rfl⟩
    · exact ih _ _ _
    · exact ⟨rfl, rfl⟩

theorem ipcClientRead_kept (closed : Bool) (rx : Rx) (wire : List UInt8) (results : List IoResult) :
    (ipcClientRead closed rx wire results).2.1.queued = rx.queued ∧
      (ipcClientRead closed rx wire results).2.1.event = rx.event :=
  ipcClientReadLoop_kept closed _ rx wire results

theorem Conn.afterRead_queued (c : Conn) (results : List IoResult) :
    (c.afterRead results).rx.queued = c.rx.queued := by
  rw [← (ipcClientRead_kept c.closed c.rx c.wire results).1]
  simp only [afterRead]
  split_ifs <;> rfl

theorem Conn.afterRead_event (c : Conn) (results : List IoResult) :
    (c.afterRead results).rx.event =
      ((ipcClientRead c.closed c.rx c.wire results).1 && c.rx.event) := by
  rw [← (ipcClientRead_kept c.closed c.rx c.wire results).2]
  simp only [afterRead]
  split_ifs with hok
  · rw [hok, Bool.true_and]
  · rw [eq_false_of_ne_true hok, Bool.false_and]

theorem Service.QueueOk.step (h : s.QueueOk) (event : Event ι) : (step s event).QueueOk := by
  cases event with
  | send i m results =>
    simp only [Ipc.step]
    split_ifs
    · exact h
    · exact h.update rfl
  | write i results =>
    simp only [Ipc.step]
    split_ifs
    · exact h.update rfl
    · exact h
  | read i results =>
    simp only [Ipc.step]
    split_ifs
    · apply Service.QueueOk.push
      exact h.update ((s.conn i).afterRead_queued results)
    · exact h
  | close i => exact h.update rfl
  | recv =>
    rw [Ipc.step]
    cases hclients : s.clientsRecv with
    | nil =>
      rw [zbxIpcServiceRecv, hclients]
      exact h
    | cons i rest =>
      rw [zbxIpcServiceRecv_first hclients]
      cases (s.conn i).rx.queue with
      | nil => exact h.pop hclients rfl
      | cons message queue =>
        apply Service.QueueOk.push
        exact h.pop hclients rfl

theorem Service.Ok.step (h : s.Ok) (event : Event ι) : (step s event).Ok := by
  refine ⟨fun i => ?_, h.queue.step event⟩
  rw [step_conn]
  exact (h.conn i).after i (h.queue.first i) event

theorem Service.Ok.run (h : s.Ok) (events : List (Event ι)) : (run s events).Ok := by
  induction events generalizing s with
  | nil => exact h
  | cons event events ih => exact ih (h.step event)

end Service

end Zabbix.Ipc
