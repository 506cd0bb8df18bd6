import Zabbix.Foundation.Drain
import Zabbix.Ipc.Service

/-!
# Delivery of messages over IPC

A service receives the first of the messages that the client sent, in their order. When the sockets
move enough bytes all of them arrive; when the queue is emptied all that arrived were given to the
caller, and the closing of the connection behind them.
-/

namespace Zabbix.Ipc

open Function List

section Delivery

variable {ι : Type} [DecidableEq ι]

def Conn.received (c : Conn) : List IpcMessage := c.handed ++ c.rx.queue

def Event.takesByte (i : ι) : Event ι → Bool
  | .write j results => decide (j = i) && movesBytes results
  | _ => false

def Event.returnsByte (i : ι) : Event ι → Bool
  | .read j results => decide (j = i) && movesBytes results
  | _ => false

def Event.Quiet (i : ι) : Event ι → Prop
  | .send j _ _ => j ≠ i
  | .close j => j ≠ i
  | _ => True

theorem Conn.pushed_eq (c : Conn) :
    ∃ queued, c.pushed = { c with rx := { c.rx with queued := queued } } := by
  rw [pushed]
  split_ifs
  · exact ⟨c.rx.queued, rfl⟩
  · exact ⟨true, rfl⟩

theorem Conn.taken_eq (c : Conn) :
    c.taken.tx = c.tx ∧ c.taken.wire = c.wire ∧ c.taken.closed = c.closed ∧
      c.taken.sent = c.sent ∧ c.taken.rx.event = c.rx.event ∧ c.taken.received = c.received := by
  cases hqueue : c.rx.queue with
  | nil =>
    rw [taken_nil hqueue]
    exact ⟨rfl, rfl, rfl, rfl, rfl, by simp [received, handed, reported]⟩
  | cons message queue =>
    obtain ⟨queued, hpushed⟩ := (c.gave message queue).pushed_eq
    rw [taken_cons hqueue, hpushed]
    exact ⟨rfl, rfl, rfl, rfl, rfl, by simp [received, handed, gave, hqueue]⟩

theorem Conn.read_eq (c : Conn) (results : List IoResult) :
    (c.afterRead results).pushed.tx = c.tx ∧ (c.afterRead results).pushed.closed = c.closed ∧
      (c.afterRead results).pushed.sent = c.sent ∧
      (c.afterRead results).pushed.wire = (ipcClientRead c.closed c.rx c.wire results).2.2 ∧
      (c.afterRead results).pushed.rx.event =
        ((ipcClientRead c.closed c.rx c.wire results).1 && c.rx.event) := by
  obtain ⟨queued, hpushed⟩ := (c.afterRead results).pushed_eq
  rw [hpushed]
  exact ⟨rfl, rfl, rfl, rfl, c.afterRead_event results⟩

variable {i : ι}

theorem Conn.after_quiet (c : Conn) (first : Bool) {event : Event ι} (h : event.Quiet i) :
    (c.after i first event).closed = c.closed ∧ (c.after i first event).sent = c.sent := by
  cases event with
  | send j m results =>
    rw [after, if_neg fun hj => h hj.1]
    exact ⟨rfl, rfl⟩
  | write j results =>
    rw [after]
    split_ifs <;> exact ⟨rfl, rfl⟩
  | read j results =>
    obtain ⟨-, hclosed, hsent, -⟩ := c.read_eq results
    rw [after]
    split_ifs
    · exact ⟨hclosed, hsent⟩
    · exact ⟨rfl, rfl⟩
  | close j =>
    rw [after, if_neg h]
    exact ⟨rfl, rfl⟩
  | recv =>
    obtain ⟨-, -, hclosed, hsent, -⟩ := c.taken_eq
    rw [after]
    split_ifs
    · exact ⟨hclosed, hsent⟩
    · exact ⟨rfl, rfl⟩

variable {c : Conn}

theorem Conn.writing_length (h : c.tx.Ok) (results : List IoResult) :
    (c.writing results).wire.length + (c.writing results).tx.unsent.length =
      c.wire.length + c.tx.unsent.length := by
  have hwire := congrArg List.length (ipcClientWriteEventCb_spec h c.wire results).2
  rw [length_append, length_append] at hwire
  exact hwire

theorem Conn.after_length (h : c.tx.Ok) (first : Bool) {event : Event ι} (hquiet : event.Quiet i) :
    (c.after i first event).tx.unsent.length ≤ c.tx.unsent.length ∧
      (c.after i first event).wire.length + (c.after i first event).tx.unsent.length ≤
        c.wire.length + c.tx.unsent.length := by
  cases event with
  | send j m results =>
    rw [after, if_neg fun hj => hquiet hj.1]
    exact ⟨Nat.le_refl _, Nat.le_refl _⟩
  | write j results =>
    rw [after]
    split_ifs
    · have htotal := Conn.writing_length h results
      have hwire : c.wire.length ≤ (c.writing results).wire.length :=
        ipcClientWriteEventCb_length c.tx c.wire results
      exact ⟨by omega, Nat.le_of_eq htotal⟩
    · exact ⟨Nat.le_refl _, Nat.le_refl _⟩
  | read j results =>
    rw [after]
    split_ifs
    · obtain ⟨htx, -, -, hwire, -⟩ := c.read_eq results
      rw [htx, hwire]
      exact ⟨Nat.le_refl _, Nat.add_le_add_right (ipcClientReadLoop_wire_le _ _ _ _ _) _⟩
    · exact ⟨Nat.le_refl _, Nat.le_refl _⟩
  | close j =>
    rw [after, if_neg hquiet]
    exact ⟨Nat.le_refl _, Nat.le_refl _⟩
  | recv =>
    rw [after]
    split_ifs
    · obtain ⟨htx, hwire, -⟩ := c.taken_eq
      rw [htx, hwire]
      exact ⟨Nat.le_refl _, Nat.le_refl _⟩
    · exact ⟨Nat.le_refl _, Nat.le_refl _⟩

theorem Conn.after_takesByte (h : c.Ok) (hopen : c.closed = false) (first : Bool) {event : Event ι}
    (htakes : event.takesByte i = true) (hunsent : 0 < c.tx.unsent.length) :
    (c.after i first event).tx.unsent.length < c.tx.unsent.length := by
  obtain ⟨pending, read, hc⟩ := h
  cases event with
  | write j results =>
    rw [Event.takesByte, Bool.and_eq_true, decide_eq_true_eq] at htakes
    have hbusy : c.tx.bytes ≠ 0 := fun hidle => by
      rw [Tx.unsent_idle hidle, hc.tx.idle hidle] at hunsent
      exact absurd hunsent (Nat.lt_irrefl 0)
    have htotal := Conn.writing_length hc.tx results
    have hwire : c.wire.length < (c.writing results).wire.length :=
      ipcClientWriteEventCb_bytes hc.tx hbusy c.wire htakes.2
    rw [after, if_pos ⟨htakes.1, hopen, hc.armed hbusy⟩]
    omega
  | send | read | close | recv => exact absurd htakes Bool.noConfusion

theorem Conn.after_returnsByte (h : c.Ok) (hevent : c.rx.event = true) (first : Bool)
    {event : Event ι} (hreturns : event.returnsByte i = true) (hwire : 0 < c.wire.length) :
    (c.after i first event).wire.length < c.wire.length ∧ (c.after i first event).tx = c.tx := by
  obtain ⟨pending, read, hc⟩ := h
  cases event with
  | read j results =>
    rw [Event.returnsByte, Bool.and_eq_true, decide_eq_true_eq] at hreturns
    obtain ⟨htx, -, -, hwire', -⟩ := c.read_eq results
    rw [after, if_pos ⟨hreturns.1, hevent⟩, htx, hwire']
    exact ⟨ipcClientRead_bytes c.closed (hc.reading hevent).2 (length_pos_iff.mp hwire)
      hreturns.2, rfl⟩
  | send | write | close | recv => exact absurd hreturns Bool.noConfusion

structure Service.Open (s : Service ι) (i : ι) : Prop where
  ok : s.Ok
  closed : (s.conn i).closed = false

variable {s : Service ι}

theorem Service.Open.step (h : s.Open i) {event : Event ι} (hquiet : event.Quiet i) :
    (step s event).Open i := by
  refine ⟨h.ok.step event, ?_⟩
  rw [step_conn, (Conn.after_quiet _ _ hquiet).1, h.closed]

theorem Conn.Ok.tx (h : c.Ok) : c.tx.Ok := by
  obtain ⟨pending, read, hc⟩ := h
  exact hc.tx

theorem Conn.Ok.event (h : c.Ok) (hopen : c.closed = false) : c.rx.event = true := by
  obtain ⟨pending, read, hc⟩ := h
  exact hc.event hopen

variable {events : List (Event ι)}

variable (hquiet : ∀ e ∈ events, e.Quiet i)

include hquiet

theorem drains_unsent :
    Drains step (fun s => s.Open i) (Event.takesByte i) events
      (fun s => (s.conn i).tx.unsent.length) where
  keeps := fun _ e he h => h.step (hquiet e he)
  le := fun s e he h => by
    rw [step_conn]
    exact (Conn.after_length (h.ok.conn i).tx _ (hquiet e he)).1
  lt := fun s e _ h htakes hunsent => by
    rw [step_conn]
    exact Conn.after_takesByte (h.ok.conn i) h.closed _ htakes hunsent

theorem drains_bytes :
    Drains step (fun s => s.Open i) (fun _ => false) events
      (fun s => (s.conn i).wire.length + (s.conn i).tx.unsent.length) where
  keeps := fun _ e he h => h.step (hquiet e he)
  le := fun s e he h => by
    rw [step_conn]
    exact (Conn.after_length (h.ok.conn i).tx _ (hquiet e he)).2
  lt := fun _ _ _ _ hfalse => absurd hfalse Bool.noConfusion

theorem drains_wire :
    Drains step (fun s => s.Open i ∧ (s.conn i).tx.unsent.length = 0) (Event.returnsByte i) events
      (fun s => (s.conn i).wire.length) where
  keeps := fun s e he h => by
    refine ⟨h.1.step (hquiet e he), ?_⟩
    have hunsent := (Conn.after_length (h.1.ok.conn i).tx
      (decide (s.clientsRecv.head? = some i)) (hquiet e he)).1
    rw [step_conn]
    omega
  le := fun s e he h => by
    have hlength := (Conn.after_length (h.1.ok.conn i).tx
      (decide (s.clientsRecv.head? = some i)) (hquiet e he)).2
    rw [step_conn]
    omega
  lt := fun s e _ h hreturns hwire => by
    rw [step_conn]
    exact (Conn.after_returnsByte (h.1.ok.conn i) ((h.1.ok.conn i).event h.1.closed) _ hreturns
      hwire).1

theorem run_sent (s : Service ι) : ((run s events).conn i).sent = (s.conn i).sent := by
  induction events generalizing s with
  | nil => rfl
  | cons event events ih =>
    have hfirst : ((step s event).conn i).sent = (s.conn i).sent := by
      rw [step_conn]
      exact (Conn.after_quiet _ _ (hquiet event mem_cons_self)).2
    rw [← hfirst]
    exact ih (fun e he => hquiet e (mem_cons_of_mem _ he)) (step s event)

omit hquiet

theorem Conn.Ok.received_eq (h : c.Ok) (hunsent : c.tx.unsent = []) (hwire : c.wire = []) :
    c.received = c.sent := by
  obtain ⟨pending, read, hc⟩ := h
  have hstream := hc.stream
  rw [hunsent, hwire, append_nil, append_nil] at hstream
  have hsent := hc.sent
  cases hpending : pending with
  | nil =>
    rw [hpending, append_nil] at hsent
    exact hsent.symm
  | cons m pending' =>
    have hstarted := hc.started
    rw [hpending, messagesBytes_cons] at hstream
    rw [hpending, hstream] at hstarted
    change (m.bytes ++ messagesBytes pending').length < m.bytes.length at hstarted
    rw [length_append] at hstarted
    omega

theorem Service.Open.arrives (h : s.Open i) {events' : List (Event ι)}
    (hquiet : ∀ e ∈ events ++ events', e.Quiet i)
    (hwrites : (s.conn i).tx.unsent.length ≤ events.countP (Event.takesByte i))
    (hreads : (s.conn i).wire.length + (s.conn i).tx.unsent.length ≤
      events'.countP (Event.returnsByte i)) :
    ((run s (events ++ events')).conn i).received = (s.conn i).sent := by
  have hbefore : ∀ e ∈ events, e.Quiet i := fun e he => hquiet e (mem_append_left _ he)
  have hbehind : ∀ e ∈ events', e.Quiet i := fun e he => hquiet e (mem_append_right _ he)
  have hopen : (run s events).Open i := (drains_unsent hbefore).inv h
  have hunsent : ((run s events).conn i).tx.unsent.length = 0 :=
    (drains_unsent hbefore).run h hwrites
  have hbytes : ((run s events).conn i).wire.length + ((run s events).conn i).tx.unsent.length ≤
      (s.conn i).wire.length + (s.conn i).tx.unsent.length :=
    Nat.le_trans ((drains_bytes hbefore).measure_le h) (Nat.sub_le _ _)
  have hrun : run s (events ++ events') = run (run s events) events' := foldl_append
  rw [hrun, ← run_sent hbefore s, ← run_sent hbehind]
  have hend := (drains_wire hbehind).inv ⟨hopen, hunsent⟩
  apply (hend.1.ok.conn i).received_eq
  · exact length_eq_zero_iff.mp hend.2
  · apply length_eq_zero_iff.mp
    exact (drains_wire hbehind).run ⟨hopen, hunsent⟩ (by omega)

theorem Conn.after_ended (hclosed : c.closed = true) (first : Bool) (event : Event ι) :
    (c.after i first event).closed = true ∧
      (c.after i first event).wire.length ≤ c.wire.length ∧
      ((c.after i first event).rx.event = true → c.rx.event = true) := by
  have hself : c.closed = true ∧ c.wire.length ≤ c.wire.length ∧
      (c.rx.event = true → c.rx.event = true) := ⟨hclosed, Nat.le_refl _, id⟩
  cases event with
  | send j m results | write j results =>
    rw [after, if_neg (by simp [hclosed])]
    exact hself
  | read j results =>
    obtain ⟨-, hsame, -, hwire, hevent⟩ := c.read_eq results
    rw [after]
    split_ifs
    · rw [hsame, hwire, hevent, Bool.and_eq_true]
      exact ⟨hclosed, ipcClientReadLoop_wire_le _ _ _ _ _, fun h => h.2⟩
    · exact hself
  | close j =>
    rw [after]
    split_ifs
    · exact ⟨rfl, hself.2⟩
    · exact hself
  | recv =>
    obtain ⟨-, hwire, hsame, -, hevent, -⟩ := c.taken_eq
    rw [after]
    split_ifs
    · rw [hwire, hsame, hevent]
      exact hself
    · exact hself

theorem Conn.after_noticed (h : c.Ok) (hclosed : c.closed = true) (hevent : c.rx.event = true)
    (hwire : c.wire = []) (first : Bool) {event : Event ι} (hreturns : event.returnsByte i = true) :
    (c.after i first event).rx.event = false := by
  obtain ⟨pending, read, hc⟩ := h
  cases event with
  | read j results =>
    rw [Event.returnsByte, Bool.and_eq_true, decide_eq_true_eq] at hreturns
    obtain ⟨-, -, -, -, hevent'⟩ := c.read_eq results
    rw [after, if_pos ⟨hreturns.1, hevent⟩, hevent', hclosed, hwire,
      ipcClientRead_closed (hc.reading hevent).2 hreturns.2, Bool.false_and]
  | send | write | close | recv => exact absurd hreturns Bool.noConfusion

def Conn.toRead (c : Conn) : ℕ := c.wire.length + c.rx.event.toNat

theorem Conn.after_toRead (hclosed : c.closed = true) (first : Bool) (event : Event ι) :
    (c.after i first event).toRead ≤ c.toRead := by
  obtain ⟨-, hwire, hevent⟩ := Conn.after_ended hclosed first event
  apply Nat.add_le_add hwire
  cases hafter : (c.after i first event).rx.event with
  | false => exact Nat.zero_le _
  | true => rw [hevent hafter]

theorem Conn.after_toRead_lt (h : c.Ok) (hclosed : c.closed = true) (first : Bool) {event : Event ι}
    (hreturns : event.returnsByte i = true) (hleft : 0 < c.toRead) :
    (c.after i first event).toRead < c.toRead := by
  have hwire := (Conn.after_ended (i := i) hclosed first event).2.1
  cases hevent : c.rx.event with
  | false =>
    obtain ⟨pending, read, hc⟩ := h
    rw [toRead, hevent, (hc.finished hevent).2] at hleft
    exact absurd hleft (Nat.lt_irrefl 0)
  | true =>
    by_cases hnil : c.wire = []
    · rw [hnil, length_nil] at hwire
      rw [toRead, toRead, hevent, hnil, Conn.after_noticed h hclosed hevent hnil first hreturns]
      exact Nat.lt_of_le_of_lt hwire Nat.zero_lt_one
    · have hless := (Conn.after_returnsByte h hevent first hreturns
        (length_pos_iff.mpr hnil)).1
      rw [toRead, toRead, hevent]
      exact Nat.add_lt_add_of_lt_of_le hless (Bool.toNat_le _)

theorem drains_toRead (i : ι) (events : List (Event ι)) :
    Drains step (fun s => s.Ok ∧ (s.conn i).closed = true) (Event.returnsByte i) events
      (fun s => (s.conn i).toRead) where
  keeps := fun s e _ h => by
    refine ⟨h.1.step e, ?_⟩
    rw [step_conn]
    exact (Conn.after_ended h.2 _ e).1
  le := fun s e _ h => by
    rw [step_conn]
    exact Conn.after_toRead h.2 _ e
  lt := fun s e _ h hreturns hleft => by
    rw [step_conn]
    exact Conn.after_toRead_lt (h.1.conn i) h.2 _ hreturns hleft

theorem closing_noticed (h : s.Ok) (hclosed : (s.conn i).closed = true)
    (hreads : (s.conn i).wire.length < events.countP (Event.returnsByte i)) :
    ((run s events).conn i).rx.event = false := by
  have hleft : (s.conn i).toRead ≤ events.countP (Event.returnsByte i) :=
    Nat.le_trans (Nat.add_le_add_left (Bool.toNat_le _) _) hreads
  have hend : ((run s events).conn i).toRead = 0 := (drains_toRead i events).run ⟨h, hclosed⟩ hleft
  cases hevent : ((run s events).conn i).rx.event with
  | false => rfl
  | true =>
    rw [Conn.toRead, hevent] at hend
    exact absurd hend (Nat.succ_ne_zero _)

def Service.toGive (s : Service ι) : ℕ :=
  (s.clientsRecv.map fun i => (s.conn i).rx.queue.length + 1).sum

omit [DecidableEq ι] in
theorem Service.toGive_congr {s' : Service ι} (hclients : s'.clientsRecv = s.clientsRecv)
    (hqueue : ∀ i ∈ s.clientsRecv, (s'.conn i).rx.queue = (s.conn i).rx.queue) :
    s'.toGive = s.toGive := by
  rw [toGive, toGive, hclients]
  exact congrArg List.sum (map_congr_left fun i hi => by rw [hqueue i hi])

theorem ipcServicePushClient_queue (s : Service ι) (i j : ι) :
    ((ipcServicePushClient s i).conn j).rx.queue = (s.conn j).rx.queue := by
  rw [ipcServicePushClient_conn]
  by_cases hj : j = i
  · obtain ⟨queued, hpushed⟩ := (s.conn i).pushed_eq
    rw [hj, update_self, hpushed]
  · rw [update_of_ne hj]

theorem ipcServicePushClient_clientsRecv (s : Service ι) (i : ι) :
    (ipcServicePushClient s i).clientsRecv = s.clientsRecv ∨
      (ipcServicePushClient s i).clientsRecv = s.clientsRecv ++ [i] := by
  simp only [ipcServicePushClient]
  split_ifs
  · exact Or.inl rfl
  · exact Or.inl rfl
  · exact Or.inr rfl

theorem toGive_push (s : Service ι) (i : ι) :
    (ipcServicePushClient s i).toGive ≤ s.toGive + ((s.conn i).rx.queue.length + 1) := by
  have hqueue := ipcServicePushClient_queue s i
  rcases ipcServicePushClient_clientsRecv s i with hsame | hpushed
  · rw [Service.toGive_congr hsame fun j _ => hqueue j]
    exact Nat.le_add_right _ _
  · simp only [Service.toGive, hqueue, hpushed, map_append, sum_append, map_cons,
      map_nil, sum_singleton]
    exact Nat.le_refl _

omit [DecidableEq ι] in
theorem toGive_eq_zero (h : s.toGive = 0) : s.clientsRecv = [] := by
  cases hclients : s.clientsRecv with
  | nil => rfl
  | cons i rest =>
    rw [Service.toGive, hclients, map_cons, sum_cons] at h
    omega

theorem toGive_recv (h : s.QueueOk) (hleft : 0 < s.toGive) :
    (zbxIpcServiceRecv s).toGive < s.toGive := by
  cases hclients : s.clientsRecv with
  | nil =>
    rw [Service.toGive, hclients] at hleft
    exact absurd hleft (Nat.lt_irrefl 0)
  | cons i rest =>
    have hnodup := h.nodup
    rw [hclients, nodup_cons] at hnodup
    -- the other clients in the queue are as before
    have hrest : ∀ c : Conn, Service.toGive ⟨update s.conn i c, rest⟩ =
        Service.toGive ⟨s.conn, rest⟩ := fun c =>
      Service.toGive_congr rfl fun j (hj : j ∈ rest) => by
        have hne : j ≠ i := fun hji => hnodup.1 (hji ▸ hj)
        change (update s.conn i c j).rx.queue = (s.conn j).rx.queue
        rw [update_of_ne hne]
    have htotal : s.toGive = (s.conn i).rx.queue.length + 1 + Service.toGive ⟨s.conn, rest⟩ := by
      rw [Service.toGive, hclients]
      rfl
    rw [zbxIpcServiceRecv_first hclients, htotal]
    cases hqueue : (s.conn i).rx.queue with
    | nil =>
      change Service.toGive _ < _
      rw [hrest]
      omega
    | cons message queue =>
      have hpush := toGive_push
        ⟨update s.conn i ((s.conn i).gave message queue), rest⟩ i
      have hlength : (update s.conn i ((s.conn i).gave message queue) i).rx.queue = queue := by
        rw [update_self]
        rfl
      simp only [hrest, hlength] at hpush
      rw [length_cons]
      change (ipcServicePushClient _ i).toGive < _
      omega

theorem drains_toGive (n : ℕ) :
    Drains step Service.Ok (fun _ => true) (replicate n (.recv : Event ι))
      Service.toGive where
  keeps := fun _ e _ h => h.step e
  le := fun s e he h => by
    rw [eq_of_mem_replicate he]
    rcases Nat.eq_zero_or_pos s.toGive with hzero | hleft
    · have hclients : s.clientsRecv = [] := toGive_eq_zero hzero
      rw [step, zbxIpcServiceRecv, hclients]
    · exact Nat.le_of_lt (toGive_recv h.queue hleft)
  lt := fun s e he h _ hleft => by
    rw [eq_of_mem_replicate he]
    exact toGive_recv h.queue hleft

theorem run_recv (n : ℕ) (s : Service ι) (i : ι) :
    ((run s (replicate n .recv)).conn i).received = (s.conn i).received ∧
      ((run s (replicate n .recv)).conn i).rx.event = (s.conn i).rx.event := by
  induction n generalizing s with
  | zero => exact ⟨rfl, rfl⟩
  | succ n ih =>
    obtain ⟨hreceived, hevent⟩ := ih (step s .recv)
    have hstep : ((step s .recv).conn i).received = (s.conn i).received ∧
        ((step s .recv).conn i).rx.event = (s.conn i).rx.event := by
      obtain ⟨-, -, -, -, hevent, hreceived⟩ := (s.conn i).taken_eq
      rw [step_conn, Conn.after]
      split_ifs
      · exact ⟨hreceived, hevent⟩
      · exact ⟨rfl, rfl⟩
    exact ⟨hreceived.trans hstep.1, hevent.trans hstep.2⟩

theorem Conn.Ok.given_eq (h : c.Ok) (hqueued : ¬c.rx.queued = true) :
    c.given = c.received.map some ++ if c.rx.event then [] else [none] := by
  obtain ⟨pending, read, hc⟩ := h
  rw [hc.queued, Waiting, not_or, not_not, not_and, not_not] at hqueued
  obtain ⟨hqueue, hreported⟩ := hqueued
  rw [received, hqueue, append_nil]
  cases hevent : c.rx.event with
  | false => exact (hc.report (hreported hevent)).2.2
  | true =>
    have hnone : none ∉ c.given := fun hmem =>
      absurd (hevent.symm.trans (hc.report hmem).1) (by decide)
    rw [hc.messages hnone]
    simp

theorem recv_gives (h : s.Ok) {n : ℕ} (hn : s.toGive ≤ n) (i : ι) :
    ((run s (replicate n .recv)).conn i).given =
      (s.conn i).received.map some ++ if (s.conn i).rx.event then [] else [none] := by
  have hcount : s.toGive ≤ (replicate n (.recv : Event ι)).countP fun _ => true := by simpa using hn
  have hend : (run s (replicate n .recv)).toGive = 0 := (drains_toGive n).run h hcount
  have hok : (run s (replicate n .recv)).Ok := h.run _
  have hqueued : ¬((run s (replicate n .recv)).conn i).rx.queued = true := by
    rw [← hok.queue.queued i, toGive_eq_zero hend]
    exact not_mem_nil
  obtain ⟨hreceived, hevent⟩ := run_recv n s i
  rw [(hok.conn i).given_eq hqueued, hreceived, hevent]

structure Delivery (s : Service ι) (i : ι) : Prop where
  /-- What is received is what was sent first. -/
  order : (s.conn i).received <+: (s.conn i).sent
  /-- All is received when no byte is on its way. -/
  complete : (s.conn i).tx.unsent = [] → (s.conn i).wire = [] →
    (s.conn i).received = (s.conn i).sent
  /-- The caller gets what is received in this order, and the closing once behind all of it. -/
  given : (s.conn i).given = (s.conn i).handed.map some ∨
    (s.conn i).given = (s.conn i).received.map some ++ [none] ∧ (s.conn i).closed = true ∧
      (s.conn i).wire = []
  /-- Sockets that move bytes bring all messages. -/
  arrives : (s.conn i).closed = false → ∀ events events' : List (Event ι),
    (∀ e ∈ events ++ events', e.Quiet i) →
    (s.conn i).tx.unsent.length ≤ events.countP (Event.takesByte i) →
    (s.conn i).wire.length + (s.conn i).tx.unsent.length ≤
      events'.countP (Event.returnsByte i) →
    ((run s (events ++ events')).conn i).received = (s.conn i).sent
  /-- The closing is noticed. -/
  noticed : (s.conn i).closed = true → ∀ events : List (Event ι),
    (s.conn i).wire.length < events.countP (Event.returnsByte i) →
    ((run s events).conn i).rx.event = false
  /-- Calls of `zbx_ipc_service_recv` give all that is received, and the closing. -/
  gives : ∀ n, s.toGive ≤ n →
    ((run s (replicate n .recv)).conn i).given =
      (s.conn i).received.map some ++ if (s.conn i).rx.event then [] else [none]

theorem zbx_ipc_delivery (events : List (Event ι)) (i : ι) :
    Delivery (run (newService ι) events) i := by
  have hok : (run (newService ι) events).Ok := Service.ok_new.run events
  have hconn := hok.conn i
  refine
    { order := ?_
      complete := hconn.received_eq
      given := ?_
      arrives := fun hopen es es' hquiet hwrites hreads =>
        Service.Open.arrives ⟨hok, hopen⟩ hquiet hwrites hreads
      noticed := fun hclosed es hreads => closing_noticed hok hclosed hreads
      gives := fun n hn => recv_gives hok hn i }
  · obtain ⟨pending, read, hc⟩ := hconn
    exact ⟨pending, hc.sent.symm⟩
  · obtain ⟨pending, read, hc⟩ := hconn
    by_cases hnone : none ∈ ((run (newService ι) events).conn i).given
    · obtain ⟨hevent, hqueue, hgiven⟩ := hc.report hnone
      right
      rw [Conn.received, hqueue, append_nil]
      exact ⟨hgiven, hc.finished hevent⟩
    · exact Or.inl (hc.messages hnone)

end Delivery

end Zabbix.Ipc
