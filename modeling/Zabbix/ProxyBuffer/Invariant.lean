import Zabbix.ProxyBuffer.Reader

/-!
# Row ids across the memory list, the table and the pending inserts

`Stored` is what holds of the ids in every run: no id is above the counter and a row that is
not yet closed, in memory or in the table is in one of these places only.
-/

namespace Zabbix.ProxyBuffer

open List

variable {m : ℕ} {w : World} {x y : PbHistory} {rows₀ : List PbHistory} {r : Reader}

def Sender.Within (n : ℕ) : Sender → Prop
  | .reading r | .gap r | .waiting r _ =>
    r.lastid ≤ n ∧ r.gapid ≤ n ∧ ∀ x ∈ r.batch ++ r.rows, x.id ≤ n
  | .uploading b | .acking b _ => b.lastid ≤ n ∧ ∀ x ∈ b.rows, x.id ≤ n
  | _ => True

structure IdBound (w : World) (n : ℕ) : Prop where
  history : ∀ x ∈ w.pb.history, x.id ≤ n
  table : ∀ x ∈ w.db.proxyHistory, x.id ≤ n
  pending : ∀ h, ∀ x ∈ (w.handles h).pending, x.id ≤ n
  acked : ∀ i ∈ w.acked, i ≤ n
  sent : w.pb.historyLastidSent ≤ n
  lastid : w.db.historyLastid ≤ n
  sender : w.sender.Within n

structure Unused (w : World) (x : PbHistory) : Prop where
  history : ∀ y ∈ w.pb.history, x.id ≠ y.id
  table : ∀ y ∈ w.db.proxyHistory, x.id ≠ y.id
  pending : ∀ h, ∀ y ∈ (w.handles h).pending, x.id ≠ y.id

structure Distinct (w : World) : Prop where
  history_table : ∀ x ∈ w.pb.history, ∀ y ∈ w.db.proxyHistory, x.id ≠ y.id
  history_pending : ∀ x ∈ w.pb.history, ∀ h, ∀ y ∈ (w.handles h).pending, x.id ≠ y.id
  pending_table : ∀ h, ∀ x ∈ (w.handles h).pending, ∀ y ∈ w.db.proxyHistory, x.id ≠ y.id
  pending_pending : ∀ h k, h ≠ k → ∀ x ∈ (w.handles h).pending,
    ∀ y ∈ (w.handles k).pending, x.id ≠ y.id

structure Stored (w : World) (n : ℕ) : Prop where
  registered : Registered w
  bound : IdBound w n
  distinct : Distinct w
  history_ascending : Ascending w.pb.history
  history_pos : ∀ x ∈ w.pb.history, 0 < x.id
  pending_ascending : ∀ h, Ascending (w.handles h).pending
  database_empty : w.pb.state = .database → w.pb.history = []

variable {s : Sender}

theorem Sender.Within.mono {n : ℕ} (hnm : n ≤ m) (h : s.Within n) : s.Within m := by
  cases s with
  | reading r
  | gap r
  | waiting r k => exact ⟨h.1.trans hnm, h.2.1.trans hnm, fun x hx => (h.2.2 x hx).trans hnm⟩
  | uploading b | acking b source => exact ⟨h.1.trans hnm, fun x hx => (h.2 x hx).trans hnm⟩
  | idle => trivial
  | dbSource offset => trivial
  | uploaded b => trivial

theorem IdBound.mono {n : ℕ} (hnm : n ≤ m) (h : IdBound w n) : IdBound w m where
  history x hx := (h.history x hx).trans hnm
  table x hx := (h.table x hx).trans hnm
  pending k x hx := (h.pending k x hx).trans hnm
  acked i hi := (h.acked i hi).trans hnm
  sent := h.sent.trans hnm
  lastid := h.lastid.trans hnm
  sender := h.sender.mono hnm

theorem IdBound.unused {n : ℕ} (h : IdBound w n) (hx : n < x.id) :
    Unused w x where
  history y hy := by
    have := h.history y hy
    omega
  table y hy := by
    have := h.table y hy
    omega
  pending k y hy := by
    have := h.pending k y hy
    omega

theorem Stored.mono {n : ℕ} (hnm : n ≤ m) (h : Stored w n) : Stored w m :=
  { h with bound := h.bound.mono hnm }

theorem pending_update (handles : ℕ → Handle) (h : ℕ) (hd : Handle) (k : ℕ) :
    (Function.update handles h hd k).pending =
      if k = h then hd.pending else (handles k).pending := by
  by_cases hk : k = h <;> simp [Function.update, hk]

theorem Stored.update {n : ℕ} (hw : Stored w n) (h : ℕ) (hd : Handle) (pb : Pb) (nextid : ℕ)
    (finished : List PbHistory) (hhistory : pb.history = w.pb.history)
    (hstate : pb.state = w.pb.state) (hsent : pb.historyLastidSent = w.pb.historyLastidSent)
    (hreg : Registered { w with pb := pb, handles := Function.update w.handles h hd })
    (hasc : Ascending hd.pending) (hle : ∀ x ∈ hd.pending, x.id ≤ n)
    (hnew : ∀ x ∈ hd.pending, x ∈ (w.handles h).pending ∨ Unused w x) :
    Stored { w with
      pb := pb
      nextid := nextid
      handles := Function.update w.handles h hd
      finished := finished } n where
  registered := ⟨hreg.nodup, hreg.issued, hreg.listed, hreg.counted⟩
  bound :=
    { history := hhistory ▸ hw.bound.history
      table := hw.bound.table
      pending := by
        intro k x hx
        rw [pending_update] at hx
        split_ifs at hx with hk
        · exact hle x hx
        · exact hw.bound.pending k x hx
      acked := hw.bound.acked
      sent := hsent ▸ hw.bound.sent
      lastid := hw.bound.lastid
      sender := hw.bound.sender }
  distinct :=
    { history_table := hhistory ▸ hw.distinct.history_table
      history_pending := by
        intro x hx k y hy
        rw [hhistory] at hx
        rw [pending_update] at hy
        split_ifs at hy with hk
        · rcases hnew y hy with hold | hunused
          · exact hw.distinct.history_pending x hx h y hold
          · exact (hunused.history x hx).symm
        · exact hw.distinct.history_pending x hx k y hy
      pending_table := by
        intro k x hx y hy
        rw [pending_update] at hx
        split_ifs at hx with hk
        · rcases hnew x hx with hold | hunused
          · exact hw.distinct.pending_table h x hold y hy
          · exact hunused.table y hy
        · exact hw.distinct.pending_table k x hx y hy
      pending_pending := by
        intro k l hkl x hx y hy
        rw [pending_update] at hx hy
        split_ifs at hx hy with hk hl hl
        · exact absurd (hk.trans hl.symm) hkl
        · rcases hnew x hx with hold | hunused
          · exact hw.distinct.pending_pending h l (hk ▸ hkl) x hold y hy
          · exact hunused.pending l y hy
        · rcases hnew y hy with hold | hunused
          · exact hw.distinct.pending_pending k h (hl ▸ hkl) x hx y hold
          · exact (hunused.pending k x hx).symm
        · exact hw.distinct.pending_pending k l hkl x hx y hy }
  history_ascending := hhistory ▸ hw.history_ascending
  history_pos := hhistory ▸ hw.history_pos
  pending_ascending := by
    intro k
    rw [pending_update]
    split_ifs
    · exact hasc
    · exact hw.pending_ascending k
  database_empty := by
    intro hdb
    rw [hhistory]
    exact hw.database_empty (hstate ▸ hdb)

theorem Registered.same {w' : World} (h : Registered w) (hhandles : w'.handles = w.handles)
    (hids : w'.pb.historyHandleids = w.pb.historyHandleids) (hid : w'.pb.handleid = w.pb.handleid)
    (hnum : w'.pb.dbHandlesNum = w.pb.dbHandlesNum) : Registered w' where
  nodup := hids ▸ h.nodup
  issued := by rw [hids, hid]; exact h.issued
  listed := by rw [hids, hhandles]; exact h.listed
  counted := by rw [hids, hnum, hhandles]; exact h.counted

theorem Stored.frame {w' : World} {n : ℕ} (hw : Stored w n) (hreg : Registered w')
    (hsub : Sublist w'.pb.history w.pb.history)
    (htable : w'.db.proxyHistory = w.db.proxyHistory) (hhandles : w'.handles = w.handles)
    (hacked : ∀ i ∈ w'.acked, i ≤ n) (hsent : w'.pb.historyLastidSent ≤ n)
    (hlastid : w'.db.historyLastid ≤ n) (hsender : w'.sender.Within n)
    (hstate : w'.pb.state = .database → w.pb.history = []) : Stored w' n where
  registered := hreg
  bound :=
    { history := fun x hx => hw.bound.history x (hsub.mem hx)
      table := htable ▸ hw.bound.table
      pending := hhandles ▸ hw.bound.pending
      acked := hacked
      sent := hsent
      lastid := hlastid
      sender := hsender }
  distinct :=
    { history_table := fun x hx => htable ▸ hw.distinct.history_table x (hsub.mem hx)
      history_pending := fun x hx => hhandles ▸ hw.distinct.history_pending x (hsub.mem hx)
      pending_table := by rw [hhandles, htable]; exact hw.distinct.pending_table
      pending_pending := hhandles ▸ hw.distinct.pending_pending }
  history_ascending := hw.history_ascending.sublist hsub
  history_pos := fun x hx => hw.history_pos x (hsub.mem hx)
  pending_ascending := hhandles ▸ hw.pending_ascending
  database_empty := fun hdb => sublist_nil.mp (hstate hdb ▸ hsub)

theorem Stored.shrink {n : ℕ} (hw : Stored w n) {history : List PbHistory}
    (hsub : Sublist history w.pb.history) (dropped : List ℕ) :
    Stored { w with pb := { w.pb with history := history }, dropped := dropped } n :=
  hw.frame (hw.registered.same rfl rfl rfl rfl) hsub rfl rfl hw.bound.acked hw.bound.sent
    hw.bound.lastid hw.bound.sender hw.database_empty

theorem freshRows_sublist (pb : Pb) (now : ℤ) : Sublist (freshRows pb now) pb.history :=
  dropWhile_sublist _

theorem Stored.dropAged {n : ℕ} (hw : Stored w n) (now : ℤ) : Stored (dropAged w now) n :=
  hw.shrink (freshRows_sublist w.pb now) _

/-- `closeToMemory` after `pb_history_add_rows_mem`. -/
def addToMemory (w : World) (rows : List PbHistory) (fit : ℕ) : World :=
  { w with pb := (pbHistoryAddRowsMem w.pb rows fit).1 }

theorem Stored.addToMemory {n : ℕ} (hw : Stored w n) {rows : List PbHistory} (fit : ℕ)
    (hasc : Ascending rows) (hle : ∀ x ∈ rows, x.id ≤ n) (hnew : ∀ x ∈ rows, Unused w x)
    (hpos : ∀ x ∈ rows, 0 < x.id) (hlt : ∀ x ∈ w.pb.history, ∀ y ∈ rows, x.id < y.id)
    (hstate : w.pb.state ≠ .database) : Stored (addToMemory w rows fit) n where
  registered := ⟨hw.registered.nodup, hw.registered.issued, hw.registered.listed,
    hw.registered.counted⟩
  bound :=
    { history := by
        intro x hx
        rcases mem_append.mp hx with hold | hadd
        · exact hw.bound.history x hold
        · exact hle x (mem_of_mem_take hadd)
      table := hw.bound.table
      pending := hw.bound.pending
      acked := hw.bound.acked
      sent := hw.bound.sent
      lastid := hw.bound.lastid
      sender := hw.bound.sender }
  distinct :=
    { history_table := by
        intro x hx y hy
        rcases mem_append.mp hx with hold | hadd
        · exact hw.distinct.history_table x hold y hy
        · exact (hnew x (mem_of_mem_take hadd)).table y hy
      history_pending := by
        intro x hx k y hy
        rcases mem_append.mp hx with hold | hadd
        · exact hw.distinct.history_pending x hold k y hy
        · exact (hnew x (mem_of_mem_take hadd)).pending k y hy
      pending_table := hw.distinct.pending_table
      pending_pending := hw.distinct.pending_pending }
  history_ascending :=
    hw.history_ascending.append (hasc.sublist (take_sublist _ _))
      fun x hx y hy => hlt x hx y (mem_of_mem_take hy)
  history_pos := by
    intro x hx
    rcases mem_append.mp hx with hold | hadd
    · exact hw.history_pos x hold
    · exact hpos x (mem_of_mem_take hadd)
  pending_ascending := hw.pending_ascending
  database_empty := fun hdb => absurd hdb hstate

theorem Unused.addToMemory {rows : List PbHistory} {fit : ℕ} (hasc : Ascending rows)
    (hnew : Unused w y) (hy : y ∈ rows.drop fit) :
    Unused (addToMemory w rows fit) y where
  history x hx := by
    rcases mem_append.mp hx with hold | hadd
    · exact hnew.history x hold
    · have := hasc.take_lt_drop fit hadd hy
      omega
  table := hnew.table
  pending := hnew.pending

theorem Unused.dropAged (hnew : Unused w y) (now : ℤ) :
    Unused (dropAged w now) y where
  history x hx := hnew.history x ((freshRows_sublist w.pb now).mem hx)
  table := hnew.table
  pending := hnew.pending

/-! What a fallback leaves in memory, in the table and as the last sent id. -/

@[simp] theorem fallback_pb (w : World) (others : Bool) :
    (fallback w others).pb.state = .database ∧ (fallback w others).pb.history = [] ∧
      (fallback w others).pb.historyLastidSent = w.pb.historyLastidSent ∧
      (fallback w others).pb.dbHandlesNum = w.pb.dbHandlesNum ∧
      (fallback w others).pb.historyHandleids = w.pb.historyHandleids ∧
      (fallback w others).pb.handleid = w.pb.handleid := by
  unfold fallback pdFallbackToDatabase pbFlush
  split <;> exact ⟨rfl, rfl, rfl, rfl, rfl, rfl⟩

@[simp] theorem fallback_table (w : World) (others : Bool) :
    (fallback w others).db.proxyHistory = w.db.proxyHistory ++ w.pb.history := by
  unfold fallback pdFallbackToDatabase pbFlush
  split
  · rfl
  · rename_i hnone
    have hnil : w.pb.history = [] := by
      by_contra hne
      exact hnone (.inl hne)
    simp [hnil]

@[simp] theorem fallback_handles (w : World) (others : Bool) :
    (fallback w others).handles = w.handles := rfl

theorem fallback_lastid (w : World) (others : Bool) :
    ((fallback w others).db.historyLastid = w.db.historyLastid ∧
        (w.pb.history = [] ∨ w.pb.historyLastidSent = 0)) ∨
      w.pb.historyLastidSent ≠ 0 ∧
        (fallback w others).db.historyLastid = w.pb.historyLastidSent := by
  unfold fallback pdFallbackToDatabase pbFlush
  split
  · by_cases hsent : w.pb.historyLastidSent = 0
    · exact .inl ⟨by simp [hsent], .inr hsent⟩
    · exact .inr ⟨hsent, by simp [hsent]⟩
  · rename_i hnone
    refine .inl ⟨rfl, .inl ?_⟩
    by_contra hne
    exact hnone (.inl hne)

theorem le_fallback_historyLastidDb (w : World) (others : Bool) :
    w.pb.historyLastidDb ≤ (fallback w others).pb.historyLastidDb := by
  unfold fallback pdFallbackToDatabase pbFlush
  split
  · exact le_max_left _ _
  · exact le_rfl

theorem Ascending.le_fallback_historyLastidDb (h : Ascending w.pb.history) (others : Bool)
    (hx : x ∈ w.pb.history) :
    x.id ≤ (fallback w others).pb.historyLastidDb := by
  have hne : w.pb.history ≠ [] := ne_nil_of_mem hx
  unfold fallback pdFallbackToDatabase pbFlush
  rw [if_pos (.inl hne)]
  exact (le_lastRowId h hx).trans (le_max_right _ _)

theorem Stored.fallback {n : ℕ} (hw : Stored w n) (others : Bool) :
    Stored (fallback w others) n where
  registered :=
    { nodup := by simpa using hw.registered.nodup
      issued := by simpa using hw.registered.issued
      listed := by simpa using hw.registered.listed
      counted := by simpa using hw.registered.counted }
  bound :=
    { history := by simp
      table := by
        intro x hx
        rw [fallback_table, mem_append] at hx
        exact hx.elim (hw.bound.table x) (hw.bound.history x)
      pending := hw.bound.pending
      acked := hw.bound.acked
      sent := by simpa using hw.bound.sent
      lastid := by
        rcases fallback_lastid w others with ⟨hlast, _⟩ | ⟨_, hlast⟩
        · exact hlast ▸ hw.bound.lastid
        · exact hlast ▸ hw.bound.sent
      sender := hw.bound.sender }
  distinct :=
    { history_table := by simp
      history_pending := by simp
      pending_table := by
        intro k x hx y hy
        rw [fallback_table, mem_append] at hy
        rcases hy with htable | hhistory
        · exact hw.distinct.pending_table k x hx y htable
        · exact (hw.distinct.history_pending y hhistory k x hx).symm
      pending_pending := hw.distinct.pending_pending }
  history_ascending := by simpa using Ascending.nil
  history_pos := by simp
  pending_ascending := hw.pending_ascending
  database_empty := by simp

theorem Unused.fallback (hnew : Unused w y) (others : Bool) :
    Unused (fallback w others) y where
  history := by simp
  table := by
    intro x hx
    rw [fallback_table, mem_append] at hx
    exact hx.elim (hnew.table x) (hnew.history x)
  pending := hnew.pending

theorem Stored.commitRows {n : ℕ} (hw : Stored w n) {h : ℕ} {rows pending : List PbHistory}
    (hh : w.handles h = .inserting rows pending) :
    Stored (commitRows w h rows pending) n := by
  have hpending : (w.handles h).pending = pending := by simp [hh, Handle.pending]
  have hreg : Registered { w with
      handles := Function.update w.handles h (.committed rows (lastRowId pending)) } :=
    hw.registered.replace (by simp [hh]) (by simp [hh, Handle.usesDb])
  have hkeep := hw.update h (.committed rows (lastRowId pending)) w.pb w.nextid w.finished
    rfl rfl rfl hreg Ascending.nil (by simp [Handle.pending]) (by simp [Handle.pending])
  refine ⟨⟨hreg.nodup, hreg.issued, hreg.listed, hreg.counted⟩, ?_, ?_,
    hkeep.history_ascending, hkeep.history_pos, hkeep.pending_ascending, hkeep.database_empty⟩
  · refine { hkeep.bound with table := ?_ }
    intro x hx
    rcases mem_append.mp hx with hold | hnew
    · exact hw.bound.table x hold
    · exact hw.bound.pending h x (hpending ▸ hnew)
  · refine { hkeep.distinct with history_table := ?_, pending_table := ?_ }
    · intro x hx y hy
      rcases mem_append.mp hy with hold | hnew
      · exact hw.distinct.history_table x hx y hold
      · exact hw.distinct.history_pending x hx h y (hpending ▸ hnew)
    · intro k x hx y hy
      rcases mem_append.mp hy with hold | hnew
      · exact hkeep.distinct.pending_table k x hx y hold
      · dsimp only [ProxyBuffer.commitRows] at hx
        rw [pending_update] at hx
        split_ifs at hx with hk
        · simp [Handle.pending] at hx
        · exact hw.distinct.pending_pending k h hk x hx y (hpending ▸ hnew)

def advanceId (w : World) (k : ℕ) : World := { w with nextid := w.nextid + k }

def closedRows (w : World) (rows : List PbHistory) : List PbHistory :=
  pbHistorySetRowIds w.nextid rows

/-- The ways in which the first locked section of `zbx_pb_history_close` ends. -/
inductive ClosesTo (w : World) (h : ℕ) (rows : List PbHistory) (a : CloseArgs) : World → Prop
  | empty : rows = [] → ClosesTo w h rows a (finishClose w h [])
  | direct : rows ≠ [] → getPbDst w.pb.state = .database →
      ClosesTo w h rows a
        (startInsert (advanceId w rows.length) h (closedRows w rows) (closedRows w rows))
  | keptMemory : rows ≠ [] → w.pb.state = .memory → pbHistoryAgeOk w.pb a.now a.now' = true →
      (closedRows w rows).drop a.fit = [] →
      ClosesTo w h rows a
        (finishClose (addToMemory (dropAged (advanceId w rows.length) a.now)
          (closedRows w rows) a.fit) h (closedRows w rows))
  | keptDatabaseMemory : rows ≠ [] → w.pb.state = .databaseMemory →
      (closedRows w rows).drop a.fit = [] →
      ClosesTo w h rows a
        (finishClose (addToMemory (advanceId w rows.length) (closedRows w rows) a.fit) h
          (closedRows w rows))
  | noSpaceMemory (v : World) : rows ≠ [] → w.pb.state = .memory →
      pbHistoryAgeOk w.pb a.now a.now' = true →
      v = addToMemory (dropAged (advanceId w rows.length) a.now) (closedRows w rows) a.fit →
      ClosesTo w h rows a
        (startInsert { v with pb := pbSetState v.pb .memoryDatabase } h (closedRows w rows)
          ((closedRows w rows).drop a.fit))
  | noSpaceDatabaseMemory : rows ≠ [] → w.pb.state = .databaseMemory →
      (closedRows w rows).drop a.fit ≠ [] →
      ClosesTo w h rows a
        (startInsert
          (fallback (addToMemory (advanceId w rows.length) (closedRows w rows) a.fit) a.others)
          h (closedRows w rows) ((closedRows w rows).drop a.fit))
  | tooOld : rows ≠ [] → w.pb.state = .memory → pbHistoryAgeOk w.pb a.now a.now' = false →
      ClosesTo w h rows a
        (startInsert (fallback (dropAged (advanceId w rows.length) a.now) a.others) h
          (closedRows w rows) (closedRows w rows))

theorem closeMemoryHandle_closesTo (w : World) (h : ℕ) (rows : List PbHistory) (a : CloseArgs) :
    ClosesTo w h rows a (closeMemoryHandle w h rows a) := by
  unfold closeMemoryHandle
  dsimp only
  split_ifs with hrows hmem hage hdst
  · exact .empty hrows
  · simp only [closeToMemory]
    split_ifs with hfit hstate
    · exact .keptMemory hrows hmem hage hfit
    · exact absurd (hmem.symm.trans hstate) (by decide)
    · exact .noSpaceMemory _ hrows hmem hage rfl
  · exact .tooOld hrows hmem (by simpa using hage)
  · have hdm : w.pb.state = .databaseMemory := by
      cases hs : w.pb.state <;> simp_all [getPbDst]
    simp only [closeToMemory]
    split_ifs with hfit hstate
    · exact .keptDatabaseMemory hrows hdm hfit
    · exact .noSpaceDatabaseMemory hrows hdm hfit
    · exact absurd hdm hstate
  · have hdb : getPbDst w.pb.state = .database := by
      cases hs : w.pb.state <;> simp_all [getPbDst]
    exact .direct hrows hdb

theorem Stored.setState {n : ℕ} (hw : Stored w n) (state : PbState)
    (hstate : state = .database → w.pb.history = []) :
    Stored { w with pb := pbSetState w.pb state } n :=
  hw.frame (hw.registered.same rfl rfl rfl rfl) (.refl _) rfl rfl hw.bound.acked hw.bound.sent
    hw.bound.lastid hw.bound.sender hstate

theorem Stored.advanceId {n k : ℕ} (hw : Stored w n) : Stored (advanceId w k) n :=
  hw.frame (hw.registered.same rfl rfl rfl rfl) (.refl _) rfl rfl hw.bound.acked hw.bound.sent
    hw.bound.lastid hw.bound.sender hw.database_empty

theorem Stored.finishClose {n : ℕ} (hw : Stored w n) {h : ℕ}
    (hh : w.handles h = .opened .memory rows₀) (rows : List PbHistory) :
    Stored (finishClose w h rows) n :=
  have hreg := hw.registered.closeHandle (h := h) (by simp [hh]) w.pb.dbHandlesNum
    (by simp [hh, Handle.usesDb]) w.pb.historyLastidDb rows
  hw.update h .closed (pbDeregisterHandle w.pb h) w.nextid (w.finished ++ rows)
    rfl rfl rfl ⟨hreg.nodup, hreg.issued, hreg.listed, hreg.counted⟩
    Ascending.nil (by simp [Handle.pending]) (by simp [Handle.pending])

theorem Stored.startInsert {n : ℕ} (hw : Stored w n) {h : ℕ}
    (hh : w.handles h = .opened .memory rows₀) (rows : List PbHistory) {pending : List PbHistory}
    (hasc : Ascending pending) (hle : ∀ x ∈ pending, x.id ≤ n) (hnew : ∀ x ∈ pending, Unused w x) :
    Stored (startInsert w h rows pending) n :=
  hw.update h (.inserting rows pending) { w.pb with dbHandlesNum := w.pb.dbHandlesNum + 1 }
    w.nextid w.finished rfl rfl rfl (hw.registered.startInsert hh rows pending) hasc hle
    fun x hx => .inr (hnew x hx)

theorem Stored.closesTo {w' : World} (hw : Stored w w.nextid) {h : ℕ} {rows : List PbHistory}
    {a : CloseArgs} (hh : w.handles h = .opened .memory rows) (hclose : ClosesTo w h rows a w') :
    Stored w' (w.nextid + rows.length) := by
  have hstored : Stored (ProxyBuffer.advanceId w rows.length) (w.nextid + rows.length) :=
    hw.advanceId.mono (Nat.le_add_right _ _)
  have hasc : Ascending (closedRows w rows) := ascending_pbHistorySetRowIds _ _
  have hle : ∀ x ∈ closedRows w rows, x.id ≤ w.nextid + rows.length :=
    fun x hx => (mem_pbHistorySetRowIds hx).2
  have hgt : ∀ x ∈ closedRows w rows, w.nextid < x.id := fun x hx => (mem_pbHistorySetRowIds hx).1
  have hpos : ∀ x ∈ closedRows w rows, 0 < x.id := fun x hx => (Nat.zero_le _).trans_lt (hgt x hx)
  have hnew : ∀ x ∈ closedRows w rows, Unused (ProxyBuffer.advanceId w rows.length) x :=
    fun x hx => hw.advanceId.bound.unused (hgt x hx)
  have hlt : ∀ x ∈ w.pb.history, ∀ y ∈ closedRows w rows, x.id < y.id :=
    fun x hx y hy => (hw.bound.history x hx).trans_lt (hgt y hy)
  have hdropSub : ∀ {x}, x ∈ (closedRows w rows).drop a.fit → x ∈ closedRows w rows :=
    fun hx => mem_of_mem_drop hx
  have hdropAsc : Ascending ((closedRows w rows).drop a.fit) := hasc.sublist (drop_sublist _ _)
  cases hclose with
  | empty hrows => exact (hw.mono (Nat.le_add_right _ _)).finishClose hh []
  | direct _ _ => exact hstored.startInsert hh _ hasc hle hnew
  | keptMemory _ hstate _ _ =>
    have hadded := (hstored.dropAged a.now).addToMemory a.fit hasc hle
      (fun x hx => (hnew x hx).dropAged a.now) hpos
      (fun x hx => hlt x ((freshRows_sublist w.pb a.now).mem hx))
      (fun hdb => absurd (hstate.symm.trans hdb) (by decide))
    exact hadded.finishClose hh _
  | keptDatabaseMemory _ hstate _ =>
    have hadded := hstored.addToMemory a.fit hasc hle hnew hpos hlt
      (fun hdb => absurd (hstate.symm.trans hdb) (by decide))
    exact hadded.finishClose hh _
  | noSpaceMemory v _ hstate _ hv =>
    have hadded : Stored v (w.nextid + rows.length) := by
      rw [hv]
      exact (hstored.dropAged a.now).addToMemory a.fit hasc hle
        (fun x hx => (hnew x hx).dropAged a.now) hpos
        (fun x hx => hlt x ((freshRows_sublist w.pb a.now).mem hx))
        (fun hdb => absurd (hstate.symm.trans hdb) (by decide))
    have hunused : ∀ x ∈ (closedRows w rows).drop a.fit, Unused v x := by
      intro x hx
      rw [hv]
      exact ((hnew x (hdropSub hx)).dropAged a.now).addToMemory hasc hx
    have hhandle : v.handles h = .opened .memory rows := by rw [hv]; exact hh
    refine (hadded.setState .memoryDatabase (by simp)).startInsert hhandle _ hdropAsc
      (fun x hx => hle x (hdropSub hx)) fun x hx => ?_
    exact ⟨(hunused x hx).history, (hunused x hx).table, (hunused x hx).pending⟩
  | noSpaceDatabaseMemory _ hstate _ =>
    have hadded := hstored.addToMemory a.fit hasc hle hnew hpos hlt
      (fun hdb => absurd (hstate.symm.trans hdb) (by decide))
    have hflushed := hadded.fallback a.others
    refine hflushed.startInsert hh _ hdropAsc (fun x hx => hle x (hdropSub hx)) fun x hx => ?_
    exact ((hnew x (hdropSub hx)).addToMemory hasc hx).fallback a.others
  | tooOld _ _ _ =>
    have hflushed := (hstored.dropAged a.now).fallback a.others
    refine hflushed.startInsert hh _ hasc hle fun x hx => ?_
    exact ((hnew x hx).dropAged a.now).fallback a.others

structure Grows (n : ℕ) (F : PbHistory → Prop) (w w' : World) : Prop where
  sender : w'.sender = w.sender
  acked : w'.acked = w.acked
  sent : w'.pb.historyLastidSent = w.pb.historyLastidSent
  history : ∀ x ∈ w'.pb.history, x ∈ w.pb.history ∨ n < x.id
  pending : ∀ h, ∀ x ∈ (w'.handles h).pending, x ∈ (w.handles h).pending ∨ n < x.id
  table : ∀ x ∈ w'.db.proxyHistory, x ∈ w.db.proxyHistory ∨
    (∃ h, x ∈ (w.handles h).pending) ∨ n < x.id ∨
    (x ∈ w.pb.history ∧ F x ∧ getPbSrc w'.pb.state = .database)
  tableKept : ∀ x ∈ w.db.proxyHistory, x ∈ w'.db.proxyHistory
  source : getPbSrc w.pb.state = .database → getPbSrc w'.pb.state = .database
  handleids : ∀ h ∈ w'.pb.historyHandleids, h ∈ w.pb.historyHandleids ∨ w.pb.handleid < h
  handleid : w.pb.handleid ≤ w'.pb.handleid

variable {n : ℕ} {F : PbHistory → Prop}

theorem Grows.trans {u v : World} (h : Grows n F u v) (h' : Grows n F v w) : Grows n F u w where
  sender := h'.sender.trans h.sender
  acked := h'.acked.trans h.acked
  sent := h'.sent.trans h.sent
  history x hx := (h'.history x hx).elim (h.history x) .inr
  pending k x hx := (h'.pending k x hx).elim (h.pending k x) .inr
  table x hx := by
    rcases h'.table x hx with htable | ⟨k, hk⟩ | hnew | ⟨hhistory, hF, hsrc⟩
    · rcases h.table x htable with hold | hpend | hnew | ⟨hmem, hF, hsrc⟩
      · exact .inl hold
      · exact .inr (.inl hpend)
      · exact .inr (.inr (.inl hnew))
      · exact .inr (.inr (.inr ⟨hmem, hF, h'.source hsrc⟩))
    · exact (h.pending k x hk).elim (fun hold => .inr (.inl ⟨k, hold⟩))
        (fun hnew => .inr (.inr (.inl hnew)))
    · exact .inr (.inr (.inl hnew))
    · exact (h.history x hhistory).elim (fun hold => .inr (.inr (.inr ⟨hold, hF, hsrc⟩)))
        (fun hnew => .inr (.inr (.inl hnew)))
  tableKept x hx := h'.tableKept x (h.tableKept x hx)
  source hsrc := h'.source (h.source hsrc)
  handleids k hk := by
    rcases h'.handleids k hk with hold | hnew
    · exact h.handleids k hold
    · exact .inr (h.handleid.trans_lt hnew)
  handleid := h.handleid.trans h'.handleid

theorem Grows.update (w : World) (h : ℕ) (hd : Handle) (pb : Pb) (nextid : ℕ)
    (finished : List PbHistory) (hhistory : pb.history = w.pb.history)
    (hsent : pb.historyLastidSent = w.pb.historyLastidSent) (hstate : pb.state = w.pb.state)
    (hids : ∀ k ∈ pb.historyHandleids, k ∈ w.pb.historyHandleids ∨ w.pb.handleid < k)
    (hid : w.pb.handleid ≤ pb.handleid)
    (hnew : ∀ x ∈ hd.pending, x ∈ (w.handles h).pending ∨ n < x.id) :
    Grows n F w { w with
      pb := pb
      nextid := nextid
      handles := Function.update w.handles h hd
      finished := finished } where
  sender := rfl
  acked := rfl
  sent := hsent
  history := hhistory ▸ fun x hx => .inl hx
  pending k x hx := by
    rw [pending_update] at hx
    split_ifs at hx with hk
    · exact hk ▸ hnew x hx
    · exact .inl hx
  table x hx := .inl hx
  tableKept x hx := hx
  source := by
    intro hsrc
    rw [hstate]
    exact hsrc
  handleids := hids
  handleid := hid

theorem Grows.advanceId (w : World) (k : ℕ) : Grows n F w (advanceId w k) :=
  ⟨rfl, rfl, rfl, fun _ hx => .inl hx, fun _ _ hx => .inl hx, fun _ hx => .inl hx,
    fun _ hx => hx, fun h => h, fun _ hk => .inl hk, le_rfl⟩

theorem Grows.dropAged (w : World) (now : ℤ) : Grows n F w (dropAged w now) :=
  ⟨rfl, rfl, rfl, fun _ hx => .inl ((freshRows_sublist w.pb now).mem hx), fun _ _ hx => .inl hx,
    fun _ hx => .inl hx, fun _ hx => hx, fun h => h, fun _ hk => .inl hk, le_rfl⟩

theorem Grows.addToMemory (w : World) {rows : List PbHistory} (fit : ℕ)
    (hnew : ∀ x ∈ rows, n < x.id) : Grows n F w (addToMemory w rows fit) where
  sender := rfl
  acked := rfl
  sent := rfl
  history x hx := (mem_append.mp hx).elim .inl
    fun hadd => .inr (hnew x (mem_of_mem_take hadd))
  pending _ _ hx := .inl hx
  table _ hx := .inl hx
  tableKept _ hx := hx
  source h := h
  handleids _ hk := .inl hk
  handleid := le_rfl

theorem Grows.fallback (others : Bool) (hF : ∀ x ∈ w.pb.history, n < x.id ∨ F x) :
    Grows n F w (fallback w others) where
  sender := rfl
  acked := rfl
  sent := by simp
  history := by simp
  pending _ _ hx := .inl hx
  table x hx := by
    rw [fallback_table, mem_append] at hx
    rcases hx with htable | hhistory
    · exact .inl htable
    · rcases hF x hhistory with hgt | hFx
      · exact .inr (.inr (.inl hgt))
      · exact .inr (.inr (.inr ⟨hhistory, hFx, rfl⟩))
  tableKept x hx := by
    rw [fallback_table]
    exact mem_append_left _ hx
  source _ := rfl
  handleids k hk := .inl (by simpa using hk)
  handleid := by simp

theorem Grows.setState (w : World) (state : PbState)
    (hsrc : getPbSrc w.pb.state = .database → getPbSrc state = .database) :
    Grows n F w { w with pb := pbSetState w.pb state } :=
  ⟨rfl, rfl, rfl, fun _ hx => .inl hx, fun _ _ hx => .inl hx, fun _ hx => .inl hx,
    fun _ hx => hx, hsrc, fun _ hk => .inl hk, le_rfl⟩

theorem Grows.startInsert (w : World) (h : ℕ) (rows : List PbHistory) {pending : List PbHistory}
    (hnew : ∀ x ∈ pending, n < x.id) : Grows n F w (startInsert w h rows pending) :=
  Grows.update w h (.inserting rows pending) { w.pb with dbHandlesNum := w.pb.dbHandlesNum + 1 }
    w.nextid w.finished rfl rfl rfl (fun _ hk => .inl hk) le_rfl fun x hx => .inr (hnew x hx)

theorem Grows.finishClose (w : World) (h : ℕ) (rows : List PbHistory) :
    Grows n F w (finishClose w h rows) :=
  Grows.update w h .closed (pbDeregisterHandle w.pb h) w.nextid (w.finished ++ rows)
    rfl rfl rfl (fun _ hk => .inl (mem_of_mem_erase hk)) le_rfl (by simp [Handle.pending])

theorem Grows.commitRows {h : ℕ} {rows pending : List PbHistory}
    (hh : w.handles h = .inserting rows pending) : Grows n F w (commitRows w h rows pending) where
  sender := rfl
  acked := rfl
  sent := rfl
  history _ hx := .inl hx
  pending k x hx := by
    dsimp only [ProxyBuffer.commitRows] at hx
    rw [pending_update] at hx
    split_ifs at hx
    · simp [Handle.pending] at hx
    · exact .inl hx
  table x hx := by
    rcases mem_append.mp hx with hold | hnew
    · exact .inl hold
    · exact .inr (.inl ⟨h, by simpa [hh, Handle.pending] using hnew⟩)
  tableKept x hx := mem_append_left _ hx
  source h := h
  handleids _ hk := .inl hk
  handleid := le_rfl

/-- The rows of the memory list that closing a memory handle writes to the table when it
falls back to the database. -/
def closeFlushes (w : World) (rows : List PbHistory) (a : CloseArgs) : List PbHistory :=
  if rows = [] then []
  else
    match w.pb.state with
    | .memory => if pbHistoryAgeOk w.pb a.now a.now' then [] else freshRows w.pb a.now
    | .databaseMemory => if rows.length ≤ a.fit then [] else w.pb.history
    | _ => []

theorem Grows.closesTo {w' : World} {h : ℕ} {rows : List PbHistory} {a : CloseArgs}
    (hn : n = w.nextid) (hF : ∀ x ∈ closeFlushes w rows a, F x) (hclose : ClosesTo w h rows a w') :
    Grows n F w w' := by
  have hgt : ∀ x ∈ closedRows w rows, n < x.id := fun x hx => hn ▸ (mem_pbHistorySetRowIds hx).1
  have hadv : Grows n F w (ProxyBuffer.advanceId w rows.length) := Grows.advanceId w _
  cases hclose with
  | empty _ => exact Grows.finishClose w h []
  | direct _ _ => exact hadv.trans (Grows.startInsert _ _ _ hgt)
  | keptMemory _ _ _ _ =>
    exact ((hadv.trans (Grows.dropAged _ _)).trans (Grows.addToMemory _ _ hgt)).trans
      (Grows.finishClose _ _ _)
  | keptDatabaseMemory _ _ _ =>
    exact (hadv.trans (Grows.addToMemory _ _ hgt)).trans (Grows.finishClose _ _ _)
  | noSpaceMemory v _ hstate _ hv =>
    have hadded : Grows n F w v := by
      rw [hv]
      exact (hadv.trans (Grows.dropAged _ _)).trans (Grows.addToMemory _ _ hgt)
    have hvstate : v.pb.state = .memory := by rw [hv]; exact hstate
    refine (hadded.trans (Grows.setState v .memoryDatabase fun hsrc => ?_)).trans
      (Grows.startInsert _ _ _ fun x hx => hgt x (mem_of_mem_drop hx))
    simp [hvstate, getPbSrc] at hsrc
  | noSpaceDatabaseMemory hrows hstate hfit =>
    refine ((hadv.trans (Grows.addToMemory _ _ hgt)).trans (Grows.fallback _ ?_)).trans
      (Grows.startInsert _ _ _ fun x hx => hgt x (mem_of_mem_drop hx))
    intro x hx
    rcases mem_append.mp hx with hold | hadd
    · refine .inr (hF x ?_)
      have hlong : ¬ rows.length ≤ a.fit := by simpa [closedRows] using hfit
      unfold closeFlushes
      rw [if_neg hrows, hstate]
      have hmem : x ∈ w.pb.history := hold
      simpa [hlong] using hmem
    · exact .inl (hgt x (mem_of_mem_take hadd))
  | tooOld hrows hstate hage =>
    refine ((hadv.trans (Grows.dropAged _ _)).trans (Grows.fallback _ ?_)).trans
      (Grows.startInsert _ _ _ hgt)
    intro x hx
    refine .inr (hF x ?_)
    have hfresh : x ∈ freshRows w.pb a.now := hx
    unfold closeFlushes
    rw [if_neg hrows, hstate]
    simpa [hage] using hfresh

theorem ClosesTo.nextid {w' : World} {h : ℕ} {rows : List PbHistory} {a : CloseArgs}
    (hclose : ClosesTo w h rows a w') : w'.nextid = w.nextid + rows.length := by
  cases hclose with
  | empty hrows => simp [hrows, ProxyBuffer.finishClose]
  | direct _ _ => rfl
  | keptMemory _ _ _ _ => rfl
  | keptDatabaseMemory _ _ _ => rfl
  | noSpaceMemory v _ _ _ hv => rw [hv]; rfl
  | noSpaceDatabaseMemory _ _ _ => rfl
  | tooOld _ _ _ => rfl

def Event.ofSender : Event → Bool
  | .getRows _ _ | .getLastid | .select _ | .waitHandles | .handlesClosed | .uploadFailed
  | .uploadSucceeded | .setHistoryLastid | .setLastidDb | .updateState _ | .skipUpdate => true
  | _ => false

def flushedRows (w : World) : Event → List PbHistory
  | .closeMemory h a =>
    match w.handles h with
    | .opened .memory rows => closeFlushes w rows a
    | _ => []
  | .otherFallback _ => w.pb.history
  | _ => []

/-- What an event of the handles did, read off `step`. -/
inductive HandleStep (w : World) : Event → World → Prop
  | openHandle : HandleStep w .openHandle (zbxPbHistoryOpen w)
  | writeValue {h state rows} (row : PbHistory) : w.handles h = .opened state rows →
      HandleStep w (.writeValue h row) (zbxPbHistoryWriteValue w h state rows row)
  | closeMemory {h rows a w'} : w.handles h = .opened .memory rows → ClosesTo w h rows a w' →
      HandleStep w (.closeMemory h a) w'
  | autoincrement {h rows} : w.handles h = .opened .database rows →
      HandleStep w (.autoincrement h) (ProxyBuffer.autoincrement w h rows)
  | commit {h rows pending} : w.handles h = .inserting rows pending →
      HandleStep w (.commit h) (commitRows w h rows pending)
  | closeFinal {h rows lastid} : w.handles h = .committed rows lastid →
      HandleStep w (.closeFinal h) (ProxyBuffer.closeFinal w h rows lastid)
  | otherFallback (others : Bool) :
      w.pb.state = .databaseMemory ∨ w.pb.state = .memory ∧ others = true →
      HandleStep w (.otherFallback others) (fallback w others)
  | otherNoSpace : w.pb.state = .memory →
      HandleStep w .otherNoSpace { w with pb := pbSetState w.pb .memoryDatabase }

variable {e : Event}

theorem handleStep_of_step {w' : World} (hs : e.ofSender = false) (h : step w e = some w') :
    HandleStep w e w' := by
  cases e with
  | openHandle =>
    obtain rfl : zbxPbHistoryOpen w = w' := Option.some.inj h
    exact .openHandle
  | writeValue k row =>
    simp only [step] at h
    split at h
    · next state rows hh =>
      obtain rfl := Option.some.inj h
      exact .writeValue row hh
    · exact absurd h (by simp)
  | closeMemory k a =>
    simp only [step] at h
    split at h
    · next rows hh =>
      obtain rfl := Option.some.inj h
      exact .closeMemory hh (closeMemoryHandle_closesTo w k rows a)
    · exact absurd h (by simp)
  | autoincrement k =>
    simp only [step] at h
    split at h
    · next rows hh =>
      obtain rfl := Option.some.inj h
      exact .autoincrement hh
    · exact absurd h (by simp)
  | commit k =>
    simp only [step] at h
    split at h
    · next rows pending hh =>
      obtain rfl := Option.some.inj h
      exact .commit hh
    · exact absurd h (by simp)
  | closeFinal k =>
    simp only [step] at h
    split at h
    · next rows lastid hh =>
      obtain rfl := Option.some.inj h
      exact .closeFinal hh
    · exact absurd h (by simp)
  | otherFallback others =>
    simp only [step] at h
    split at h
    · next hstate =>
      obtain rfl := Option.some.inj h
      exact .otherFallback others hstate
    · exact absurd h (by simp)
  | otherNoSpace =>
    simp only [step] at h
    split at h
    · next hstate =>
      obtain rfl := Option.some.inj h
      exact .otherNoSpace hstate
    · exact absurd h (by simp)
  | getRows a offset
  | getLastid
  | select a
  | waitHandles
  | handlesClosed
  | uploadFailed
  | uploadSucceeded
  | setHistoryLastid
  | setLastidDb
  | updateState a
  | skipUpdate => simp [Event.ofSender] at hs

theorem zbxPbHistoryOpen_keeps (w : World) :
    (zbxPbHistoryOpen w).pb.history = w.pb.history ∧
      (zbxPbHistoryOpen w).pb.state = w.pb.state ∧
      (zbxPbHistoryOpen w).pb.historyLastidSent = w.pb.historyLastidSent ∧
      (zbxPbHistoryOpen w).pb.historyLastidDb = w.pb.historyLastidDb := by
  cases hs : w.pb.state <;> simp [zbxPbHistoryOpen, pbRegisterHandle, getPbDst, hs]

theorem Stored.openHandle {n : ℕ} (hw : Stored w n) : Stored (zbxPbHistoryOpen w) n := by
  obtain ⟨hhistory, hstate, hsent, _⟩ := zbxPbHistoryOpen_keeps w
  have hreg := hw.registered.openHandle
  exact hw.update (w.pb.handleid + 1) (.opened (getPbDst w.pb.state) [])
    (zbxPbHistoryOpen w).pb w.nextid w.finished hhistory hstate hsent
    ⟨hreg.nodup, hreg.issued, hreg.listed, hreg.counted⟩ Ascending.nil
    (by simp [Handle.pending]) (by simp [Handle.pending])

theorem Stored.replace {n : ℕ} (hw : Stored w n) {h : ℕ} (hopen : w.handles h ≠ .closed)
    {hd : Handle} (huses : hd.usesDb = (w.handles h).usesDb) {nextid : ℕ}
    (hasc : Ascending hd.pending) (hle : ∀ x ∈ hd.pending, x.id ≤ n)
    (hnew : ∀ x ∈ hd.pending, Unused w x) :
    Stored { w with nextid := nextid, handles := Function.update w.handles h hd } n :=
  hw.update h hd w.pb nextid w.finished rfl rfl rfl (hw.registered.replace hopen huses) hasc hle
    fun x hx => .inr (hnew x hx)

theorem Stored.closeFinal {n : ℕ} (hw : Stored w n) {h lastid : ℕ} {rows : List PbHistory}
    (hh : w.handles h = .committed rows lastid) :
    Stored (closeFinal w h rows lastid) n := by
  have hopen : w.handles h ≠ .closed := by simp [hh]
  have huses : (w.handles h).usesDb = true := by simp [hh, Handle.usesDb]
  have hpos : 0 < w.pb.dbHandlesNum := by
    rw [hw.registered.counted]
    exact countP_pos_iff.mpr ⟨h, hw.registered.listed h hopen, huses⟩
  have hreg := hw.registered.closeHandle hopen (w.pb.dbHandlesNum - 1)
    (by rw [huses, if_pos rfl]; omega) (max w.pb.historyLastidDb lastid) rows
  exact hw.update h .closed
    (pbDeregisterHandle { w.pb with
      historyLastidDb := max w.pb.historyLastidDb lastid
      dbHandlesNum := w.pb.dbHandlesNum - 1 } h) w.nextid (w.finished ++ rows)
    rfl rfl rfl ⟨hreg.nodup, hreg.issued, hreg.listed, hreg.counted⟩ Ascending.nil
    (by simp [Handle.pending]) (by simp [Handle.pending])

theorem Stored.handleStep {w' : World} (hw : Stored w w.nextid) (h : HandleStep w e w') :
    Stored w' w'.nextid ∧ w.nextid ≤ w'.nextid := by
  cases h with
  | openHandle => exact ⟨hw.openHandle, le_rfl⟩
  | @writeValue k state rows row hh =>
    refine ⟨hw.replace (by simp [hh]) ?_ Ascending.nil (by simp [Handle.pending])
      (by simp [Handle.pending]), le_rfl⟩
    cases state <;> simp [hh, Handle.usesDb]
  | closeMemory hh hclose =>
    have hnext := hclose.nextid
    exact ⟨hnext ▸ hw.closesTo hh hclose, by omega⟩
  | @autoincrement k rows hh =>
    refine ⟨Stored.replace (hw.mono (Nat.le_add_right _ rows.length)) (by simp [hh])
      (by simp [hh, Handle.usesDb]) (ascending_pbHistorySetRowIds w.nextid rows)
      (fun x hx => (mem_pbHistorySetRowIds hx).2)
      (fun x hx => hw.bound.unused (mem_pbHistorySetRowIds hx).1), Nat.le_add_right _ _⟩
  | commit hh => exact ⟨hw.commitRows hh, le_rfl⟩
  | closeFinal hh => exact ⟨hw.closeFinal hh, le_rfl⟩
  | otherFallback others _ => exact ⟨hw.fallback others, le_rfl⟩
  | otherNoSpace _ => exact ⟨hw.setState _ (by simp), le_rfl⟩

theorem Grows.handleStep {w' : World} (hF : ∀ x ∈ flushedRows w e, F x) (h : HandleStep w e w') :
    Grows w.nextid F w w' := by
  cases h with
  | openHandle =>
    obtain ⟨hhistory, hstate, hsent, _⟩ := zbxPbHistoryOpen_keeps w
    refine Grows.update w (w.pb.handleid + 1) (.opened (getPbDst w.pb.state) [])
      (zbxPbHistoryOpen w).pb w.nextid w.finished hhistory hsent hstate ?_ ?_ (by simp [Handle.pending])
    · intro k hk
      rw [zbxPbHistoryOpen_historyHandleids, mem_append, mem_singleton] at hk
      exact hk.imp id fun hnew => by omega
    · simp
  | writeValue row hh =>
    exact Grows.update w _ _ w.pb w.nextid w.finished rfl rfl rfl (fun _ hk => .inl hk) le_rfl
      (by simp [Handle.pending])
  | closeMemory hh hclose =>
    refine Grows.closesTo rfl (fun x hx => hF x ?_) hclose
    simpa [flushedRows, hh] using hx
  | autoincrement hh =>
    exact Grows.update w _ _ w.pb _ w.finished rfl rfl rfl (fun _ hk => .inl hk) le_rfl
          fun x hx => .inr (mem_pbHistorySetRowIds hx).1
  | commit hh => exact Grows.commitRows hh
  | @closeFinal k rows lastid hh =>
    exact Grows.update w k .closed
      (pbDeregisterHandle { w.pb with
        historyLastidDb := max w.pb.historyLastidDb lastid
        dbHandlesNum := w.pb.dbHandlesNum - 1 } k) w.nextid (w.finished ++ rows) rfl rfl rfl
      (fun _ hk => .inl (mem_of_mem_erase hk)) le_rfl (by simp [Handle.pending])
  | otherFallback others _ => exact Grows.fallback others fun x hx => .inr (hF x hx)
  | otherNoSpace hstate => exact Grows.setState w _ fun hsrc => by simp [hstate, getPbSrc] at hsrc

theorem HandleStep.lastid {w' : World} (h : HandleStep w e w') :
    (w'.db.historyLastid = w.db.historyLastid ∧
        (flushedRows w e = [] ∨ w.pb.historyLastidSent = 0)) ∨
      w.pb.historyLastidSent ≠ 0 ∧ w'.db.historyLastid = w.pb.historyLastidSent := by
  cases h with
  | openHandle
  | writeValue row hh
  | autoincrement hh
  | commit hh
  | closeFinal hh
  | otherNoSpace _ => exact .inl ⟨rfl, .inl rfl⟩
  | otherFallback others _ => exact fallback_lastid w others
  | @closeMemory k rows a w' hh hclose =>
    have hflushed : flushedRows w (.closeMemory k a) = closeFlushes w rows a := by
      simp [flushedRows, hh]
    rw [hflushed]
    cases hclose with
    | empty hrows => exact .inl ⟨rfl, .inl (by simp [closeFlushes, hrows])⟩
    | direct hrows hdst =>
      refine .inl ⟨rfl, .inl ?_⟩
      cases hs : w.pb.state <;> simp_all [getPbDst, closeFlushes]
    | keptMemory hrows hstate hage _ =>
      exact .inl ⟨rfl, .inl (by simp [closeFlushes, hrows, hstate, hage])⟩
    | keptDatabaseMemory hrows hstate hfit =>
      have hle : rows.length ≤ a.fit := by simpa [closedRows] using hfit
      exact .inl ⟨rfl, .inl (by simp [closeFlushes, hrows, hstate, hle])⟩
    | noSpaceMemory v hrows hstate hage hv =>
      exact .inl ⟨by rw [hv]; rfl, .inl (by simp [closeFlushes, hrows, hstate, hage])⟩
    | noSpaceDatabaseMemory hrows hstate hfit =>
      have hlong : ¬ rows.length ≤ a.fit := by simpa [closedRows] using hfit
      have hall : closeFlushes w rows a = w.pb.history := by
        simp [closeFlushes, hrows, hstate, hlong]
      rcases fallback_lastid (addToMemory (ProxyBuffer.advanceId w rows.length)
        (closedRows w rows) a.fit) a.others with ⟨hlast, hnil⟩ | hsent
      · refine .inl ⟨hlast, hnil.imp (fun hnil => ?_) id⟩
        rw [hall]
        exact (append_eq_nil_iff.mp hnil).1
      · exact .inr hsent
    | tooOld hrows hstate hage =>
      have hall : closeFlushes w rows a = freshRows w.pb a.now := by
        simp [closeFlushes, hrows, hstate, hage]
      rw [hall]
      exact fallback_lastid (dropAged (ProxyBuffer.advanceId w rows.length) a.now) a.others

/-- What an event of the data sender did, read off `step`. -/
inductive SenderStep (w : World) : Event → World → Prop
  | getRows (a : ExportArgs) (offset : ℕ) : w.sender = .idle →
      SenderStep w (.getRows a offset) (zbxPbHistoryGetRows w a offset)
  | getLastid {offset : ℕ} : w.sender = .dbSource offset →
      SenderStep w .getLastid (pbGetLastid w offset)
  | select (a : ExportArgs) {r : Reader} : w.sender = .reading r →
      SenderStep w (.select a) { w with sender := selectStep a w.db r }
  | waitHandles {r : Reader} : w.sender = .gap r → SenderStep w .waitHandles (pbWaitHandles w r)
  | handlesClosed {r : Reader} {k : ℕ} : w.sender = .waiting r k →
      (∀ h ∈ w.pb.historyHandleids, k < h) →
      SenderStep w .handlesClosed { w with sender := .reading r }
  | uploadFailed {b : Batch} : w.sender = .uploading b →
      SenderStep w .uploadFailed { w with sender := .idle }
  | uploadSucceeded {b : Batch} : w.sender = .uploading b → b.lastid = 0 →
      SenderStep w .uploadSucceeded { w with sender := .uploaded b }
  | setHistoryLastid {b : Batch} : w.sender = .uploading b → b.lastid ≠ 0 →
      SenderStep w .setHistoryLastid (zbxPbSetHistoryLastid w b)
  | setLastidDb {b : Batch} {source : PbState} : w.sender = .acking b source →
      SenderStep w .setLastidDb (pbHistorySetLastid w b source)
  | updateState (a : UpdateArgs) {b : Batch} : w.sender = .uploaded b →
      (b.more = true → a.more = true) →
      SenderStep w (.updateState a) (zbxPbUpdateState w a)
  | skipUpdate {b : Batch} : w.sender = .uploaded b →
      SenderStep w .skipUpdate { w with sender := .idle }

theorem senderStep_of_step {w' : World} (hs : e.ofSender = true) (h : step w e = some w') :
    SenderStep w e w' := by
  cases e with
  | getRows a offset =>
    simp only [step] at h
    split at h
    · next hsender =>
      obtain rfl := Option.some.inj h
      exact .getRows a offset hsender
    · exact absurd h (by simp)
  | getLastid =>
    simp only [step] at h
    split at h
    · next offset hsender =>
      obtain rfl := Option.some.inj h
      exact .getLastid hsender
    · exact absurd h (by simp)
  | select a =>
    simp only [step] at h
    split at h
    · next r hsender =>
      obtain rfl := Option.some.inj h
      exact .select a hsender
    · exact absurd h (by simp)
  | waitHandles =>
    simp only [step] at h
    split at h
    · next r hsender =>
      obtain rfl := Option.some.inj h
      exact .waitHandles hsender
    · exact absurd h (by simp)
  | handlesClosed =>
    simp only [step] at h
    split at h
    · next r k hsender =>
      split_ifs at h with hclosed
      obtain rfl := Option.some.inj h
      exact .handlesClosed hsender hclosed
    · exact absurd h (by simp)
  | uploadFailed =>
    simp only [step] at h
    split at h
    · next b hsender =>
      obtain rfl := Option.some.inj h
      exact .uploadFailed hsender
    · exact absurd h (by simp)
  | uploadSucceeded =>
    simp only [step] at h
    split at h
    · next b hsender =>
      split_ifs at h with hzero
      obtain rfl := Option.some.inj h
      exact .uploadSucceeded hsender hzero
    · exact absurd h (by simp)
  | setHistoryLastid =>
    simp only [step] at h
    split at h
    · next b hsender =>
      split_ifs at h with hne
      obtain rfl := Option.some.inj h
      exact .setHistoryLastid hsender hne
    · exact absurd h (by simp)
  | setLastidDb =>
    simp only [step] at h
    split at h
    · next b source hsender =>
      obtain rfl := Option.some.inj h
      exact .setLastidDb hsender
    · exact absurd h (by simp)
  | updateState a =>
    simp only [step] at h
    split at h
    · next b hsender =>
      split_ifs at h with hmore
      obtain rfl := Option.some.inj h
      exact .updateState a hsender hmore
    · exact absurd h (by simp)
  | skipUpdate =>
    simp only [step] at h
    split at h
    · next b hsender =>
      obtain rfl := Option.some.inj h
      exact .skipUpdate hsender
    · exact absurd h (by simp)
  | openHandle
  | writeValue k row
  | closeMemory k a
  | autoincrement k
  | commit k
  | closeFinal k
  | otherFallback others
  | otherNoSpace => simp [Event.ofSender] at hs

theorem Stored.withSender {n : ℕ} (hw : Stored w n) (hs : s.Within n) :
    Stored { w with sender := s } n :=
  hw.frame (hw.registered.same rfl rfl rfl rfl) (.refl _) rfl rfl hw.bound.acked hw.bound.sent
    hw.bound.lastid hs hw.database_empty

theorem Sender.Within.getMem {n : ℕ} (hw : Stored w n) (a : ExportArgs) (offset : ℕ) :
    (Sender.uploading (pbHistoryGetMem a w.pb offset)).Within n := by
  have hcovers := pbHistoryGetMem_covers a w.pb offset hw.history_ascending hw.history_pos
  refine ⟨?_, fun x hx => hw.bound.history x (hcovers.fromHistory x hx)⟩
  rcases hcovers.lastid with hzero | ⟨x, hx, hlast⟩
  · omega
  · exact hlast ▸ hw.bound.history x hx

theorem Sender.Within.fetch {n : ℕ} (hw : Stored w n) (hr : (Sender.reading r).Within n) :
    (Sender.reading (fetchRows r (selectRows w.db r)).1).Within n := by
  have hsel : ∀ y ∈ selectRows w.db r, y.id ≤ n :=
    fun y hy => hw.bound.table y (mem_selectRows hy).1
  have hrows := fetchRows_rows r (selectRows w.db r)
  refine ⟨?_, ?_, fun x hx => ?_⟩
  · rcases hrows.2.2 with hsame | ⟨y, hy, _, hlast⟩
    · exact hsame ▸ hr.1
    · exact hlast ▸ hsel y hy
  · rcases fetchRows_gapid r (selectRows w.db r) with hsame | ⟨y, hy, hgap⟩
    · exact hsame ▸ hr.2.1
    · exact hgap ▸ hsel y hy
  · rcases mem_append.mp hx with hbatch | hrow
    · rw [(fetchRows_keeps r _).1] at hbatch
      exact hr.2.2 x (mem_append_left _ hbatch)
    · rcases hrows.1 x hrow with hold | hnew
      · exact hr.2.2 x (mem_append_right _ hold)
      · exact hsel x hnew

theorem Sender.Within.finishRound {n : ℕ} (a : ExportArgs) (hr : (Sender.reading r).Within n)
    (hexported : r.exported ≤ n) :
    (ProxyBuffer.finishRound a r).Within n := by
  have hbatch : ∀ k, ∀ x ∈ r.batch ++ coveredRows r.rows k, x.id ≤ n := by
    intro k x hx
    rcases mem_append.mp hx with hold | hcovered
    · exact hr.2.2 x (mem_append_left _ hold)
    · exact hr.2.2 x (mem_append_right _ (mem_coveredRows.mp hcovered).1)
  unfold ProxyBuffer.finishRound
  dsimp only
  split_ifs with hnil hshort hmore
  · exact ⟨hexported, fun x hx => hr.2.2 x (mem_append_left _ hx)⟩
  all_goals
    obtain ⟨y, hy, hlast⟩ := pbHistoryExport_lastid a ⟨r.recordsNum, r.offset, r.exported⟩ hnil
    have hle := hr.2.2 y (mem_append_right _ hy)
  · exact ⟨hlast ▸ hle, hbatch _⟩
  · exact ⟨hlast ▸ hle, Nat.zero_le _, by simpa using hbatch _⟩
  · exact ⟨hlast ▸ hle, hbatch _⟩

theorem Stored.setHistoryLastid {n : ℕ} (hw : Stored w n) {b : Batch}
    (hb : (Sender.uploading b).Within n) : Stored (zbxPbSetHistoryLastid w b) n := by
  have hsub : Sublist (zbxPbSetHistoryLastid w b).pb.history w.pb.history := by
    unfold zbxPbSetHistoryLastid
    dsimp only
    split_ifs
    · exact dropWhile_sublist _
    · exact Sublist.refl _
  have hkeep : (zbxPbSetHistoryLastid w b).pb.state = w.pb.state ∧
      (zbxPbSetHistoryLastid w b).pb.dbHandlesNum = w.pb.dbHandlesNum ∧
      (zbxPbSetHistoryLastid w b).pb.historyHandleids = w.pb.historyHandleids ∧
      (zbxPbSetHistoryLastid w b).pb.handleid = w.pb.handleid ∧
      (zbxPbSetHistoryLastid w b).pb.historyLastidSent = b.lastid := by
    unfold zbxPbSetHistoryLastid
    dsimp only
    split_ifs <;> exact ⟨rfl, rfl, rfl, rfl, rfl⟩
  obtain ⟨hstate, hnum, hids, hid, hsent⟩ := hkeep
  refine hw.frame (hw.registered.same rfl hids hid hnum) hsub rfl rfl (fun i hi => ?_)
    (hsent ▸ hb.1) hw.bound.lastid hb (hstate ▸ hw.database_empty)
  rcases mem_append.mp hi with hold | hnew
  · exact hw.bound.acked i hold
  · obtain ⟨x, hx, rfl⟩ := mem_map.mp hnew
    exact hb.2 x hx

theorem Stored.withLastid {n : ℕ} (hw : Stored w n) {lastid : ℕ} {state : PbState} (hs : s.Within n)
    (hlastid : lastid ≤ n) (hstate : state = .database → w.pb.history = []) :
    Stored { w with
      pb := pbSetState w.pb state
      db := { w.db with historyLastid := lastid }
      sender := s } n :=
  hw.frame (hw.registered.same rfl rfl rfl rfl) (.refl _) rfl rfl hw.bound.acked hw.bound.sent
    hlastid hs hstate

theorem le_maxRowId {rows : List PbHistory} (hx : x ∈ rows) : x.id ≤ maxRowId rows := by
  have hfold : ∀ (l : List PbHistory) (m : ℕ), m ≤ l.foldl (fun m row => max m row.id) m ∧
      ∀ y ∈ l, y.id ≤ l.foldl (fun m row => max m row.id) m := by
    intro l
    induction l with
    | nil => exact fun m => ⟨le_rfl, by simp⟩
    | cons row l ih =>
      intro m
      obtain ⟨hm, hl⟩ := ih (max m row.id)
      refine ⟨(le_max_left _ _).trans hm, fun y hy => ?_⟩
      rcases mem_cons.mp hy with rfl | hmem
      · exact (le_max_right _ _).trans hm
      · exact hl y hmem
  exact (hfold rows 0).2 x hx

theorem stored_pbInitState (db : Db) (maxAge offlineBuffer : ℤ) (othersUnsent : Bool) :
    Stored (pbInitState db maxAge offlineBuffer othersUnsent) (maxRowId db.proxyHistory) where
  registered := ⟨nodup_nil, by simp [pbInitState], by simp [pbInitState], rfl⟩
  bound :=
    { history := by simp [pbInitState]
      table := fun x hx => le_maxRowId hx
      pending := by simp [pbInitState, Handle.pending]
      acked := by
        intro i hi
        obtain ⟨x, hx, rfl⟩ := mem_map.mp hi
        exact le_maxRowId (mem_coveredRows.mp hx).1
      sent := min_le_right _ _
      lastid := min_le_right _ _
      sender := trivial }
  distinct := ⟨by simp [pbInitState], by simp [pbInitState], by simp [pbInitState, Handle.pending],
    by simp [pbInitState, Handle.pending]⟩
  history_ascending := Ascending.nil
  history_pos := by simp [pbInitState]
  pending_ascending := fun _ => Ascending.nil
  database_empty := fun _ => rfl

end Zabbix.ProxyBuffer
