import Zabbix.ProxyBuffer.Invariant

/-!
# No loss of history rows

A row of a closed handle stays deliverable as long as every fallback writes its rows
ahead of the last sent id and of the position the data sender has read to.
-/

namespace Zabbix.ProxyBuffer

open List Function Transition

variable {w w' v : World} {x : PbHistory} {n h k : ℕ} {F : PbHistory → Prop} {r : Reader}
  {b : Batch} {rows : List PbHistory} {a : CloseArgs} {e : Event} {state : PbState}

def Deliverable (w : World) (x : PbHistory) : Prop :=
  x.id ∈ w.acked ∨ x.id ∈ w.dropped ∨ (x ∈ w.pb.history ∧ w.pb.state ≠ .database) ∨
    (x ∈ w.db.proxyHistory ∧ w.db.historyLastid < x.id)

def Sender.position : Sender → ℕ
  | .reading r | .gap r | .waiting r _ => r.lastid
  | .uploading b | .acking b _ => b.lastid
  | _ => 0

/-- A fallback writes its rows above the last sent id and, where the sender reads from the
database, above its position. -/
def FlushesAhead (w : World) (e : Event) : Prop :=
  ∀ x ∈ flushedRows w e, w.pb.historyLastidSent < x.id ∧
    (getPbSrc w.pb.state = .database → w.sender.position < x.id)

def Outstanding (w : World) (x : PbHistory) : Prop :=
  (x ∈ w.db.proxyHistory ∧ x.id ∉ w.acked) ∨ ∃ h, x ∈ (w.handles h).pending

def Placed (w : World) (x : PbHistory) : Prop :=
  x.id ∈ w.acked ∨ x.id ∈ w.dropped ∨ x ∈ w.pb.history ∨ x ∈ w.db.proxyHistory

def Known (w : World) (x : PbHistory) : Prop :=
  x.id ≤ w.pb.historyLastidDb ∨
    ∃ h rows lastid, w.handles h = .committed rows lastid ∧ x.id ≤ lastid

def Handle.closing : Handle → List PbHistory
  | .inserting rows _ => rows
  | .committed rows _ => rows
  | _ => []

structure ReaderOk (w : World) (r : Reader) : Prop where
  source : getPbSrc w.pb.state = .database
  table : ∀ x ∈ w.db.proxyHistory, x.id ≤ r.lastid →
    x.id ∈ w.acked ∨ ∃ y ∈ r.batch ++ r.rows, y.id = x.id
  pending : ∀ h, ∀ x ∈ (w.handles h).pending, r.lastid < x.id
  rows : ∀ x ∈ r.rows, x.id ≤ r.lastid
  exported : r.exported ≤ r.lastid

structure BatchOk (w : World) (b : Batch) : Prop where
  table : ∀ x ∈ w.db.proxyHistory, x.id ≤ b.lastid →
    x.id ∈ w.acked ∨ ∃ y ∈ b.rows, y.id = x.id
  pending : ∀ h, ∀ x ∈ (w.handles h).pending, b.lastid < x.id
  memory : getPbSrc w.pb.state = .memory → ∀ x ∈ w.pb.history, x.id ≤ b.lastid →
    ∃ y ∈ b.rows, y.id = x.id

def SenderOk (w : World) : Sender → Prop
  | .dbSource _ => getPbSrc w.pb.state = .database
  | .reading r => ReaderOk w r ∧ ∀ h, ∀ x ∈ (w.handles h).pending, r.gapid ≤ x.id
  | .gap r => ReaderOk w r
  | .waiting r k => ReaderOk w r ∧ ∀ h, ∀ x ∈ (w.handles h).pending, x.id < r.gapid → h ≤ k
  | .uploading b => BatchOk w b
  | .acking b _ => w.pb.historyLastidSent = b.lastid ∧ b.lastid ≠ 0
  | .idle | .uploaded _ => True

structure Delivers (w : World) : Prop where
  stored : Stored w w.nextid
  ahead : ∀ x, Outstanding w x → w.pb.historyLastidSent < x.id ∧ w.db.historyLastid < x.id
  sentZero : w.pb.historyLastidSent = 0 → w.db.historyLastid = 0
  memory : w.pb.state = .memory → w.pb.dbHandlesNum = 0 ∧ ∀ x, ¬ Outstanding w x
  memoryDatabase : w.pb.state = .memoryDatabase → ∀ x, Outstanding w x →
    ∀ y ∈ w.pb.history, y.id < x.id
  known : ∀ x ∈ w.db.proxyHistory, Known w x
  finished : ∀ x ∈ w.finished, Placed w x
  closing : ∀ h, ∀ x ∈ (w.handles h).closing, Placed w x ∨ x ∈ (w.handles h).pending
  sender : SenderOk w w.sender

theorem Delivers.deliverable (hw : Delivers w) (hx : x ∈ w.finished) : Deliverable w x := by
  rcases hw.finished x hx with hacked | hdropped | hhistory | htable
  · exact .inl hacked
  · exact .inr (.inl hdropped)
  · refine .inr (.inr (.inl ⟨hhistory, fun hdb => ?_⟩))
    rw [hw.stored.database_empty hdb] at hhistory
    exact absurd hhistory not_mem_nil
  · by_cases hacked : x.id ∈ w.acked
    · exact .inl hacked
    · exact .inr (.inr (.inr ⟨htable, (hw.ahead x (.inl ⟨htable, hacked⟩)).2⟩))

variable (hg : Grows n F w w')

include hg

theorem Outstanding.of_grows (hx : Outstanding w' x) :
    Outstanding w x ∨ n < x.id ∨ (x ∈ w.pb.history ∧ F x ∧ getPbSrc w'.pb.state = .database) := by
  rcases hx with ⟨htable, hacked⟩ | ⟨h, hpending⟩
  · rw [hg.acked] at hacked
    rcases hg.table x htable with hold | hpending | hnew | hflushed
    · exact .inl (.inl ⟨hold, hacked⟩)
    · exact .inl (.inr hpending)
    · exact .inr (.inl hnew)
    · exact .inr (.inr hflushed)
  · rcases hg.pending h x hpending with hold | hnew
    · exact .inl (.inr ⟨h, hold⟩)
    · exact .inr (.inl hnew)

theorem ReaderOk.of_grows (hn : r.lastid ≤ n) (hF : ∀ x, F x → r.lastid < x.id) (h : ReaderOk w r)
    : ReaderOk w' r where
  source := hg.source h.source
  table x hx hle := by
    rw [hg.acked]
    rcases hg.table x hx with hold | ⟨k, hk⟩ | hnew | ⟨_, hFx, _⟩
    · exact h.table x hold hle
    · have := h.pending k x hk
      omega
    · omega
    · have := hF x hFx
      omega
  pending k x hx := by
    rcases hg.pending k x hx with hold | hnew
    · exact h.pending k x hold
    · omega
  rows := h.rows
  exported := h.exported

theorem BatchOk.of_grows (hn : b.lastid ≤ n)
    (hF : ∀ x, F x → getPbSrc w.pb.state = .database → b.lastid < x.id) (h : BatchOk w b) :
    BatchOk w' b where
  table x hx hle := by
    rw [hg.acked]
    rcases hg.table x hx with hold | ⟨k, hk⟩ | hnew | ⟨hhistory, hFx, _⟩
    · exact h.table x hold hle
    · have := h.pending k x hk
      omega
    · omega
    -- the batch holds the rows of a memory list that is written to the table meanwhile
    · by_cases hsrc : getPbSrc w.pb.state = .database
      · have := hF x hFx hsrc
        omega
      · have hmem : getPbSrc w.pb.state = .memory := by
          cases hs : w.pb.state <;> simp_all [getPbSrc]
        exact .inr (h.memory hmem x hhistory hle)
  pending k x hx := by
    rcases hg.pending k x hx with hold | hnew
    · exact h.pending k x hold
    · omega
  memory hsrc x hx hle := by
    have hmem : getPbSrc w.pb.state = .memory := by
      by_contra hne
      have hdb : getPbSrc w.pb.state = .database := by cases hs : w.pb.state <;> simp_all [getPbSrc]
      exact absurd (hsrc.symm.trans (hg.source hdb)) (by decide)
    rcases hg.history x hx with hold | hnew
    · exact h.memory hmem x hold hle
    · omega

theorem SenderOk.of_grows (hn : w.sender.Within n)
    (hF : ∀ x, F x → getPbSrc w.pb.state = .database → w.sender.position < x.id)
    (h : SenderOk w w.sender) : SenderOk w' w'.sender := by
  rw [hg.sender]
  cases hs : w.sender with
  | idle => trivial
  | uploaded b => trivial
  | dbSource offset =>
    rw [hs] at h
    exact hg.source h
  | reading r =>
    rw [hs] at h hn hF
    refine ⟨h.1.of_grows hg hn.1 fun x hx => hF x hx h.1.source, fun k x hx => ?_⟩
    rcases hg.pending k x hx with hold | hnew
    · exact h.2 k x hold
    · exact hn.2.1.trans hnew.le
  | gap r =>
    rw [hs] at h hn hF
    exact ReaderOk.of_grows hg hn.1 (fun x hx => hF x hx (ReaderOk.source h)) h
  | waiting r k =>
    rw [hs] at h hn hF
    refine ⟨h.1.of_grows hg hn.1 fun x hx => hF x hx h.1.source, fun l x hx hlt => ?_⟩
    rcases hg.pending l x hx with hold | hnew
    · exact h.2 l x hold hlt
    · have := hn.2.1
      omega
  | uploading b =>
    rw [hs] at h hn hF
    exact BatchOk.of_grows hg hn.1 hF h
  | acking b source =>
    rw [hs] at h
    exact ⟨hg.sent.trans h.1, h.2⟩

omit hg

/-! Rows stay placed. -/

theorem Placed.advanceId (h : Placed w x) (k : ℕ) : Placed (advanceId w k) x := h

theorem Placed.finishClose (hx : Placed w x) (h : ℕ) (rows : List PbHistory) :
    Placed (finishClose w h rows) x := hx

theorem Placed.startInsert (hx : Placed w x) (h : ℕ) (rows pending : List PbHistory) :
    Placed (startInsert w h rows pending) x := hx

theorem Placed.dropAged (h : Placed w x) (now : ℤ) : Placed (dropAged w now) x := by
  rcases h with hacked | hdropped | hhistory | htable
  · exact .inl hacked
  · exact .inr (.inl (mem_append_left _ hdropped))
  · rw [← takeWhile_append_dropWhile
      (p := fun row => decide (w.pb.offlineBuffer < now - row.writeClock)) (l := w.pb.history),
      mem_append] at hhistory
    rcases hhistory with haged | hfresh
    · exact .inr (.inl (mem_append_right _ (mem_map_of_mem haged)))
    · exact .inr (.inr (.inl hfresh))
  · exact .inr (.inr (.inr htable))

theorem Placed.addToMemory (h : Placed w x) (rows : List PbHistory) (fit : ℕ) :
    Placed (addToMemory w rows fit) x := by
  rcases h with hacked | hdropped | hhistory | htable
  · exact .inl hacked
  · exact .inr (.inl hdropped)
  · exact .inr (.inr (.inl (mem_append_left _ hhistory)))
  · exact .inr (.inr (.inr htable))

theorem Placed.fallback (h : Placed w x) (others : Bool) : Placed (fallback w others) x := by
  rcases h with hacked | hdropped | hhistory | htable
  · exact .inl hacked
  · exact .inr (.inl hdropped)
  · exact .inr (.inr (.inr (by simp [hhistory])))
  · exact .inr (.inr (.inr (by simp [htable])))

theorem placed_of_take {fit : ℕ} (hx : x ∈ rows.take fit) : Placed (addToMemory w rows fit) x :=
  .inr (.inr (.inl (mem_append_right _ hx)))

theorem ClosesTo.placed (hclose : ClosesTo w h rows a w') (hx : Placed w x) : Placed w' x := by
  cases hclose with
  | empty _ => exact hx
  | direct _ _ => exact hx
  | keptMemory _ _ _ _ => exact (hx.dropAged a.now).addToMemory _ _
  | keptDatabaseMemory _ _ _ => exact hx.addToMemory _ _
  | noSpaceMemory v _ _ _ hv =>
    have hvx : Placed v x := by
      rw [hv]
      exact Placed.addToMemory ((hx.advanceId rows.length).dropAged a.now) _ _
    exact hvx
  | noSpaceDatabaseMemory _ _ _ =>
    exact Placed.fallback (Placed.addToMemory (hx.advanceId rows.length) _ _) _
  | tooOld _ _ _ => exact Placed.fallback ((hx.advanceId rows.length).dropAged a.now) _

theorem HandleStep.placed (h : HandleStep w e w') (hx : Placed w x) : Placed w' x := by
  cases h with
  | openHandle =>
    unfold Placed
    rw [(zbxPbHistoryOpen_keeps w).1]
    exact hx
  | writeValue row hh => exact hx
  | closeMemory hh hclose => exact hclose.placed hx
  | autoincrement hh => exact hx
  | commit hh =>
    rcases hx with hacked | hdropped | hhistory | htable
    · exact .inl hacked
    · exact .inr (.inl hdropped)
    · exact .inr (.inr (.inl hhistory))
    · exact .inr (.inr (.inr (mem_append_left _ htable)))
  | closeFinal hh => exact hx
  | otherFallback others _ => exact hx.fallback others
  | otherNoSpace _ => exact hx

theorem Delivers.finished_handleStep (hw : Delivers w) (h : HandleStep w e w')
    (hx : x ∈ w'.finished) : Placed w' x := by
  have hold : x ∈ w.finished → Placed w' x := fun hmem => h.placed (hw.finished x hmem)
  cases h with
  | openHandle => exact hold hx
  | writeValue row hh => exact hold hx
  | autoincrement hh => exact hold hx
  | commit hh => exact hold hx
  | otherFallback others _ => exact hold hx
  | otherNoSpace _ => exact hold hx
  | @closeFinal k rows lastid hh =>
    rcases mem_append.mp hx with hmem | hrow
    · exact hold hmem
    · rcases hw.closing k x (by simpa [hh, Handle.closing] using hrow) with hplaced | hpending
      · exact hplaced
      · simp [hh, Handle.pending] at hpending
  | closeMemory hh hclose =>
    cases hclose with
    | empty _ => exact hold (by simpa [finishClose] using hx)
    | direct _ _ => exact hold hx
    | keptMemory _ _ _ hfit | keptDatabaseMemory _ _ hfit =>
      rcases mem_append.mp hx with hmem | hrow
      · exact hold hmem
      · refine Placed.finishClose (placed_of_take ?_) _ _
        rw [← take_append_drop _ (closedRows _ _), hfit, append_nil] at hrow
        exact hrow
    | noSpaceMemory v _ _ _ hv => exact hold (by rw [hv] at hx; exact hx)
    | noSpaceDatabaseMemory _ _ _ => exact hold hx
    | tooOld _ _ _ => exact hold hx

theorem closing_update (hw : Delivers w) (hplaced : ∀ x, Placed w x → Placed v x) {hd : Handle}
    (hnew : ∀ x ∈ hd.closing, Placed v x ∨ x ∈ hd.pending) (k : ℕ)
    (hx : x ∈ (update w.handles h hd k).closing) :
    Placed v x ∨ x ∈ (update w.handles h hd k).pending := by
  by_cases hk : k = h
  · subst hk
    rw [update_self] at hx ⊢
    exact hnew x hx
  · rw [update_of_ne hk] at hx ⊢
    exact (hw.closing k x hx).imp (hplaced x) id

theorem pending_of_closing (rows : List PbHistory) :
    ∀ x ∈ (Handle.inserting rows rows).closing,
      Placed w x ∨ x ∈ (Handle.inserting rows rows).pending :=
  fun _ hx => .inr hx

theorem Delivers.closing_handleStep (hw : Delivers w) (h : HandleStep w e w') (k : ℕ)
    (hx : x ∈ (w'.handles k).closing) :
    Placed w' x ∨ x ∈ (w'.handles k).pending := by
  have hplaced : ∀ y, Placed w y → Placed w' y := fun y => h.placed
  have hsame : w'.handles = w.handles → Placed w' x ∨ x ∈ (w'.handles k).pending := by
    intro hhandles
    rw [hhandles] at hx ⊢
    exact (hw.closing k x hx).imp (hplaced x) id
  cases h with
  | openHandle
  | writeValue row hh
  | closeFinal hh => exact closing_update hw hplaced (by simp [Handle.closing]) k hx
  | autoincrement hh => exact closing_update hw hplaced (pending_of_closing _) k hx
  | @commit l rows pending hh =>
    refine closing_update hw hplaced (fun y hy => .inl ?_) k hx
    rcases hw.closing l y (by simpa [hh, Handle.closing] using hy) with hold | hpending
    · exact hplaced y hold
    · refine .inr (.inr (.inr (mem_append_right _ ?_)))
      simpa [hh, Handle.pending] using hpending
  | otherFallback others _ => exact hsame rfl
  | otherNoSpace _ => exact hsame rfl
  | @closeMemory l rows a w' hh hclose =>
    cases hclose with
    | empty _ => exact closing_update hw hplaced (by simp [Handle.closing]) k hx
    | direct _ _ => exact closing_update hw hplaced (pending_of_closing _) k hx
    | keptMemory _ _ _ _ => exact closing_update hw hplaced (by simp [Handle.closing]) k hx
    | keptDatabaseMemory _ _ _ => exact closing_update hw hplaced (by simp [Handle.closing]) k hx
    | noSpaceMemory v _ _ _ hv =>
      subst hv
      refine closing_update hw hplaced (fun y hy => ?_) k hx
      rcases mem_take_or_mem_drop a.fit hy with htake | hdrop
      · exact .inl (.inr (.inr (.inl (mem_append_right _ htake))))
      · exact .inr hdrop
    | noSpaceDatabaseMemory _ _ _ =>
      refine closing_update hw hplaced (fun y hy => ?_) k hx
      rcases mem_take_or_mem_drop a.fit hy with htake | hdrop
      · exact .inl (Placed.startInsert (Placed.fallback (placed_of_take htake) _) _ _ _)
      · exact .inr hdrop
    | tooOld _ _ _ => exact closing_update hw hplaced (pending_of_closing _) k hx

/-! What `history_lastid_db` knows. -/

theorem Known.mono (hle : w.pb.historyLastidDb ≤ w'.pb.historyLastidDb)
    (hkeep : ∀ h rows lastid, w.handles h = .committed rows lastid →
      w'.handles h = .committed rows lastid) (hx : Known w x) : Known w' x := by
  rcases hx with hold | ⟨h, rows, lastid, hh, hxle⟩
  · exact .inl (hold.trans hle)
  · exact .inr ⟨h, rows, lastid, hkeep h rows lastid hh, hxle⟩

theorem Known.update (hx : Known w x) (hd : Handle)
    (hnot : ∀ rows lastid, w.handles h ≠ .committed rows lastid)
    (hle : w.pb.historyLastidDb ≤ w'.pb.historyLastidDb)
    (hhandles : w'.handles = update w.handles h hd) : Known w' x := by
  refine Known.mono hle (fun k rows lastid hk => ?_) hx
  have hkh : k ≠ h := fun hkh => hnot rows lastid (hkh ▸ hk)
  rw [hhandles, update_of_ne hkh]
  exact hk

theorem Delivers.known_fallback (hw : Delivers w) (hasc : Ascending v.pb.history)
    (hhandles : v.handles = w.handles) (hdb : v.db = w.db)
    (hlast : v.pb.historyLastidDb = w.pb.historyLastidDb) (others : Bool)
    (hx : x ∈ (fallback v others).db.proxyHistory) :
    Known (fallback v others) x := by
  rw [fallback_table, mem_append] at hx
  rcases hx with htable | hhistory
  · refine Known.mono ?_ ?_ (hw.known x (hdb ▸ htable))
    · exact hlast ▸ le_fallback_historyLastidDb v others
    · intro k rows lastid hk
      rw [fallback_handles, hhandles]
      exact hk
  · exact .inl (hasc.le_fallback_historyLastidDb others hhistory)

theorem Known.startInsert (hx : Known w x) {rows₀ : List PbHistory}
    (hh : w.handles h = .opened .memory rows₀) (rows pending : List PbHistory) :
    Known (startInsert w h rows pending) x :=
  hx.update (h := h) (.inserting rows pending) (by simp [hh]) le_rfl rfl

theorem Delivers.known_closesTo (hw : Delivers w) (hh : w.handles h = .opened .memory rows)
    (hclose : ClosesTo w h rows a w') (hx : x ∈ w'.db.proxyHistory) : Known w' x := by
  have hnot : ∀ rows' lastid, w.handles h ≠ .committed rows' lastid := by simp [hh]
  cases hclose with
  | empty _
  | direct _ _
  | keptMemory _ _ _ _
  | keptDatabaseMemory _ _ _ => exact (hw.known x hx).update _ hnot le_rfl rfl
  | noSpaceMemory v _ _ _ hv =>
    subst hv
    exact (hw.known x hx).update _ hnot le_rfl rfl
  | noSpaceDatabaseMemory _ _ _ =>
    have hasc : Ascending (w.pb.history ++ (closedRows w rows).take a.fit) := by
      refine hw.stored.history_ascending.append
        ((ascending_pbHistorySetRowIds _ _).sublist (take_sublist _ _)) fun y hy z hz => ?_
      exact (hw.stored.bound.history y hy).trans_lt
        (mem_pbHistorySetRowIds (mem_of_mem_take hz)).1
    have hknown := hw.known_fallback
      (v := addToMemory (advanceId w rows.length) (closedRows w rows) a.fit)
      hasc rfl rfl rfl a.others hx
    exact hknown.startInsert hh _ _
  | tooOld _ _ _ =>
    have hknown := hw.known_fallback (v := dropAged (advanceId w rows.length) a.now)
      (hw.stored.history_ascending.sublist (freshRows_sublist w.pb a.now)) rfl rfl rfl a.others hx
    exact hknown.startInsert hh _ _

theorem Delivers.known_handleStep (hw : Delivers w) (h : HandleStep w e w')
    (hx : x ∈ w'.db.proxyHistory) : Known w' x := by
  cases h with
  | openHandle =>
    obtain ⟨_, _, _, hlast⟩ := zbxPbHistoryOpen_keeps w
    refine (hw.known x hx).update _ (fun rows lastid hk => ?_) hlast.ge
      (zbxPbHistoryOpen_handles w)
    have := hw.stored.registered.issued _ (hw.stored.registered.listed _ (by rw [hk]; simp))
    omega
  | @writeValue k state rows row hh =>
    exact (hw.known x hx).update (h := k) _ (by simp [hh]) le_rfl rfl
  | @autoincrement k rows hh => exact (hw.known x hx).update (h := k) _ (by simp [hh]) le_rfl rfl
  | @commit k rows pending hh =>
    rcases mem_append.mp hx with hold | hnew
    · exact (hw.known x hold).update (h := k) _ (by simp [hh]) le_rfl rfl
    · have hasc := hw.stored.pending_ascending k
      rw [hh] at hasc
      exact .inr ⟨k, rows, lastRowId pending, update_self .., le_lastRowId hasc hnew⟩
  | @closeFinal k rows lastid hh =>
    rcases hw.known x hx with hold | ⟨l, rows', lastid', hl, hle⟩
    · exact .inl (hold.trans (le_max_left _ _))
    · by_cases hlk : l = k
      · subst hlk
        obtain ⟨rfl, rfl⟩ : rows' = rows ∧ lastid' = lastid := by simpa using hl.symm.trans hh
        exact .inl (hle.trans (le_max_right _ _))
      · exact .inr ⟨l, rows', lastid', (update_of_ne hlk _ _).trans hl, hle⟩
  | otherFallback others _ =>
    exact hw.known_fallback hw.stored.history_ascending rfl rfl rfl others hx
  | otherNoSpace _ => exact hw.known x hx
  | closeMemory hh hclose => exact hw.known_closesTo hh hclose hx

/-! The states in which the sender reads from memory. -/

theorem not_outstanding (hreg : Registered w') (hzero : w'.pb.dbHandlesNum = 0)
    (htable : w'.db.proxyHistory = w.db.proxyHistory) (hacked : w'.acked = w.acked)
    (h : ∀ x, ¬ Outstanding w x) (x : PbHistory) : ¬ Outstanding w' x := by
  rintro (⟨hx, hnot⟩ | ⟨k, hk⟩)
  · exact h x (.inl ⟨htable ▸ hx, hacked ▸ hnot⟩)
  · simp [hreg.pending_eq_nil hzero k] at hk

theorem Delivers.memory_handleStep (hw : Delivers w) (h : HandleStep w e w')
    (hstate : w'.pb.state = .memory) :
    w'.pb.dbHandlesNum = 0 ∧ ∀ x, ¬ Outstanding w' x := by
  have hreg : Registered w' := (hw.stored.handleStep h).1.registered
  have hidle : w.pb.state = .memory → ∀ k, (w.handles k).usesDb = false :=
    fun hmem => hw.stored.registered.usesDb_eq_false (hw.memory hmem).1
  have hkeep : w.pb.state = .memory → w'.pb.dbHandlesNum = w.pb.dbHandlesNum →
      w'.db.proxyHistory = w.db.proxyHistory → w'.acked = w.acked →
      w'.pb.dbHandlesNum = 0 ∧ ∀ x, ¬ Outstanding w' x := by
    intro hmem hnum htable hacked
    obtain ⟨hzero, hnone⟩ := hw.memory hmem
    exact ⟨hnum.trans hzero, not_outstanding hreg (hnum.trans hzero) htable hacked hnone⟩
  cases h with
  | openHandle =>
    rw [(zbxPbHistoryOpen_keeps w).2.1] at hstate
    refine hkeep hstate ?_ rfl rfl
    simp [zbxPbHistoryOpen, pbRegisterHandle, getPbDst, hstate]
  | writeValue row hh => exact hkeep hstate rfl rfl rfl
  | @autoincrement k rows hh | @commit k rows pending hh | @closeFinal k rows lastid hh =>
    have := hidle hstate k
    simp [hh, Handle.usesDb] at this
  | otherFallback others _ => exact absurd hstate (by simp)
  | otherNoSpace _ => exact absurd hstate (by simp [pbSetState])
  | closeMemory hh hclose =>
    cases hclose with
    | empty _ => exact hkeep hstate rfl rfl rfl
    | direct _ hdst =>
      have hmem : w.pb.state = .memory := hstate
      simp [hmem, getPbDst] at hdst
    | keptMemory _ hmem _ _ => exact hkeep hmem rfl rfl rfl
    | keptDatabaseMemory _ hdm _ => exact absurd (hdm.symm.trans hstate) (by decide)
    | noSpaceMemory v _ _ _ hv => exact absurd hstate (by simp [startInsert, pbSetState])
    | noSpaceDatabaseMemory _ _ _ => exact absurd hstate (by simp [startInsert])
    | tooOld _ _ _ => exact absurd hstate (by simp [startInsert])

theorem Delivers.memoryDatabase_handleStep (hw : Delivers w) (h : HandleStep w e w')
    (hstate : w'.pb.state = .memoryDatabase) (hx : Outstanding w' x) :
    ∀ y ∈ w'.pb.history, y.id < x.id := by
  have hgrows : Grows w.nextid (fun _ => True) w w' := Grows.handleStep (fun _ _ => trivial) h
  have hcases : Outstanding w x ∨ w.nextid < x.id := by
    rcases hx.of_grows hgrows with hold | hnew | ⟨_, _, hsrc⟩
    · exact .inl hold
    · exact .inr hnew
    · simp [hstate, getPbSrc] at hsrc
  have hsame : w.pb.state = .memoryDatabase → w'.pb.history = w.pb.history →
      ∀ y ∈ w'.pb.history, y.id < x.id := by
    intro hmd hhistory y hy
    rw [hhistory] at hy
    rcases hcases with hold | hnew
    · exact hw.memoryDatabase hmd x hold y hy
    · exact (hw.stored.bound.history y hy).trans_lt hnew
  -- from memory state on nothing was outstanding before
  have hfresh : w.pb.state = .memory → w.nextid < x.id := fun hmem =>
    hcases.resolve_left ((hw.memory hmem).2 x)
  cases h with
  | openHandle =>
    rw [(zbxPbHistoryOpen_keeps w).2.1] at hstate
    exact hsame hstate (zbxPbHistoryOpen_keeps w).1
  | writeValue row hh => exact hsame hstate rfl
  | autoincrement hh => exact hsame hstate rfl
  | commit hh => exact hsame hstate rfl
  | closeFinal hh => exact hsame hstate rfl
  | otherFallback others _ => exact absurd hstate (by simp)
  | otherNoSpace hmem => exact fun y hy => (hw.stored.bound.history y hy).trans_lt (hfresh hmem)
  | @closeMemory k rows a w' hh hclose =>
    cases hclose with
    | empty _ => exact hsame hstate rfl
    | direct _ _ => exact hsame hstate rfl
    | keptMemory _ hmem _ _ => exact absurd (hmem.symm.trans hstate) (by decide)
    | keptDatabaseMemory _ hdm _ => exact absurd (hdm.symm.trans hstate) (by decide)
    | noSpaceDatabaseMemory _ _ _ | tooOld _ _ _ => exact absurd hstate (by simp [startInsert])
    | noSpaceMemory v _ hmem _ hv =>
      subst hv
      obtain ⟨hzero, hnone⟩ := hw.memory hmem
      intro y hy
      rcases mem_append.mp hy with hold | hadd
      · exact (hw.stored.bound.history y ((freshRows_sublist w.pb a.now).mem hold)).trans_lt
          (hfresh hmem)
      · rcases hx with ⟨htable, hacked⟩ | ⟨l, hl⟩
        · exact absurd (.inl ⟨htable, hacked⟩) (hnone x)
        · dsimp only [startInsert] at hl
          rw [pending_update] at hl
          split_ifs at hl with hlk
          · exact (ascending_pbHistorySetRowIds _ _).take_lt_drop a.fit hadd hl
          · exact absurd (.inr ⟨l, hl⟩) (hnone x)

theorem Delivers.handleStep (hw : Delivers w) (hahead : FlushesAhead w e) (h : HandleStep w e w') :
    Delivers w' where
  stored := (hw.stored.handleStep h).1
  ahead := by
    intro x hx
    have hgrows : Grows w.nextid (· ∈ flushedRows w e) w w' := Grows.handleStep (fun _ hy => hy) h
    have hsent := hw.stored.bound.sent
    have hlast := hw.stored.bound.lastid
    have hnow := h.lastid
    rw [hgrows.sent]
    rcases hx.of_grows hgrows with hold | hnew | ⟨_, hflushed, _⟩
    · have := hw.ahead x hold
      omega
    · omega
    -- a flushed row is above the sent id, which is the new `history_lastid` or still zero
    · have habove := (hahead x hflushed).1
      rcases hnow with ⟨hsame, hnil | hzero⟩ | ⟨_, hset⟩
      · rw [hnil] at hflushed
        exact absurd hflushed not_mem_nil
      · have := hw.sentZero hzero
        omega
      · omega
  sentZero := by
    intro hzero
    have hgrows : Grows w.nextid (fun _ => True) w w' := Grows.handleStep (fun _ _ => trivial) h
    rw [hgrows.sent] at hzero
    rcases h.lastid with ⟨hsame, _⟩ | ⟨hne, _⟩
    · exact hsame.trans (hw.sentZero hzero)
    · exact absurd hzero hne
  memory := hw.memory_handleStep h
  memoryDatabase hstate x hx := hw.memoryDatabase_handleStep h hstate hx
  known x hx := hw.known_handleStep h hx
  finished x hx := hw.finished_handleStep h hx
  closing k x hx := hw.closing_handleStep h k hx
  sender := by
    have hgrows : Grows w.nextid (· ∈ flushedRows w e) w w' := Grows.handleStep (fun _ hy => hy) h
    exact hw.sender.of_grows hgrows hw.stored.bound.sender fun x hx => (hahead x hx).2

variable {s : Sender}

theorem SenderOk.withSender {s' : Sender} (h : SenderOk w s) :
    SenderOk { w with sender := s' } s := by
  cases s with
  | idle => trivial
  | uploaded b => trivial
  | dbSource offset => exact h
  | reading r
  | waiting r k => exact ⟨⟨h.1.source, h.1.table, h.1.pending, h.1.rows, h.1.exported⟩, h.2⟩
  | gap r => exact ⟨h.source, h.table, h.pending, h.rows, h.exported⟩
  | uploading b => exact ⟨h.table, h.pending, h.memory⟩
  | acking b source => exact h

theorem Delivers.withSender (hw : Delivers w) (hwithin : s.Within w.nextid) (hs : SenderOk w s) :
    Delivers { w with sender := s } where
  stored := hw.stored.withSender hwithin
  ahead := hw.ahead
  sentZero := hw.sentZero
  memory := hw.memory
  memoryDatabase := hw.memoryDatabase
  known := hw.known
  finished := hw.finished
  closing := hw.closing
  sender := hs.withSender

theorem getPbSrc_eq_memory :
    getPbSrc state = .memory ↔ state = .memory ∨ state = .memoryDatabase := by
  cases state <;> simp [getPbSrc]

theorem getPbSrc_ne_memory : getPbSrc state ≠ .memory ↔ getPbSrc state = .database := by
  cases state <;> simp [getPbSrc]

theorem Delivers.batchOk_getMem (hw : Delivers w) (a : ExportArgs) (offset : ℕ)
    (hsrc : getPbSrc w.pb.state = .memory) : BatchOk w (pbHistoryGetMem a w.pb offset) := by
  have hcovers := pbHistoryGetMem_covers a w.pb offset hw.stored.history_ascending
    hw.stored.history_pos
  have habove : ∀ x, Outstanding w x → (pbHistoryGetMem a w.pb offset).lastid < x.id := by
    intro x hx
    rcases hcovers.lastid with hzero | ⟨y, hy, hlast⟩
    · have := (hw.ahead x hx).1
      omega
    · rcases getPbSrc_eq_memory.mp hsrc with hmem | hmd
      · exact absurd hx ((hw.memory hmem).2 x)
      · rw [hlast]
        exact hw.memoryDatabase hmd x hx y hy
  refine ⟨fun x hx hle => .inl ?_, fun h x hx => habove x (.inr ⟨h, hx⟩),
    fun _ x hx hle => ⟨x, hcovers.complete x hx hle, rfl⟩⟩
  by_contra hacked
  have := habove x (.inl ⟨hx, hacked⟩)
  omega

theorem Delivers.readerOk_start (hw : Delivers w) (hsrc : getPbSrc w.pb.state = .database)
    (offset : ℕ) :
    ReaderOk w ⟨w.db.historyLastid, 0, [], [], 0, 0, offset⟩ where
  source := hsrc
  table x hx hle := by
    refine .inl ?_
    by_contra hacked
    have := (hw.ahead x (.inl ⟨hx, hacked⟩)).2
    dsimp only at hle
    omega
  pending h x hx := (hw.ahead x (.inr ⟨h, hx⟩)).2
  rows := by simp
  exported := Nat.zero_le _

theorem ReaderOk.fetch (hw : Stored w n) (hr : ReaderOk w r)
    (hgap : ∀ h, ∀ x ∈ (w.handles h).pending, r.gapid ≤ x.id) :
    ReaderOk w (fetchRows r (selectRows w.db r)).1 := by
  have hkeeps := fetchRows_keeps r (selectRows w.db r)
  have hrows := fetchRows_rows r (selectRows w.db r)
  have hge : ∀ y ∈ selectRows w.db r, r.lastid ≤ y.id := fun y hy => (mem_selectRows hy).2.le
  have hmono : r.lastid ≤ (fetchRows r (selectRows w.db r)).1.lastid := le_fetchRows_lastid hge
  refine ⟨hr.source, ?_, ?_, ?_, ?_⟩
  · intro x hx hle
    rw [hkeeps.1]
    by_cases hold : x.id ≤ r.lastid
    · refine (hr.table x hx hold).imp id fun ⟨y, hy, hid⟩ => ⟨y, ?_, hid⟩
      exact (mem_append.mp hy).elim (mem_append_left _)
        fun hmem => mem_append_right _ (hrows.2.1 y hmem)
    · obtain ⟨y, hy, hid⟩ := fetchRows_selectRows_complete hx (by omega) hle
      exact .inr ⟨y, mem_append_right _ hy, hid⟩
  · intro h x hx
    refine fetchRows_stops (hr.pending h x hx) (hgap h x hx) fun y hy => ?_
    exact (hw.distinct.pending_table h x hx y (mem_selectRows hy).1).symm
  · intro x hx
    rcases fetchRows_within (selectRows_sorted w.db r) hge hx with hold | hle
    · exact (hr.rows x hold).trans hmono
    · exact hle
  · rw [hkeeps.2.1]
    exact hr.exported.trans hmono

theorem ReaderOk.covered (hr : ReaderOk w r) {lastid : ℕ} (hle : lastid ≤ r.lastid)
    (hx : x ∈ w.db.proxyHistory) (hxle : x.id ≤ lastid) :
    x.id ∈ w.acked ∨ ∃ y ∈ r.batch ++ coveredRows r.rows lastid, y.id = x.id := by
  refine (hr.table x hx (hxle.trans hle)).imp id fun ⟨y, hy, hid⟩ => ⟨y, ?_, hid⟩
  rcases mem_append.mp hy with hbatch | hrow
  · exact mem_append_left _ hbatch
  · exact mem_append_right _ (mem_coveredRows.mpr ⟨hrow, hid ▸ hxle⟩)

theorem ReaderOk.finishRound (hr : ReaderOk w r) (a : ExportArgs) :
    SenderOk w (finishRound a r) := by
  have hbatch : ∀ lastid more, lastid ≤ r.lastid →
      BatchOk w ⟨lastid, r.batch ++ coveredRows r.rows lastid, more⟩ := by
    intro lastid more hle
    refine ⟨fun x hx hxle => hr.covered hle hx hxle,
      fun h x hx => hle.trans_lt (hr.pending h x hx), fun hsrc => ?_⟩
    exact absurd (hsrc.symm.trans hr.source) (by decide)
  unfold ProxyBuffer.finishRound
  dsimp only
  split_ifs with hnil hshort hmore
  · have hempty := hbatch r.exported false hr.exported
    rw [hnil] at hempty
    simpa [coveredRows, SenderOk] using hempty
  all_goals
    obtain ⟨y, hy, hlast⟩ := pbHistoryExport_lastid a ⟨r.recordsNum, r.offset, r.exported⟩ hnil
    have hle : (pbHistoryExport a ⟨r.recordsNum, r.offset, r.exported⟩ r.rows).lastid ≤
      r.lastid := hlast ▸ hr.rows y hy
  · exact hbatch _ _ hle
  · refine ⟨⟨hr.source, fun x hx hxle => ?_, fun h x hx => hle.trans_lt (hr.pending h x hx),
      by simp, le_rfl⟩, fun h x hx => Nat.zero_le _⟩
    simpa using hr.covered hle hx hxle
  · exact hbatch _ _ hle

theorem le_foldl_max {l : List ℕ} {m : ℕ} (h : k ≤ m ∨ k ∈ l) : k ≤ l.foldl max m := by
  induction l generalizing m with
  | nil => simpa using h
  | cons a l ih =>
    rw [foldl_cons]
    refine ih ?_
    rcases h with hle | hmem
    · exact .inl (hle.trans (le_max_left _ _))
    · rcases mem_cons.mp hmem with rfl | hrest
      · exact .inl (le_max_right _ _)
      · exact .inr hrest

theorem Registered.listed_of_pending (hw : Registered w) (hx : x ∈ (w.handles h).pending) :
    h ∈ w.pb.historyHandleids := by
  refine hw.listed h fun hclosed => ?_
  simp [hclosed, Handle.pending] at hx

theorem Delivers.select (hw : Delivers w) (a : ExportArgs) (hs : w.sender = .reading r) :
    Delivers { w with sender := selectStep a w.db r } := by
  have hwithin := hw.stored.bound.sender
  have hok := hw.sender
  rw [hs] at hwithin hok
  have hfetch := hwithin.fetch hw.stored
  have hreader := ReaderOk.fetch hw.stored hok.1 hok.2
  unfold selectStep
  split
  · next r' hgap =>
    rw [hgap] at hfetch hreader
    exact hw.withSender hfetch hreader
  · next r' hnogap =>
    rw [hnogap] at hfetch hreader
    exact hw.withSender (hfetch.finishRound a (hreader.exported.trans hfetch.1))
      (hreader.finishRound a)

theorem Delivers.waitHandles (hw : Delivers w) (hs : w.sender = .gap r) :
    Delivers (pbWaitHandles w r) := by
  have hwithin := hw.stored.bound.sender
  have hok := hw.sender
  rw [hs] at hwithin hok
  refine hw.withSender (s := .waiting r _) hwithin ⟨hok, fun h x hx _ => ?_⟩
  exact le_foldl_max (.inr (hw.stored.registered.listed_of_pending hx))

theorem Delivers.handlesClosed (hw : Delivers w) (hs : w.sender = .waiting r k)
    (hclosed : ∀ h ∈ w.pb.historyHandleids, k < h) :
    Delivers { w with sender := .reading r } := by
  have hwithin := hw.stored.bound.sender
  have hok := hw.sender
  rw [hs] at hwithin hok
  refine hw.withSender hwithin ⟨hok.1, fun h x hx => ?_⟩
  by_contra hlt
  have hopen := hclosed h (hw.stored.registered.listed_of_pending hx)
  have := hok.2 h x hx (by omega)
  omega

theorem zbxPbSetHistoryLastid_history (w : World) (b : Batch) :
    (zbxPbSetHistoryLastid w b).pb.history =
      if getPbSrc w.pb.state = .memory then w.pb.history.dropWhile (·.id ≤ b.lastid)
      else w.pb.history := by
  unfold zbxPbSetHistoryLastid
  dsimp only
  split_ifs <;> rfl

theorem Placed.setHistoryLastid (hb : BatchOk w b) (hx : Placed w x) :
    Placed (zbxPbSetHistoryLastid w b) x := by
  rcases hx with hacked | hdropped | hhistory | htable
  · exact .inl (mem_append_left _ hacked)
  · exact .inr (.inl hdropped)
  · by_cases hsrc : getPbSrc w.pb.state = .memory
    · by_cases hle : x.id ≤ b.lastid
      · obtain ⟨y, hy, hid⟩ := hb.memory hsrc x hhistory hle
        exact .inl (mem_append_right _ (hid ▸ mem_map_of_mem hy))
      · refine .inr (.inr (.inl ?_))
        rw [zbxPbSetHistoryLastid_history, if_pos hsrc]
        exact mem_dropWhile_of_not hhistory (by simpa using hle)
    · refine .inr (.inr (.inl ?_))
      rw [zbxPbSetHistoryLastid_history, if_neg hsrc]
      exact hhistory
  · exact .inr (.inr (.inr htable))

theorem zbxPbSetHistoryLastid_keeps (w : World) (b : Batch) :
    (zbxPbSetHistoryLastid w b).pb.state = w.pb.state ∧
      (zbxPbSetHistoryLastid w b).pb.dbHandlesNum = w.pb.dbHandlesNum ∧
      (zbxPbSetHistoryLastid w b).pb.historyLastidDb = w.pb.historyLastidDb ∧
      (zbxPbSetHistoryLastid w b).pb.historyLastidSent = b.lastid ∧
      Sublist (zbxPbSetHistoryLastid w b).pb.history w.pb.history := by
  unfold zbxPbSetHistoryLastid
  dsimp only
  split_ifs
  · exact ⟨rfl, rfl, rfl, rfl, dropWhile_sublist _⟩
  · exact ⟨rfl, rfl, rfl, rfl, Sublist.refl _⟩

theorem Outstanding.of_setHistoryLastid (hx : Outstanding (zbxPbSetHistoryLastid w b) x)
    (hb : BatchOk w b) :
    Outstanding w x ∧ b.lastid < x.id := by
  rcases hx with ⟨htable, hacked⟩ | ⟨h, hpending⟩
  · have hold : x.id ∉ w.acked := fun hmem => hacked (mem_append_left _ hmem)
    refine ⟨.inl ⟨htable, hold⟩, ?_⟩
    by_contra hle
    rcases hb.table x htable (by omega) with hmem | ⟨y, hy, hid⟩
    · exact hold hmem
    · exact hacked (mem_append_right _ (hid ▸ mem_map_of_mem hy))
  · exact ⟨.inr ⟨h, hpending⟩, hb.pending h x hpending⟩

variable (hw : Delivers w)

include hw

theorem Delivers.setHistoryLastid (hs : w.sender = .uploading b) (hne : b.lastid ≠ 0) :
    Delivers (zbxPbSetHistoryLastid w b) := by
  have hwithin := hw.stored.bound.sender
  have hb := hw.sender
  rw [hs] at hwithin hb
  obtain ⟨hstate, hnum, hlastdb, hsent, hsub⟩ := zbxPbSetHistoryLastid_keeps w b
  have hback : ∀ x, Outstanding (zbxPbSetHistoryLastid w b) x →
      Outstanding w x ∧ b.lastid < x.id := fun x hx => hx.of_setHistoryLastid hb
  exact
    { stored := hw.stored.setHistoryLastid hwithin
      ahead := by
        intro x hx
        rw [hsent]
        exact ⟨(hback x hx).2, (hw.ahead x (hback x hx).1).2⟩
      sentZero := by
        intro hzero
        exact absurd (hsent.symm.trans hzero) hne
      memory := by
        intro hmem
        rw [hstate] at hmem
        rw [hnum]
        exact ⟨(hw.memory hmem).1, fun x hx => (hw.memory hmem).2 x (hback x hx).1⟩
      memoryDatabase := by
        intro hmd x hx y hy
        rw [hstate] at hmd
        exact hw.memoryDatabase hmd x (hback x hx).1 y (hsub.mem hy)
      known := fun x hx => (hw.known x hx).mono hlastdb.ge fun _ _ _ hk => hk
      finished := fun x hx => (hw.finished x hx).setHistoryLastid hb
      closing := fun h x hx => (hw.closing h x hx).imp (Placed.setHistoryLastid hb) id
      sender := ⟨hsent, hne⟩ }

theorem Delivers.withLastid (lastid : ℕ) (state : PbState) (hs : s = .idle ∨ ∃ b, s = .uploaded b)
    (hlastid : lastid = w.db.historyLastid ∨
      w.pb.historyLastidSent ≠ 0 ∧ lastid = w.pb.historyLastidSent)
    (hempty : state = .database → w.pb.history = [])
    (hmem : state = .memory → w.pb.dbHandlesNum = 0 ∧ ∀ x, ¬ Outstanding w x)
    (hmd : state = .memoryDatabase → w.pb.state = .memoryDatabase) :
    Delivers { w with
      pb := pbSetState w.pb state
      db := { w.db with historyLastid := lastid }
      sender := s } where
  stored := by
    refine hw.stored.withLastid ?_ ?_ hempty
    · rcases hs with rfl | ⟨b, rfl⟩ <;> trivial
    · rcases hlastid with rfl | ⟨_, rfl⟩
      · exact hw.stored.bound.lastid
      · exact hw.stored.bound.sent
  ahead x hx := by
    have hold := hw.ahead x hx
    refine ⟨hold.1, ?_⟩
    rcases hlastid with rfl | ⟨_, rfl⟩
    · exact hold.2
    · exact hold.1
  sentZero hzero := by
    rcases hlastid with rfl | ⟨hne, _⟩
    · exact hw.sentZero hzero
    · exact absurd hzero hne
  memory := hmem
  memoryDatabase hstate := hw.memoryDatabase (hmd hstate)
  known := hw.known
  finished := hw.finished
  closing := hw.closing
  sender := by rcases hs with rfl | ⟨b, rfl⟩ <;> trivial

theorem Delivers.setLastidDb {source : PbState} (hs : w.sender = .acking b source) :
    Delivers (pbHistorySetLastid w b source) := by
  have hok := hw.sender
  rw [hs] at hok
  have hset := hw.withLastid (if source = .database then b.lastid else w.db.historyLastid)
    w.pb.state (s := .uploaded b) (.inr ⟨b, rfl⟩)
    (by
      split_ifs
      · exact .inr ⟨hok.1 ▸ hok.2, hok.1.symm⟩
      · exact .inl rfl)
    hw.stored.database_empty hw.memory id
  unfold pbHistorySetLastid
  split_ifs at hset ⊢
  · exact hset
  · exact hset

theorem Delivers.updateState (a : UpdateArgs) : Delivers (zbxPbUpdateState w a) := by
  have hsame : Delivers { w with sender := .idle } := hw.withSender trivial trivial
  unfold zbxPbUpdateState pbUpdateState
  split
  · exact hsame
  · next hstate =>
    by_cases hempty : w.pb.history = [] ∧ a.othersMem = false
    · rw [if_pos hempty]
      refine hw.withLastid _ .database (.inl rfl) ?_ (fun _ => hempty.1) (by simp) (by simp)
      by_cases hsent : w.pb.historyLastidSent ≠ 0
      · rw [if_pos hsent]
        exact .inr ⟨hsent, rfl⟩
      · rw [if_neg hsent]
        exact .inl rfl
    · rw [if_neg hempty]
      exact hsame
  · split_ifs with hmore
    · exact hw.withLastid _ .databaseMemory (.inl rfl) (.inl rfl) (by simp) (by simp) (by simp)
    · exact hsame
  · split_ifs with hall
    · refine hw.withLastid _ .memory (.inl rfl) (.inl rfl) (by simp) (fun _ => ?_) (by simp)
      refine ⟨hall.1, ?_⟩
      rintro x (⟨htable, hacked⟩ | ⟨k, hk⟩)
      · have hahead := (hw.ahead x (.inl ⟨htable, hacked⟩)).1
        rcases hw.known x htable with hle | ⟨k, rows, lastid, hk, _⟩
        · have := hall.2.2
          omega
        · have := hw.stored.registered.usesDb_eq_false hall.1 k
          simp [hk, Handle.usesDb] at this
      · simp [hw.stored.registered.pending_eq_nil hall.1 k] at hk
    · exact hsame

theorem Delivers.senderStep (h : SenderStep w e w') : Delivers w' := by
  have hwithin := hw.stored.bound.sender
  have hok := hw.sender
  cases h with
  | getRows a offset hs =>
    unfold zbxPbHistoryGetRows
    split_ifs with hsrc
    · exact hw.withSender (Sender.Within.getMem hw.stored a offset)
        (hw.batchOk_getMem a offset hsrc)
    · exact hw.withSender trivial (getPbSrc_ne_memory.mp hsrc)
  | @getLastid offset hs =>
    rw [hs] at hok
    have hstart := hw.readerOk_start hok offset
    unfold pbGetLastid
    split_ifs
    · exact hw.withSender ⟨hw.stored.bound.lastid, Nat.zero_le _, by simp⟩
        ⟨hstart, fun h x hx => Nat.zero_le _⟩
    · refine hw.withSender ⟨Nat.zero_le _, by simp⟩ ⟨fun x hx hle => ?_, fun h x hx => ?_, ?_⟩
      · exact (hstart.table x hx (hle.trans (Nat.zero_le _))).imp id (by simp)
      · exact (Nat.zero_le _).trans_lt (hstart.pending h x hx)
      · exact fun hsrc => absurd (hsrc.symm.trans hok) (by decide)
  | select a hs => exact hw.select a hs
  | waitHandles hs => exact hw.waitHandles hs
  | handlesClosed hs hclosed => exact hw.handlesClosed hs hclosed
  | uploadFailed hs | uploadSucceeded hs hzero => exact hw.withSender trivial trivial
  | setHistoryLastid hs hne => exact hw.setHistoryLastid hs hne
  | setLastidDb hs => exact hw.setLastidDb hs
  | updateState a hs hmore => exact hw.updateState a
  | skipUpdate hs => exact hw.withSender trivial trivial

theorem Delivers.step (hahead : FlushesAhead w e) (h : step w e = some w') : Delivers w' := by
  cases hs : e.ofSender with
  | false => exact hw.handleStep hahead (handleStep_of_step hs h)
  | true => exact hw.senderStep (senderStep_of_step hs h)

omit hw

theorem delivers_pbInitState (db : Db) (maxAge offlineBuffer : ℤ) (othersUnsent : Bool) :
    Delivers (pbInitState db maxAge offlineBuffer othersUnsent) := by
  have habove : ∀ x, Outstanding (pbInitState db maxAge offlineBuffer othersUnsent) x →
      x ∈ db.proxyHistory ∧ pbCheckUnsentRows db < x.id := by
    rintro x (⟨htable, hacked⟩ | ⟨h, hpending⟩)
    · refine ⟨htable, ?_⟩
      by_contra hle
      exact hacked (mem_map_of_mem (mem_coveredRows.mpr ⟨htable, by omega⟩))
    · simp [pbInitState, Handle.pending] at hpending
  refine ⟨stored_pbInitState db maxAge offlineBuffer othersUnsent, ?_, id, ?_, ?_, ?_, ?_, ?_,
    trivial⟩
  · exact fun x hx => ⟨(habove x hx).2, (habove x hx).2⟩
  · intro hmem
    refine ⟨rfl, fun x hx => ?_⟩
    obtain ⟨htable, hlt⟩ := habove x hx
    have hmax := le_maxRowId htable
    have hlow : pbCheckUnsentRows db < maxRowId db.proxyHistory := by omega
    simp [pbInitState, hlow] at hmem
  · intro _ x _ y hy
    simp [pbInitState] at hy
  · exact fun x hx => .inl (le_maxRowId hx)
  · exact fun x hx => .inr (.inr (.inr hx))
  · simp [pbInitState, Handle.closing]

/-- In every run whose fallbacks write ahead of what has been sent and read, each row of a
closed handle that was neither acknowledged nor dropped is still deliverable. -/
theorem finished_deliverable {w : World} (h : Reach Init step FlushesAhead w) :
    ∀ x ∈ w.finished, Deliverable w x := by
  have hinv : Delivers w := by
    refine h.invariant ?_ fun _ _ _ hw hok hstep => hw.step hok hstep
    rintro _ ⟨db, maxAge, offlineBuffer, othersUnsent, _, _, rfl⟩
    exact delivers_pbInitState db maxAge offlineBuffer othersUnsent
  exact fun x hx => hinv.deliverable hx

/-! A run with a fallback that writes ahead, and one in which a row of memory that is older
than the last sent row is flushed to the database. -/

instance (w : World) (x : PbHistory) : Decidable (Deliverable w x) :=
  inferInstanceAs (Decidable (_ ∨ _ ∨ _ ∨ _))

instance (w : World) (e : Event) : Decidable (FlushesAhead w e) :=
  inferInstanceAs (Decidable (∀ x ∈ flushedRows w e, _))

def unsentStart : World := pbInitState ⟨[⟨1, 1, 0, 0, "", ""⟩], 0⟩ 0 0 false

theorem init_unsentStart : Init unsentStart := ⟨_, _, _, _, by decide, by decide, rfl⟩

def exportAll : ExportArgs := ⟨fun _ => true, fun _ _ => 1⟩

def mixedRun : List Event :=
  [.openHandle, .writeValue 1 ⟨0, 1, 0, 0, "a", ""⟩,
    .getRows exportAll 0, .getLastid, .select exportAll, .setHistoryLastid, .setLastidDb,
    .updateState ⟨false, false, true⟩,
    .openHandle, .writeValue 2 ⟨0, 1, 0, 0, "b", ""⟩, .closeMemory 2 ⟨0, 0, 1, false⟩]

def noSpaceRun : List Event :=
  [.openHandle, .writeValue 3 ⟨0, 1, 0, 0, "c", ""⟩, .closeMemory 3 ⟨0, 0, 0, false⟩]

def overtakingRun : List Event :=
  [.autoincrement 1, .commit 1, .closeFinal 1,
    .getRows exportAll 0, .getLastid, .select exportAll, .waitHandles, .handlesClosed,
    .select exportAll, .setHistoryLastid, .setLastidDb, .skipUpdate]

theorem finished_deliverable_mixedRun :
    ∃ w, Reach Init step FlushesAhead w ∧ w.finished.length = 2 ∧
      ∀ x ∈ w.finished, Deliverable w x := by
  have hstart : Reach Init step FlushesAhead unsentStart := .start init_unsentStart
  have hguarded : Guarded step FlushesAhead unsentStart (mixedRun ++ noSpaceRun) := by
    decide +kernel
  have hend : (run step unsentStart (mixedRun ++ noSpaceRun)).any
      (fun w => w.finished.length = 2) = true := by decide +kernel
  obtain ⟨w, hw, hlen⟩ := hstart.exists_of_run hguarded hend
  exact ⟨w, hw, of_decide_eq_true hlen, finished_deliverable hw⟩

theorem finished_not_deliverable :
    ¬ ∀ w, Reach Init step anyEvent w → ∀ x ∈ w.finished, Deliverable w x := by
  intro hall
  have hstart : Reach Init step anyEvent unsentStart := .start init_unsentStart
  have hend : (run step unsentStart (mixedRun ++ overtakingRun ++ noSpaceRun)).any
      (fun w => ∃ x ∈ w.finished, ¬ Deliverable w x) = true := by decide +kernel
  obtain ⟨w, hw, hlost⟩ := hstart.exists_of_run (guarded_anyEvent _ _) hend
  obtain ⟨x, hx, hnot⟩ := of_decide_eq_true hlost
  exact hnot (hall w hw x hx)

end Zabbix.ProxyBuffer
