import Zabbix.ProxyBuffer.Delivery

/-!
# No row is sent again after its acknowledgement

The rows of the table up to `history_lastid` are the acknowledged ones. The data sender
does not return them again as long as that id is never written with a smaller value.
-/

namespace Zabbix.ProxyBuffer

open List Transition

variable {w w' : World} {e : Event} {F : PbHistory → Prop} {r : Reader} {b : Batch} {s : Sender}

def flushedLastid (pb : Pb) : Option ℕ :=
  if pb.historyLastidSent ≠ 0 then some pb.historyLastidSent else none

def closeFlushesLastids (w : World) (rows : List PbHistory) (a : CloseArgs) : Prop :=
  rows ≠ [] ∧
    (w.pb.state = .memory ∧ pbHistoryAgeOk w.pb a.now a.now' = false ∧
        (freshRows w.pb a.now ≠ [] ∨ a.others = true) ∨
      w.pb.state = .databaseMemory ∧ a.fit < rows.length ∧
        (w.pb.history ++ (closedRows w rows).take a.fit ≠ [] ∨ a.others = true))

instance (w : World) (rows : List PbHistory) (a : CloseArgs) :
    Decidable (closeFlushesLastids w rows a) :=
  inferInstanceAs (Decidable (_ ∧ _))

def writtenLastid (w : World) : Event → Option ℕ
  | .closeMemory h a =>
    match w.handles h with
    | .opened .memory rows => if closeFlushesLastids w rows a then flushedLastid w.pb else none
    | _ => none
  | .otherFallback others => if w.pb.history ≠ [] ∨ others = true then flushedLastid w.pb else none
  | .setLastidDb =>
    match w.sender with
    | .acking b .database => some b.lastid
    | _ => none
  | .updateState a =>
    if w.pb.state = .memoryDatabase ∧ w.pb.history = [] ∧ a.othersMem = false then
      flushedLastid w.pb
    else none
  | _ => none

def KeepsLastid (w : World) (e : Event) : Prop :=
  ∀ lastid ∈ writtenLastid w e, w.db.historyLastid ≤ lastid

theorem fallback_historyLastid (w : World) (others : Bool) :
    (fallback w others).db.historyLastid =
      (if w.pb.history ≠ [] ∨ others = true then flushedLastid w.pb else none).getD
        w.db.historyLastid := by
  unfold fallback pdFallbackToDatabase pbFlush flushedLastid
  dsimp only
  split_ifs <;> rfl

theorem closesTo_historyLastid {h : ℕ} {rows : List PbHistory} {a : CloseArgs}
    (hclose : ClosesTo w h rows a w') :
    w'.db.historyLastid =
      (if closeFlushesLastids w rows a then flushedLastid w.pb else none).getD
        w.db.historyLastid := by
  cases hclose with
  | empty hrows => simp [closeFlushesLastids, hrows, finishClose]
  | direct hrows hdst =>
    have hno : ¬ closeFlushesLastids w rows a := by
      rintro ⟨_, ⟨hmem, _⟩ | ⟨hdm, _⟩⟩
      · simp [hmem, getPbDst] at hdst
      · simp [hdm, getPbDst] at hdst
    simp [hno, startInsert, advanceId]
  | keptMemory hrows hmem hage hfit =>
    have hno : ¬ closeFlushesLastids w rows a := by simp [closeFlushesLastids, hmem, hage]
    simp [hno, finishClose, addToMemory, dropAged, advanceId]
  | keptDatabaseMemory hrows hdm hfit =>
    have hle : rows.length ≤ a.fit := by simpa [closedRows] using hfit
    have hno : ¬ closeFlushesLastids w rows a := by simp [closeFlushesLastids, hdm, hle]
    simp [hno, finishClose, addToMemory, advanceId]
  | noSpaceMemory v hrows hmem hage hv =>
    have hno : ¬ closeFlushesLastids w rows a := by simp [closeFlushesLastids, hmem, hage]
    subst hv
    simp [hno, startInsert, addToMemory, dropAged, advanceId]
  | noSpaceDatabaseMemory hrows hdm hfit =>
    have hlt : a.fit < rows.length := by
      by_contra hle
      exact hfit (by simpa [closedRows] using hle)
    refine (fallback_historyLastid _ a.others).trans ?_
    simp [closeFlushesLastids, hrows, hdm, hlt, addToMemory, pbHistoryAddRowsMem, advanceId,
      flushedLastid]
  | tooOld hrows hmem hage =>
    have hcond : closeFlushesLastids w rows a ↔ freshRows w.pb a.now ≠ [] ∨ a.others = true := by
      simp [closeFlushesLastids, hrows, hmem, hage]
    simp only [hcond]
    exact fallback_historyLastid (dropAged (advanceId w rows.length) a.now) a.others

theorem HandleStep.historyLastid (h : HandleStep w e w') :
    w'.db.historyLastid = (writtenLastid w e).getD w.db.historyLastid := by
  cases h with
  | openHandle => rfl
  | writeValue row hh => rfl
  | autoincrement hh => rfl
  | commit hh => rfl
  | closeFinal hh => rfl
  | otherNoSpace _ => rfl
  | otherFallback others _ => exact fallback_historyLastid w others
  | closeMemory hh hclose =>
    simp only [writtenLastid, hh]
    exact closesTo_historyLastid hclose

theorem KeepsLastid.le (hkeep : KeepsLastid w e)
    (h : w'.db.historyLastid = (writtenLastid w e).getD w.db.historyLastid) :
    w.db.historyLastid ≤ w'.db.historyLastid := by
  cases hwritten : writtenLastid w e with
  | none => simp [h, hwritten]
  | some lastid =>
    have := hkeep lastid hwritten
    simpa [h, hwritten] using this

structure ReaderNew (w : World) (r : Reader) : Prop where
  source : getPbSrc w.pb.state = .database
  fromTable : ∀ x ∈ r.batch ++ r.rows, x ∈ w.db.proxyHistory
  unsent : ∀ x ∈ r.batch ++ r.rows, x.id ∉ w.acked
  behind : ∀ x ∈ w.db.proxyHistory, x.id ∈ w.acked → x.id ≤ r.lastid ∧ ∀ y ∈ r.rows, x.id ≤ y.id
  batch : ∀ x ∈ r.batch, x.id ≤ r.exported
  exported : r.exported ≤ r.lastid ∧ ∀ y ∈ r.rows, r.exported ≤ y.id

structure BatchNew (w : World) (b : Batch) : Prop where
  unsent : ∀ x ∈ b.rows, x.id ∉ w.acked
  within : ∀ x ∈ b.rows, x.id ≤ b.lastid
  pending : ∀ x ∈ b.rows, ∀ h, ∀ y ∈ (w.handles h).pending, x.id ≠ y.id
  history : getPbSrc w.pb.state = .database → ∀ x ∈ b.rows, ∀ y ∈ w.pb.history, x.id ≠ y.id
  table : getPbSrc w.pb.state = .memory → ∀ x ∈ b.rows, ∀ y ∈ w.db.proxyHistory, x.id ≠ y.id

def SenderNew (w : World) : Sender → Prop
  | .dbSource _ => getPbSrc w.pb.state = .database
  | .reading r | .gap r | .waiting r _ => ReaderNew w r
  | .uploading b => BatchNew w b
  | .idle | .acking _ _ | .uploaded _ => True

def Passed (w : World) (x : PbHistory) : Prop :=
  x.id ≤ w.db.historyLastid ∨ ∃ b, w.sender = .acking b .database ∧ x.id ≤ b.lastid

structure NoResend (w : World) : Prop where
  stored : Stored w w.nextid
  history : ∀ x ∈ w.pb.history, x.id ∉ w.acked
  pending : ∀ h, ∀ x ∈ (w.handles h).pending, x.id ∉ w.acked
  table : ∀ x ∈ w.db.proxyHistory, x.id ∈ w.acked → Passed w x
  sender : SenderNew w w.sender

theorem HandleStep.databaseMemory (h : HandleStep w e w') (hstate : w'.pb.state = .databaseMemory) :
    w.pb.state = .databaseMemory := by
  cases h with
  | openHandle => exact (zbxPbHistoryOpen_keeps w).2.1 ▸ hstate
  | writeValue row hh => exact hstate
  | autoincrement hh => exact hstate
  | commit hh => exact hstate
  | closeFinal hh => exact hstate
  | otherFallback others _ => exact absurd hstate (by simp)
  | otherNoSpace _ => exact absurd hstate (by simp [pbSetState])
  | closeMemory hh hclose =>
    cases hclose with
    | empty _ => exact hstate
    | direct _ _ => exact hstate
    | keptMemory _ _ _ _ => exact hstate
    | keptDatabaseMemory _ _ _ => exact hstate
    | noSpaceMemory v _ _ _ hv => exact absurd hstate (by simp [startInsert, pbSetState])
    | noSpaceDatabaseMemory _ hdm _ => exact hdm
    | tooOld _ _ _ => exact absurd hstate (by simp [startInsert])

variable (hw : NoResend w)

include hw

theorem NoResend.acked_of_grows (hg : Grows w.nextid F w w') {x : PbHistory}
    (hx : x ∈ w'.db.proxyHistory) (hacked : x.id ∈ w'.acked) :
    x ∈ w.db.proxyHistory ∧ x.id ∈ w.acked := by
  rw [hg.acked] at hacked
  rcases hg.table x hx with hold | ⟨h, hpending⟩ | hnew | ⟨hhistory, _⟩
  · exact ⟨hold, hacked⟩
  · exact absurd hacked (hw.pending h x hpending)
  · have := hw.stored.bound.acked _ hacked
    omega
  · exact absurd hacked (hw.history x hhistory)

theorem ReaderNew.of_grows (hg : Grows w.nextid F w w') (h : ReaderNew w r) :
    ReaderNew w' r where
  source := hg.source h.source
  fromTable x hx := hg.tableKept x (h.fromTable x hx)
  unsent := hg.acked ▸ h.unsent
  behind x hx hacked := by
    obtain ⟨hold, hackedOld⟩ := hw.acked_of_grows hg hx hacked
    exact h.behind x hold hackedOld
  batch := h.batch
  exported := h.exported

theorem BatchNew.of_handleStep (hs : w.sender = .uploading b) (hstep : HandleStep w e w')
    (h : BatchNew w b) :
    BatchNew w' b := by
  have hg : Grows w.nextid (fun _ => True) w w' := Grows.handleStep (fun _ _ => trivial) hstep
  have hbound := hw.stored.bound.sender
  rw [hs] at hbound
  refine ⟨hg.acked ▸ h.unsent, h.within, fun x hx k y hy => ?_, fun hsrc x hx y hy => ?_,
    fun hsrc x hx y hy => ?_⟩
  · rcases hg.pending k y hy with hold | hnew
    · exact h.pending x hx k y hold
    · have := hbound.2 x hx
      omega
  · by_cases hold : getPbSrc w.pb.state = .database
    · rcases hg.history y hy with hmem | hnew
      · exact h.history hold x hx y hmem
      · have := hbound.2 x hx
        omega
    · have hdb : w'.pb.state = .database := by
        cases hs' : w'.pb.state with
        | database => rfl
        | databaseMemory => exact absurd (by rw [hstep.databaseMemory hs']; rfl) hold
        | memory | memoryDatabase => simp [hs', getPbSrc] at hsrc
      have hempty := (hw.stored.handleStep hstep).1.database_empty hdb
      rw [hempty] at hy
      exact absurd hy not_mem_nil
  · have hold : getPbSrc w.pb.state = .memory := by
      by_contra hne
      exact absurd (hsrc.symm.trans (hg.source (getPbSrc_ne_memory.mp hne))) (by decide)
    rcases hg.table y hy with hmem | ⟨k, hk⟩ | hnew | ⟨_, _, hdb⟩
    · exact h.table hold x hx y hmem
    · exact h.pending x hx k y hk
    · have := hbound.2 x hx
      omega
    · exact absurd (hsrc.symm.trans hdb) (by decide)

theorem NoResend.handleStep (hkeep : KeepsLastid w e) (h : HandleStep w e w') : NoResend w' := by
  have hg : Grows w.nextid (fun _ => True) w w' := Grows.handleStep (fun _ _ => trivial) h
  refine ⟨(hw.stored.handleStep h).1, fun x hx => ?_, fun k x hx => ?_, fun x hx hacked => ?_, ?_⟩
  · rw [hg.acked]
    rcases hg.history x hx with hold | hnew
    · exact hw.history x hold
    · intro hacked
      have := hw.stored.bound.acked _ hacked
      omega
  · rw [hg.acked]
    rcases hg.pending k x hx with hold | hnew
    · exact hw.pending k x hold
    · intro hacked
      have := hw.stored.bound.acked _ hacked
      omega
  · obtain ⟨hold, hackedOld⟩ := hw.acked_of_grows hg hx hacked
    rcases hw.table x hold hackedOld with hle | ⟨b, hs, hle⟩
    · exact .inl (hle.trans (hkeep.le h.historyLastid))
    · exact .inr ⟨b, hg.sender.trans hs, hle⟩
  · have hnew := hw.sender
    rw [hg.sender]
    cases hs : w.sender with
    | idle => trivial
    | uploaded b => trivial
    | acking b source => trivial
    | dbSource offset =>
      rw [hs] at hnew
      exact hg.source hnew
    | reading r | gap r | waiting r k =>
      rw [hs] at hnew
      exact ReaderNew.of_grows hw hg hnew
    | uploading b =>
      rw [hs] at hnew
      exact BatchNew.of_handleStep hw hs h hnew

omit hw

theorem SenderNew.withSender {s' : Sender} (h : SenderNew w s) :
    SenderNew { w with sender := s' } s := by
  have hreader : ∀ r, ReaderNew w r → ReaderNew { w with sender := s' } r := fun r hr =>
    ⟨hr.source, hr.fromTable, hr.unsent, hr.behind, hr.batch, hr.exported⟩
  cases s with
  | idle => trivial
  | uploaded b => trivial
  | acking b source => trivial
  | dbSource offset => exact h
  | reading r => exact hreader r h
  | gap r => exact hreader r h
  | waiting r k => exact hreader r h
  | uploading b => exact ⟨h.unsent, h.within, h.pending, h.history, h.table⟩

theorem NoResend.withSender (hw : NoResend w) (hwithin : s.Within w.nextid)
    (hnot : ∀ b, w.sender ≠ .acking b .database) (hs : SenderNew w s) :
    NoResend { w with sender := s } where
  stored := hw.stored.withSender hwithin
  history := hw.history
  pending := hw.pending
  table x hx hacked := by
    rcases hw.table x hx hacked with hle | ⟨b, hb, _⟩
    · exact .inl hle
    · exact absurd hb (hnot b)
  sender := hs.withSender

theorem NoResend.batchNew_getMem (hw : NoResend w) (a : ExportArgs) (offset : ℕ)
    (hsrc : getPbSrc w.pb.state = .memory) : BatchNew w (pbHistoryGetMem a w.pb offset) := by
  have hcovers := pbHistoryGetMem_covers a w.pb offset hw.stored.history_ascending
    hw.stored.history_pos
  refine ⟨fun x hx => hw.history x (hcovers.fromHistory x hx), hcovers.within,
    fun x hx => hw.stored.distinct.history_pending x (hcovers.fromHistory x hx),
    fun hdb => absurd (hsrc.symm.trans hdb) (by decide),
    fun _ x hx => hw.stored.distinct.history_table x (hcovers.fromHistory x hx)⟩

theorem ReaderNew.fetch (hr : ReaderNew w r) : ReaderNew w (fetchRows r (selectRows w.db r)).1 := by
  have hkeeps := fetchRows_keeps r (selectRows w.db r)
  have hrows := fetchRows_rows r (selectRows w.db r)
  have hsel : ∀ y ∈ selectRows w.db r, y ∈ w.db.proxyHistory ∧ r.lastid < y.id :=
    fun y hy => mem_selectRows hy
  have hmono : r.lastid ≤ (fetchRows r (selectRows w.db r)).1.lastid :=
    le_fetchRows_lastid fun y hy => (hsel y hy).2.le
  have hselUnsent : ∀ y ∈ selectRows w.db r, y.id ∉ w.acked := by
    intro y hy hacked
    have := (hr.behind y (hsel y hy).1 hacked).1
    have := (hsel y hy).2
    omega
  have hsplit : ∀ y ∈ (fetchRows r (selectRows w.db r)).1.batch ++
      (fetchRows r (selectRows w.db r)).1.rows, y ∈ r.batch ++ r.rows ∨ y ∈ selectRows w.db r := by
    intro y hy
    rw [hkeeps.1] at hy
    rcases mem_append.mp hy with hbatch | hrow
    · exact .inl (mem_append_left _ hbatch)
    · exact (hrows.1 y hrow).imp (mem_append_right _) id
  refine ⟨hr.source, fun x hx => ?_, fun x hx => ?_, fun x hx hacked => ⟨?_, fun y hy => ?_⟩, ?_,
    ?_, fun y hy => ?_⟩
  · exact (hsplit x hx).elim (hr.fromTable x) fun hmem => (hsel x hmem).1
  · exact (hsplit x hx).elim (hr.unsent x) (hselUnsent x)
  · exact (hr.behind x hx hacked).1.trans hmono
  · rcases hrows.1 y hy with hold | hnew
    · exact (hr.behind x hx hacked).2 y hold
    · exact (hr.behind x hx hacked).1.trans (hsel y hnew).2.le
  · rw [hkeeps.1, hkeeps.2.1]
    exact hr.batch
  · rw [hkeeps.2.1]
    exact hr.exported.1.trans hmono
  · rw [hkeeps.2.1]
    rcases hrows.1 y hy with hold | hnew
    · exact hr.exported.2 y hold
    · exact hr.exported.1.trans (hsel y hnew).2.le

theorem ReaderNew.finishRound {n : ℕ} (hw : Stored w n) (hr : ReaderNew w r) (a : ExportArgs) :
    SenderNew w (finishRound a r) := by
  -- a message with rows of the table up to its last id
  have hbatch : ∀ (rows : List PbHistory) lastid more, (∀ x ∈ rows, x ∈ r.batch ++ r.rows) →
      (∀ x ∈ rows, x.id ≤ lastid) → BatchNew w ⟨lastid, rows, more⟩ := by
    intro rows lastid more hfrom hle
    refine ⟨fun x hx => hr.unsent x (hfrom x hx), hle, fun x hx h y hy => ?_,
      fun _ x hx y hy => ?_, fun hsrc => ?_⟩
    · exact (hw.distinct.pending_table h y hy x (hr.fromTable x (hfrom x hx))).symm
    · exact (hw.distinct.history_table y hy x (hr.fromTable x (hfrom x hx))).symm
    · exact absurd (hsrc.symm.trans hr.source) (by decide)
  have hfrom : ∀ lastid, ∀ x ∈ r.batch ++ coveredRows r.rows lastid, x ∈ r.batch ++ r.rows := by
    intro lastid x hx
    rcases mem_append.mp hx with hold | hcovered
    · exact mem_append_left _ hold
    · exact mem_append_right _ (mem_coveredRows.mp hcovered).1
  unfold ProxyBuffer.finishRound
  dsimp only
  split_ifs with hnil hshort hmore
  · exact hbatch _ _ _ (fun x hx => mem_append_left _ hx) hr.batch
  all_goals
    obtain ⟨y, hy, hlast⟩ := pbHistoryExport_lastid a ⟨r.recordsNum, r.offset, r.exported⟩ hnil
    have hwithin : ∀ x ∈ r.batch ++ coveredRows r.rows
        (pbHistoryExport a ⟨r.recordsNum, r.offset, r.exported⟩ r.rows).lastid,
        x.id ≤ (pbHistoryExport a ⟨r.recordsNum, r.offset, r.exported⟩ r.rows).lastid := by
      intro x hx
      rcases mem_append.mp hx with hold | hcovered
      · exact (hr.batch x hold).trans (hlast ▸ hr.exported.2 y hy)
      · exact (mem_coveredRows.mp hcovered).2
  · exact hbatch _ _ _ (hfrom _) hwithin
  · refine ⟨hr.source, fun x hx => ?_, fun x hx => ?_, fun x hx hacked => ⟨?_, by simp⟩, hwithin,
      le_rfl, by simp⟩
    · exact hr.fromTable x (hfrom _ x (by simpa using hx))
    · exact hr.unsent x (hfrom _ x (by simpa using hx))
    · exact hlast ▸ (hr.behind x hx hacked).2 y hy
  · exact hbatch _ _ _ (hfrom _) hwithin

variable (hw : NoResend w)

include hw

theorem NoResend.select (a : ExportArgs) (hs : w.sender = .reading r) :
    NoResend { w with sender := selectStep a w.db r } := by
  have hwithin := hw.stored.bound.sender
  have hnew := hw.sender
  rw [hs] at hwithin hnew
  have hnot : ∀ b, w.sender ≠ .acking b .database := by simp [hs]
  have hfetch := hwithin.fetch hw.stored
  have hreader := ReaderNew.fetch hnew
  unfold selectStep
  split
  · next r' hgap =>
    rw [hgap] at hfetch hreader
    exact hw.withSender hfetch hnot hreader
  · next r' hnogap =>
    rw [hnogap] at hfetch hreader
    exact hw.withSender (hfetch.finishRound a (hreader.exported.1.trans hfetch.1)) hnot
      (hreader.finishRound hw.stored a)

theorem NoResend.setHistoryLastid (hs : w.sender = .uploading b) :
    NoResend (zbxPbSetHistoryLastid w b) := by
  have hwithin := hw.stored.bound.sender
  have hb := hw.sender
  rw [hs] at hwithin hb
  have hacked : ∀ i, i ∈ (zbxPbSetHistoryLastid w b).acked ↔
      i ∈ w.acked ∨ ∃ x ∈ b.rows, x.id = i := by
    intro i
    simp [zbxPbSetHistoryLastid]
  refine ⟨hw.stored.setHistoryLastid hwithin, fun x hx => ?_, fun h x hx => ?_,
    fun x hx hmem => ?_, trivial⟩
  · rw [hacked]
    rw [zbxPbSetHistoryLastid_history] at hx
    split_ifs at hx with hsrc
    · rintro (hold | ⟨y, hy, hid⟩)
      · exact hw.history x ((dropWhile_sublist _).mem hx) hold
      · have habove := hw.stored.history_ascending.lt_of_mem_dropWhile b.lastid hx
        have := hb.within y hy
        omega
    · rintro (hold | ⟨y, hy, hid⟩)
      · exact hw.history x hx hold
      · exact hb.history (getPbSrc_ne_memory.mp hsrc) y hy x hx hid
  · rw [hacked]
    rintro (hold | ⟨y, hy, hid⟩)
    · exact hw.pending h x hx hold
    · exact hb.pending y hy h x hx hid
  · rcases (hacked x.id).mp hmem with hold | ⟨y, hy, hid⟩
    · rcases hw.table x hx hold with hle | ⟨b', hb', _⟩
      · exact .inl hle
      · exact absurd (hs.symm.trans hb') (by simp)
    · by_cases hsrc : getPbSrc w.pb.state = .memory
      · exact absurd hid (hb.table hsrc y hy x hx)
      · refine .inr ⟨b, ?_, hid ▸ hb.within y hy⟩
        unfold zbxPbSetHistoryLastid
        exact congrArg (Sender.acking b) (getPbSrc_ne_memory.mp hsrc)

theorem NoResend.withLastid (lastid : ℕ) (state : PbState) (hs : s = .idle ∨ ∃ b, s = .uploaded b)
    (hle : lastid ≤ w.nextid) (hpassed : ∀ x ∈ w.db.proxyHistory, x.id ∈ w.acked → x.id ≤ lastid)
    (hempty : state = .database → w.pb.history = []) :
    NoResend { w with
      pb := pbSetState w.pb state
      db := { w.db with historyLastid := lastid }
      sender := s } where
  stored := by
    refine hw.stored.withLastid ?_ hle hempty
    rcases hs with rfl | ⟨b, rfl⟩ <;> trivial
  history := hw.history
  pending := hw.pending
  table x hx hacked := .inl (hpassed x hx hacked)
  sender := by rcases hs with rfl | ⟨b, rfl⟩ <;> trivial

theorem NoResend.setLastidDb {source : PbState} (hs : w.sender = .acking b source)
    (hkeep : KeepsLastid w .setLastidDb) :
    NoResend (pbHistorySetLastid w b source) := by
  have hwithin := hw.stored.bound.sender
  rw [hs] at hwithin
  by_cases hsrc : source = .database
  · subst hsrc
    have hle : w.db.historyLastid ≤ b.lastid := hkeep b.lastid (by simp [writtenLastid, hs])
    have hset := hw.withLastid b.lastid w.pb.state (s := .uploaded b) (.inr ⟨b, rfl⟩) hwithin.1
      (fun x hx hacked => ?_) hw.stored.database_empty
    · exact hset
    · rcases hw.table x hx hacked with hold | ⟨b', hb', hxb⟩
      · exact hold.trans hle
      · obtain rfl : b = b' := by simpa using hs.symm.trans hb'
        exact hxb
  · have hset := hw.withSender (s := .uploaded b) trivial (fun b' hb' => ?_) trivial
    · unfold pbHistorySetLastid
      rw [if_neg hsrc]
      exact hset
    · have hsource := hs.symm.trans hb'
      simp only [Sender.acking.injEq] at hsource
      exact hsrc hsource.2

theorem NoResend.updateState (a : UpdateArgs) (hs : w.sender = .uploaded b)
    (hkeep : KeepsLastid w (.updateState a)) :
    NoResend (zbxPbUpdateState w a) := by
  have hnot : ∀ b', w.sender ≠ .acking b' .database := by simp [hs]
  have hpassed : ∀ x ∈ w.db.proxyHistory, x.id ∈ w.acked → x.id ≤ w.db.historyLastid := by
    intro x hx hacked
    rcases hw.table x hx hacked with hle | ⟨b', hb', _⟩
    · exact hle
    · exact absurd hb' (hnot b')
  have hsame : NoResend { w with sender := .idle } := hw.withSender trivial hnot trivial
  unfold zbxPbUpdateState pbUpdateState
  split
  · exact hsame
  · next hstate =>
    by_cases hempty : w.pb.history = [] ∧ a.othersMem = false
    · rw [if_pos hempty]
      refine hw.withLastid _ .database (.inl rfl) ?_ (fun x hx hacked => ?_) fun _ => hempty.1
      · split_ifs
        · exact hw.stored.bound.sent
        · exact hw.stored.bound.lastid
      · refine (hpassed x hx hacked).trans ?_
        split_ifs with hsent
        · exact hkeep _ (by simp [writtenLastid, hstate, hempty, flushedLastid, hsent])
        · exact le_rfl
    · rw [if_neg hempty]
      exact hsame
  · split_ifs with hmore
    · exact hw.withLastid _ .databaseMemory (.inl rfl) hw.stored.bound.lastid hpassed (by simp)
    · exact hsame
  · split_ifs with hall
    · exact hw.withLastid _ .memory (.inl rfl) hw.stored.bound.lastid hpassed (by simp)
    · exact hsame

theorem NoResend.senderStep (hkeep : KeepsLastid w e) (h : SenderStep w e w') : NoResend w' := by
  have hwithin := hw.stored.bound.sender
  have hnew := hw.sender
  cases h with
  | getRows a offset hs =>
    have hnot : ∀ b, w.sender ≠ .acking b .database := by simp [hs]
    unfold zbxPbHistoryGetRows
    split_ifs with hsrc
    · exact hw.withSender (Sender.Within.getMem hw.stored a offset) hnot
        (hw.batchNew_getMem a offset hsrc)
    · exact hw.withSender trivial hnot (getPbSrc_ne_memory.mp hsrc)
  | @getLastid offset hs =>
    have hnot : ∀ b, w.sender ≠ .acking b .database := by simp [hs]
    rw [hs] at hnew
    unfold pbGetLastid
    split_ifs
    · refine hw.withSender ⟨hw.stored.bound.lastid, Nat.zero_le _, by simp⟩ hnot
        ⟨hnew, by simp, by simp, fun x hx hacked => ⟨?_, by simp⟩, by simp, Nat.zero_le _, by simp⟩
      rcases hw.table x hx hacked with hle | ⟨b, hb, _⟩
      · exact hle
      · exact absurd hb (hnot b)
    · exact hw.withSender ⟨Nat.zero_le _, by simp⟩ hnot
        ⟨by simp, by simp, by simp, by simp, by simp⟩
  | select a hs => exact hw.select a hs
  | waitHandles hs =>
    rw [hs] at hwithin hnew
    exact hw.withSender (s := .waiting _ _) hwithin (by simp [hs]) hnew
  | handlesClosed hs _ =>
    rw [hs] at hwithin hnew
    exact hw.withSender (s := .reading _) hwithin (by simp [hs]) hnew
  | uploadFailed hs | uploadSucceeded hs _ => exact hw.withSender trivial (by simp [hs]) trivial
  | setHistoryLastid hs _ => exact hw.setHistoryLastid hs
  | setLastidDb hs => exact hw.setLastidDb hs hkeep
  | updateState a hs _ => exact hw.updateState a hs hkeep
  | skipUpdate hs => exact hw.withSender trivial (by simp [hs]) trivial

theorem NoResend.step (hkeep : KeepsLastid w e) (h : step w e = some w') : NoResend w' := by
  cases hs : e.ofSender with
  | false => exact hw.handleStep hkeep (handleStep_of_step hs h)
  | true => exact hw.senderStep hkeep (senderStep_of_step hs h)

omit hw

theorem noResend_pbInitState (db : Db) (maxAge offlineBuffer : ℤ) (othersUnsent : Bool) :
    NoResend (pbInitState db maxAge offlineBuffer othersUnsent) := by
  refine ⟨stored_pbInitState db maxAge offlineBuffer othersUnsent, by simp [pbInitState],
    by simp [pbInitState, Handle.pending], fun x hx hacked => .inl ?_, trivial⟩
  obtain ⟨y, hy, hid⟩ := mem_map.mp hacked
  exact hid ▸ (mem_coveredRows.mp hy).2

/-- In every run that never writes `history_lastid` with a smaller value, a message that is
being uploaded holds no row that the server has acknowledged. -/
theorem uploading_not_acked {w : World} (h : Reach Init step KeepsLastid w) {b : Batch}
    (hb : w.sender = .uploading b) : ∀ x ∈ b.rows, x.id ∉ w.acked := by
  have hinv : NoResend w := by
    refine h.invariant ?_ fun _ _ _ hw hok hstep => hw.step hok hstep
    rintro _ ⟨db, maxAge, offlineBuffer, othersUnsent, _, _, rfl⟩
    exact noResend_pbInitState db maxAge offlineBuffer othersUnsent
  have hnew := hinv.sender
  rw [hb] at hnew
  exact hnew.unsent

/-! A run in which the rows of memory are acknowledged after newer rows of the database. -/

instance (w : World) (e : Event) : Decidable (KeepsLastid w e) :=
  inferInstanceAs (Decidable (∀ lastid ∈ writtenLastid w e, _))

def uploadedIds (w : World) : List ℕ :=
  match w.sender with
  | .uploading b => b.rows.map (·.id)
  | _ => []

/-- The buffer returns to memory, its row is acknowledged, other data too old makes it fall back to
the database, which is read once more. -/
def backwardsRun : List Event :=
  [.getRows exportAll 0, .getLastid, .select exportAll, .uploadSucceeded,
    .updateState ⟨false, false, true⟩,
    .getRows exportAll 0, .setHistoryLastid, .setLastidDb, .skipUpdate,
    .openHandle, .writeValue 3 ⟨0, 1, 0, 0, "c", ""⟩, .closeMemory 3 ⟨0, 0, 1, false⟩,
    .otherFallback true,
    .getRows exportAll 0, .getLastid, .select exportAll]

theorem uploadedIds_spec (hne : uploadedIds w ≠ []) :
    ∃ b, w.sender = .uploading b ∧ uploadedIds w = b.rows.map (·.id) := by
  unfold uploadedIds at hne ⊢
  split at hne
  · next b hb => exact ⟨b, hb, rfl⟩
  · exact absurd rfl hne

theorem uploading_not_acked_overtakingRun :
    ∃ w b, Reach Init step KeepsLastid w ∧ w.sender = .uploading b ∧ b.rows.length = 1 ∧
      ∀ x ∈ b.rows, x.id ∉ w.acked := by
  have hstart : Reach Init step KeepsLastid unsentStart := .start init_unsentStart
  have hguarded : Guarded step KeepsLastid unsentStart
      (mixedRun ++ overtakingRun ++ backwardsRun.take 6) := by decide +kernel
  have hend : (run step unsentStart (mixedRun ++ overtakingRun ++ backwardsRun.take 6)).any
      (fun w => (uploadedIds w).length = 1) = true := by decide +kernel
  obtain ⟨w, hw, hlen⟩ := hstart.exists_of_run hguarded hend
  have hone : (uploadedIds w).length = 1 := of_decide_eq_true hlen
  obtain ⟨b, hb, hids⟩ := uploadedIds_spec (w := w) (fun h => by simp [h] at hone)
  exact ⟨w, b, hw, hb, by simpa [hids] using hone, uploading_not_acked hw hb⟩

theorem uploading_acked :
    ¬ ∀ w b, Reach Init step anyEvent w → w.sender = .uploading b →
      ∀ x ∈ b.rows, x.id ∉ w.acked := by
  intro hall
  have hstart : Reach Init step anyEvent unsentStart := .start init_unsentStart
  have hend : (run step unsentStart (mixedRun ++ overtakingRun ++ backwardsRun)).any
      (fun w => ∃ i ∈ uploadedIds w, i ∈ w.acked) = true := by decide +kernel
  obtain ⟨w, hw, hagain⟩ := hstart.exists_of_run (guarded_anyEvent _ _) hend
  obtain ⟨i, hi, hacked⟩ := of_decide_eq_true hagain
  obtain ⟨b, hb, hids⟩ := uploadedIds_spec (ne_nil_of_mem hi)
  rw [hids] at hi
  obtain ⟨x, hx, rfl⟩ := mem_map.mp hi
  exact hall w b hw hb x hx hacked

end Zabbix.ProxyBuffer
