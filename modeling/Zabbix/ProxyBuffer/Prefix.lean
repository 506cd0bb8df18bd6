import Zabbix.ProxyBuffer.Delivery
import Zabbix.ProxyBuffer.Export

/-!
# Messages cover prefixes

In every reachable state the rows of the memory list ascend and the rows of the table have
different ids.
-/

namespace Zabbix.ProxyBuffer

open List Transition

variable {w w' : World} {rows : List PbHistory} {e : Event} {n : ℕ} {r : Reader}

def Sender.ExportedWithin (n : ℕ) : Sender → Prop
  | .reading r | .gap r | .waiting r _ => r.exported ≤ n
  | _ => True

structure Contents (w : World) : Prop where
  stored : Stored w w.nextid
  exported : w.sender.ExportedWithin w.nextid
  table : (w.db.proxyHistory.map (·.id)).Nodup

theorem ClosesTo.table {h : ℕ} {a : CloseArgs} (hclose : ClosesTo w h rows a w') :
    ∃ added, List.Sublist added (w.pb.history ++ closedRows w rows) ∧
      w'.db.proxyHistory = w.db.proxyHistory ++ added := by
  cases hclose with
  | empty _
  | direct _ _
  | keptMemory _ _ _ _
  | keptDatabaseMemory _ _ _ => exact ⟨[], nil_sublist _, (append_nil _).symm⟩
  | noSpaceMemory v _ _ _ hv =>
    refine ⟨[], nil_sublist _, ?_⟩
    rw [hv]
    exact (append_nil _).symm
  | noSpaceDatabaseMemory _ _ _ =>
    exact ⟨w.pb.history ++ (closedRows w rows).take a.fit,
      (take_sublist _ _).append_left _, fallback_table _ _⟩
  | tooOld _ _ _ =>
    exact ⟨freshRows w.pb a.now, (freshRows_sublist w.pb a.now).trans
      (sublist_append_left _ _), fallback_table _ _⟩

theorem Stored.history_closedRows (hw : Stored w w.nextid) (rows : List PbHistory) :
    Ascending (w.pb.history ++ closedRows w rows) :=
  hw.history_ascending.append (ascending_pbHistorySetRowIds _ _) fun x hx _ hy =>
    (hw.bound.history x hx).trans_lt (mem_pbHistorySetRowIds hy).1

theorem HandleStep.table (hw : Stored w w.nextid) (h : HandleStep w e w') :
    ∃ added, w'.db.proxyHistory = w.db.proxyHistory ++ added ∧ Ascending added ∧
      ∀ x ∈ added, ∀ y ∈ w.db.proxyHistory, x.id ≠ y.id := by
  have hsame : ∃ added, w.db.proxyHistory = w.db.proxyHistory ++ added ∧ Ascending added ∧
      ∀ x ∈ added, ∀ y ∈ w.db.proxyHistory, x.id ≠ y.id :=
    ⟨[], (append_nil _).symm, Ascending.nil, forall_mem_nil _⟩
  cases h with
  | openHandle => exact hsame
  | writeValue row hh => exact hsame
  | autoincrement hh => exact hsame
  | closeFinal hh => exact hsame
  | otherNoSpace _ => exact hsame
  | @commit k rows pending hh =>
    have hpending : (w.handles k).pending = pending := by rw [hh]; rfl
    rw [← hpending]
    exact ⟨_, rfl, hw.pending_ascending k, hw.distinct.pending_table k⟩
  | otherFallback others _ =>
    exact ⟨_, fallback_table w others, hw.history_ascending, hw.distinct.history_table⟩
  | @closeMemory k rows a w' hh hclose =>
    obtain ⟨added, hsub, htable⟩ := hclose.table
    refine ⟨added, htable, (hw.history_closedRows rows).sublist hsub, ?_⟩
    intro x hx y hy
    rcases mem_append.mp (hsub.mem hx) with hold | hnew
    · exact hw.distinct.history_table x hold y hy
    · have hlt := (mem_pbHistorySetRowIds hnew).1
      have hle := hw.bound.table y hy
      omega

theorem nodup_append_table {added : List PbHistory} (h : (rows.map (·.id)).Nodup)
    (hasc : Ascending added) (hnew : ∀ x ∈ added, ∀ y ∈ rows, x.id ≠ y.id) :
    ((rows ++ added).map (·.id)).Nodup := by
  rw [map_append, nodup_append]
  refine ⟨h, ?_, ?_⟩
  · exact pairwise_map.mpr (hasc.imp fun hlt => hlt.ne)
  · intro i hi j hj hij
    obtain ⟨y, hy, rfl⟩ := mem_map.mp hi
    obtain ⟨x, hx, rfl⟩ := mem_map.mp hj
    exact hnew x hx y hy hij.symm

variable {s : Sender}

theorem Sender.ExportedWithin.mono {k : ℕ} (hnk : n ≤ k) (h : s.ExportedWithin n) :
    s.ExportedWithin k := by
  cases s with
  | reading r | gap r | waiting r i => exact Nat.le_trans h hnk
  | _ => trivial

theorem Contents.handleStep (hw : Contents w) (h : HandleStep w e w') : Contents w' := by
  obtain ⟨hstored, hnext⟩ := hw.stored.handleStep h
  obtain ⟨added, htable, hasc, hnew⟩ := h.table hw.stored
  have hgrows := Grows.handleStep (F := fun _ => True) (fun _ _ => trivial) h
  constructor
  · exact hstored
  · rw [hgrows.sender]
    exact hw.exported.mono hnext
  · rw [htable]
    exact nodup_append_table hw.table hasc hnew

theorem Contents.withSender (hw : Contents w) (hs : s.Within w.nextid)
    (hexported : s.ExportedWithin w.nextid) : Contents { w with sender := s } :=
  ⟨hw.stored.withSender hs, hexported, hw.table⟩

theorem exportedWithin_finishRound {a : ExportArgs} (h : (finishRound a r).Within n) :
    (finishRound a r).ExportedWithin n := by
  unfold finishRound at h ⊢
  dsimp only at h ⊢
  split_ifs at h ⊢ with hnil hlen hmore
  · trivial
  · trivial
  · exact h.1
  · trivial

theorem Contents.select (hw : Contents w) (a : ExportArgs) (hs : w.sender = .reading r) :
    Contents { w with sender := selectStep a w.db r } := by
  have hwithin := hw.stored.bound.sender
  have hexported := hw.exported
  rw [hs] at hwithin hexported
  have hfetch := hwithin.fetch hw.stored
  have hkeeps := (fetchRows_keeps r (selectRows w.db r)).2.1
  unfold selectStep
  split
  · next r' hgap =>
    rw [hgap] at hfetch hkeeps
    exact hw.withSender (s := .gap r') hfetch (hkeeps.le.trans hexported)
  · next r' hwhole =>
    rw [hwhole] at hfetch hkeeps
    have hle : r'.exported ≤ w.nextid := hkeeps.le.trans hexported
    have hround := hfetch.finishRound a hle
    exact hw.withSender hround (exportedWithin_finishRound hround)

theorem Contents.updateState (hw : Contents w) (a : UpdateArgs) :
    Contents (zbxPbUpdateState w a) := by
  have hidle : Contents { w with sender := .idle } := hw.withSender trivial trivial
  have hlastid : ∀ {lastid : ℕ} {state : PbState}, lastid ≤ w.nextid →
      (state = .database → w.pb.history = []) →
      Contents { w with
        pb := pbSetState w.pb state
        db := { w.db with historyLastid := lastid }
        sender := .idle } := fun hle hempty =>
    ⟨hw.stored.withLastid trivial hle hempty, trivial, hw.table⟩
  unfold zbxPbUpdateState pbUpdateState
  split
  · exact hidle
  · split
    · next hempty =>
      apply hlastid _ fun _ => hempty.1
      split
      · exact hw.stored.bound.sent
      · exact hw.stored.bound.lastid
    · exact hidle
  · split
    · exact hlastid hw.stored.bound.lastid (by simp)
    · exact hidle
  · split
    · exact hlastid hw.stored.bound.lastid (by simp)
    · exact hidle

theorem Contents.senderStep (hw : Contents w) (h : SenderStep w e w') : Contents w' := by
  have hwithin := hw.stored.bound.sender
  have hexported := hw.exported
  cases h with
  | getRows a offset hs =>
    unfold zbxPbHistoryGetRows
    split
    · exact hw.withSender (Sender.Within.getMem hw.stored a offset) trivial
    · exact hw.withSender trivial trivial
  | getLastid hs =>
    unfold pbGetLastid
    split
    · exact hw.withSender ⟨hw.stored.bound.lastid, Nat.zero_le _, by simp⟩ (Nat.zero_le _)
    · exact hw.withSender ⟨Nat.zero_le _, by simp⟩ trivial
  | select a hs => exact hw.select a hs
  | waitHandles hs =>
    rw [hs] at hwithin hexported
    exact hw.withSender (s := .waiting _ _) hwithin hexported
  | handlesClosed hs _ =>
    rw [hs] at hwithin hexported
    exact hw.withSender (s := .reading _) hwithin hexported
  | uploadFailed hs | uploadSucceeded hs _ => exact hw.withSender trivial trivial
  | setHistoryLastid hs _ =>
    rw [hs] at hwithin
    exact ⟨hw.stored.setHistoryLastid hwithin, trivial, hw.table⟩
  | @setLastidDb b source hs =>
    rw [hs] at hwithin
    have hempty : w.pb.state = .database → w.pb.history = [] := hw.stored.database_empty
    unfold pbHistorySetLastid
    split
    · exact ⟨hw.stored.withLastid (s := .uploaded b) trivial hwithin.1 hempty, trivial, hw.table⟩
    · exact hw.withSender trivial trivial
  | updateState a hs _ => exact hw.updateState a
  | skipUpdate hs => exact hw.withSender trivial trivial

theorem Contents.of_init (h : Init w) : Contents w := by
  obtain ⟨db, maxAge, offlineBuffer, othersUnsent, hnodup, -, rfl⟩ := h
  exact ⟨stored_pbInitState db maxAge offlineBuffer othersUnsent, trivial, hnodup⟩

theorem Contents.of_reach (h : Reach Init step anyEvent w) : Contents w := by
  induction h with
  | start hinit => exact Contents.of_init hinit
  | @next s t e _ _ hstep ih =>
    cases hs : e.ofSender with
    | false => exact ih.handleStep (handleStep_of_step hs hstep)
    | true => exact ih.senderStep (senderStep_of_step hs hstep)

/-- In every reachable state the message read from memory and the message read from the table each
cover a prefix of the unsent rows. -/
theorem pbHistoryGet_coversPrefix {w : World} (h : Reach Init step anyEvent w) (a : ExportArgs)
    (offset : ℕ) :
    CoversPrefix a w.pb.history (pbHistoryGetMemMessage a w.pb offset).1.records
        (pbHistoryGetMemMessage a w.pb offset).1.lastid ∧
      ∃ m, pbHistoryGetDbMessage a w.db offset = some m ∧
        CoversPrefix a (unsentRows w.db w.db.historyLastid) m.1.records m.1.lastid := by
  have hw := Contents.of_reach h
  exact ⟨pbHistoryGetMemMessage_covers a w.pb offset hw.stored.history_ascending
      hw.stored.history_pos, pbHistoryGetDbMessage_covers hw.table a offset⟩

def gapStart : World :=
  pbInitState ⟨[⟨1, 1, 2, 0, "", ""⟩, ⟨3, 1, 2, 0, "", ""⟩, ⟨4, 2, 0, 0, "a", ""⟩,
    ⟨5, 3, 0, 0, "b", ""⟩], 0⟩ 0 0 false

def exportOdd : ExportArgs := ⟨fun itemid => itemid % 2 = 1, fun _ _ => 1⟩

theorem pbHistoryGet_coversPrefix_gap :
    ∃ m, pbHistoryGetDbMessage exportOdd gapStart.db 0 = some m ∧ m.1.lastid = 5 ∧
      m.1.records.map (·.id) = [3, 5] ∧
      CoversPrefix exportOdd (unsentRows gapStart.db 0) m.1.records m.1.lastid := by
  have hstart : Reach Init step anyEvent gapStart := .start ⟨_, _, _, _, by decide, by decide, rfl⟩
  obtain ⟨-, m, hm, hcovers⟩ := pbHistoryGet_coversPrefix hstart exportOdd 0
  have hids : (pbHistoryGetDbMessage exportOdd gapStart.db 0).map
      (fun m => (m.1.lastid, m.1.records.map (·.id))) = some (5, [3, 5]) := by decide +kernel
  rw [hm, Option.map_some, Option.some_inj, Prod.mk.injEq] at hids
  exact ⟨m, hm, hids.1, hids.2, hcovers⟩

end Zabbix.ProxyBuffer
