import Zabbix.ProxyBuffer.Rows

/-!
# Reading history rows for the data sender

What the fetch loop over a select, the export of the fetched rows and the rounds over the
memory list leave as the last id, and which rows that id stands for.
-/

namespace Zabbix.ProxyBuffer

open List

variable {rows sel : List PbHistory} {lastid : ℕ} {x : PbHistory} {r : Reader} {db : Db}

theorem dropDuplicateNovalue_sublist (rows : List PbHistory) :
    Sublist (dropDuplicateNovalue rows) rows := by
  induction rows with
  | nil => exact Sublist.refl _
  | cons row rows ih =>
    unfold dropDuplicateNovalue
    split_ifs
    · exact ih.cons _
    · exact ih.cons_cons _

theorem dropDuplicateNovalue_ne_nil (h : rows ≠ []) : dropDuplicateNovalue rows ≠ [] := by
  induction rows with
  | nil => exact absurd rfl h
  | cons row rows ih =>
    unfold dropDuplicateNovalue
    split_ifs with hdup
    · obtain ⟨_, r, hr, _⟩ := hdup
      exact ih (ne_nil_of_mem hr)
    · simp

theorem lastRowId_dropDuplicateNovalue (rows : List PbHistory) :
    lastRowId (dropDuplicateNovalue rows) = lastRowId rows := by
  induction rows with
  | nil => rfl
  | cons row rows ih =>
    unfold dropDuplicateNovalue
    split_ifs with hdup
    · obtain ⟨_, r, hr, _⟩ := hdup
      have hne : rows ≠ [] := ne_nil_of_mem hr
      rw [ih]
      simp [lastRowId, getLast?_cons, getLast?_eq_getLast_of_ne_nil hne]
    · by_cases hne : rows = []
      · simp [hne, dropDuplicateNovalue]
      · have hne' := dropDuplicateNovalue_ne_nil hne
        simpa [lastRowId, getLast?_cons, getLast?_eq_getLast_of_ne_nil hne,
          getLast?_eq_getLast_of_ne_nil hne'] using ih

variable (a : ExportArgs)

theorem exportRecords_lastid (x : Export) (rows : List PbHistory) :
    (rows = [] ∧ (exportRecords a x rows).lastid = x.lastid) ∨
      ∃ y ∈ rows, (exportRecords a x rows).lastid = y.id := by
  induction rows generalizing x with
  | nil => exact .inl ⟨rfl, rfl⟩
  | cons row rows ih =>
    refine .inr ?_
    have htail : ∀ x' : Export, x'.lastid = row.id →
        ∃ y ∈ row :: rows, (exportRecords a x' rows).lastid = y.id := by
      intro x' hx'
      rcases ih x' with ⟨_, hlast⟩ | ⟨y, hy, hlast⟩
      · exact ⟨row, by simp, hlast.trans hx'⟩
      · exact ⟨y, mem_cons_of_mem _ hy, hlast⟩
    simp only [exportRecords]
    split_ifs
    · exact ⟨row, by simp, rfl⟩
    · exact htail _ rfl
    · exact htail _ rfl

theorem exportRecords_complete (x : Export) (hne : rows ≠ [])
    (hsize : (exportRecords a x rows).offset ≤ zbxDataJsonRecordLimit) :
    (exportRecords a x rows).lastid = lastRowId rows := by
  induction rows generalizing x with
  | nil => exact absurd rfl hne
  | cons row rows ih =>
    have htail : ∀ x' : Export, x'.lastid = row.id →
        (exportRecords a x' rows).offset ≤ zbxDataJsonRecordLimit →
        (exportRecords a x' rows).lastid = lastRowId (row :: rows) := by
      intro x' hx' hoff
      by_cases hrows : rows = []
      · simp [hrows, exportRecords, hx', lastRowId]
      · rw [ih x' hrows hoff]
        simp [lastRowId, getLast?_cons, getLast?_eq_getLast_of_ne_nil hrows]
    simp only [exportRecords] at hsize ⊢
    split_ifs at hsize ⊢ with hmon hlimit
    · exact absurd hsize (not_le.mpr hlimit)
    · exact htail _ rfl hsize
    · exact htail _ rfl hsize

theorem pbHistoryExport_lastid (x : Export) (hne : rows ≠ []) :
    ∃ y ∈ rows, (pbHistoryExport a x rows).lastid = y.id := by
  rcases exportRecords_lastid a x (dropDuplicateNovalue rows) with ⟨hnil, _⟩ | ⟨y, hy, hlast⟩
  · exact absurd hnil (dropDuplicateNovalue_ne_nil hne)
  · exact ⟨y, (dropDuplicateNovalue_sublist rows).mem hy, hlast⟩

theorem pbHistoryExport_complete (x : Export) (hne : rows ≠ [])
    (hsize : (pbHistoryExport a x rows).offset ≤ zbxDataJsonRecordLimit) :
    (pbHistoryExport a x rows).lastid = lastRowId rows := by
  rw [← lastRowId_dropDuplicateNovalue]
  exact exportRecords_complete a x (dropDuplicateNovalue_ne_nil hne) hsize

theorem mem_coveredRows : x ∈ coveredRows rows lastid ↔ x ∈ rows ∧ x.id ≤ lastid := by
  simp [coveredRows]

structure CoversMem (history : List PbHistory) (b : Batch) : Prop where
  complete : ∀ x ∈ history, x.id ≤ b.lastid → x ∈ b.rows
  fromHistory : ∀ x ∈ b.rows, x ∈ history
  within : ∀ x ∈ b.rows, x.id ≤ b.lastid
  lastid : b.lastid = 0 ∨ ∃ x ∈ history, b.lastid = x.id

theorem mem_take_or_mem_drop {α : Type*} (k : ℕ) {l : List α} {x : α} (hx : x ∈ l) :
    x ∈ l.take k ∨ x ∈ l.drop k := by
  rw [← take_append_drop k l] at hx
  exact mem_append.mp hx

theorem coversMem_chunk {done batch : List PbHistory} (k : ℕ) (more : Bool)
    (hasc : Ascending (done ++ rows)) (hdone : ∀ y ∈ done, y ∈ batch)
    (hbatch : ∀ y ∈ batch, y ∈ done) (hlast : ∃ z ∈ rows.take k, lastid = z.id) :
    CoversMem (done ++ rows) ⟨lastid, batch ++ coveredRows (rows.take k) lastid, more⟩ := by
  obtain ⟨z, hz, rfl⟩ := hlast
  have hzrows : z ∈ rows := mem_of_mem_take hz
  have hsplit := pairwise_append.mp hasc
  refine ⟨?_, ?_, ?_, .inr ⟨z, mem_append_right _ hzrows, rfl⟩⟩
  · intro y hy hle
    rcases mem_append.mp hy with hyd | hyr
    · exact mem_append_left _ (hdone y hyd)
    · refine mem_append_right _ (mem_coveredRows.mpr ⟨?_, hle⟩)
      rcases mem_take_or_mem_drop k hyr with htake | hdrop
      · exact htake
      · have := Ascending.take_lt_drop hsplit.2.1 k hz hdrop
        dsimp only at hle
        omega
  · intro y hy
    rcases mem_append.mp hy with hyb | hyc
    · exact mem_append_left _ (hbatch y hyb)
    · exact mem_append_right _ (mem_of_mem_take (mem_coveredRows.mp hyc).1)
  · intro y hy
    rcases mem_append.mp hy with hyb | hyc
    · exact (hsplit.2.2 y (hbatch y hyb) z hzrows).le
    · exact (mem_coveredRows.mp hyc).2

theorem getMemRounds_covers (fuel : ℕ) (done rows batch : List PbHistory) (x : Export)
    (hasc : Ascending (done ++ rows)) (hdone : ∀ y ∈ done, y ∈ batch)
    (hbatch : ∀ y ∈ batch, y ∈ done) (hlast : ∀ y ∈ done, y.id ≤ x.lastid)
    (hrest : ∀ y ∈ rows, x.lastid < y.id) (hid : x.lastid = 0 ∨ ∃ y ∈ done, x.lastid = y.id) :
    CoversMem (done ++ rows) (getMemRounds a fuel rows batch x) := by
  have hstop : ∀ more, CoversMem (done ++ rows) ⟨x.lastid, batch, more⟩ := by
    intro more
    refine ⟨?_, fun y hy => mem_append_left _ (hbatch y hy), fun y hy => hlast y (hbatch y hy), ?_⟩
    · intro y hy hle
      rcases mem_append.mp hy with hyd | hyr
      · exact hdone y hyd
      · exact absurd hle (not_le.mpr (hrest y hyr))
    · rcases hid with hzero | ⟨y, hy, hyid⟩
      · exact .inl hzero
      · exact .inr ⟨y, mem_append_left _ hy, hyid⟩
  induction fuel generalizing done rows batch x with
  | zero => exact hstop false
  | succ fuel ih =>
    unfold getMemRounds
    dsimp only
    by_cases hnil : rows.take zbxMaxHrecords = []
    · have hlen : ([] : List PbHistory).length ≠ zbxMaxHrecords := by decide
      rw [hnil, if_pos hlen]
      simpa [coveredRows, pbHistoryExport, exportRecords, dropDuplicateNovalue] using hstop false
    · have hexport := pbHistoryExport_lastid a x hnil
      split_ifs with hlen hlimit
      · exact coversMem_chunk _ _ hasc hdone hbatch hexport
      · exact coversMem_chunk _ _ hasc hdone hbatch hexport
      -- the chunk was exported to its end, so it is done and the rest lies above its last id
      · have hsize : (pbHistoryExport a x (rows.take zbxMaxHrecords)).offset ≤
            zbxDataJsonRecordLimit := by
          have hbound : zbxDataJsonBatchLimit ≤ zbxDataJsonRecordLimit := by decide
          omega
        have hsplit := pairwise_append.mp hasc
        have hchunk : Ascending (rows.take zbxMaxHrecords) :=
          Ascending.sublist hsplit.2.1 (take_sublist _ _)
        have hcomplete := pbHistoryExport_complete a x hnil hsize
        have hle : ∀ y ∈ rows.take zbxMaxHrecords,
            y.id ≤ (pbHistoryExport a x (rows.take zbxMaxHrecords)).lastid := by
          intro y hy
          rw [hcomplete]
          exact le_lastRowId hchunk hy
        have happ : done ++ rows =
            (done ++ rows.take zbxMaxHrecords) ++ rows.drop zbxMaxHrecords := by
          rw [append_assoc, take_append_drop]
        obtain ⟨z, hz, hzid⟩ := hexport
        have hcovers := coversMem_chunk zbxMaxHrecords false hasc hdone hbatch ⟨z, hz, hzid⟩
        rw [happ]
        have hdone' : ∀ y ∈ done ++ rows.take zbxMaxHrecords, y ∈ batch ++ coveredRows
            (rows.take zbxMaxHrecords)
            (pbHistoryExport a x (rows.take zbxMaxHrecords)).lastid := by
          intro y hy
          rcases mem_append.mp hy with hyd | hyc
          · exact mem_append_left _ (hdone y hyd)
          · exact mem_append_right _ (mem_coveredRows.mpr ⟨hyc, hle y hyc⟩)
        have hbatch' : ∀ y ∈ batch ++ coveredRows (rows.take zbxMaxHrecords)
            (pbHistoryExport a x (rows.take zbxMaxHrecords)).lastid,
            y ∈ done ++ rows.take zbxMaxHrecords := by
          intro y hy
          rcases mem_append.mp hy with hyb | hyc
          · exact mem_append_left _ (hbatch y hyb)
          · exact mem_append_right _ (mem_coveredRows.mp hyc).1
        have hlast' : ∀ y ∈ done ++ rows.take zbxMaxHrecords,
            y.id ≤ (pbHistoryExport a x (rows.take zbxMaxHrecords)).lastid := by
          intro y hy
          rcases mem_append.mp hy with hyd | hyc
          · exact hcovers.within y (mem_append_left _ (hdone y hyd))
          · exact hle y hyc
        have hrest' : ∀ y ∈ rows.drop zbxMaxHrecords,
            (pbHistoryExport a x (rows.take zbxMaxHrecords)).lastid < y.id := by
          intro y hy
          rw [hzid]
          exact Ascending.take_lt_drop hsplit.2.1 _ hz hy
        have hid' : (pbHistoryExport a x (rows.take zbxMaxHrecords)).lastid = 0 ∨
            ∃ y ∈ done ++ rows.take zbxMaxHrecords,
              (pbHistoryExport a x (rows.take zbxMaxHrecords)).lastid = y.id :=
          .inr ⟨z, mem_append_right _ hz, hzid⟩
        refine ih _ _ _ _ (happ ▸ hasc) hdone' hbatch' hlast' hrest' hid' ?_
        intro more
        rw [← happ]
        exact ⟨fun y hy hyle => hcovers.complete y hy hyle, hcovers.fromHistory, hcovers.within,
          hcovers.lastid⟩

theorem pbHistoryGetMem_covers (pb : Pb) (offset : ℕ) (hasc : Ascending pb.history)
    (hpos : ∀ x ∈ pb.history, 0 < x.id) :
    CoversMem pb.history (pbHistoryGetMem a pb offset) := by
  unfold pbHistoryGetMem
  split_ifs with hnil
  · exact ⟨by simp [hnil], by simp, by simp, .inl rfl⟩
  · exact getMemRounds_covers a _ [] pb.history [] ⟨0, offset, 0⟩ hasc (by simp) (by simp)
      (by simp) hpos (.inl rfl)

theorem fetchRows_keeps (r : Reader) (sel : List PbHistory) :
    (fetchRows r sel).1.batch = r.batch ∧ (fetchRows r sel).1.exported = r.exported ∧
      (fetchRows r sel).1.recordsNum = r.recordsNum ∧
      (fetchRows r sel).1.offset = r.offset := by
  induction sel generalizing r with
  | nil => exact ⟨rfl, rfl, rfl, rfl⟩
  | cons row sel ih =>
    simp only [fetchRows]
    split_ifs
    · exact ⟨rfl, rfl, rfl, rfl⟩
    · exact ih _

theorem fetchRows_rows (r : Reader) (sel : List PbHistory) :
    (∀ y ∈ (fetchRows r sel).1.rows, y ∈ r.rows ∨ y ∈ sel) ∧
      (∀ y ∈ r.rows, y ∈ (fetchRows r sel).1.rows) ∧
      ((fetchRows r sel).1.lastid = r.lastid ∨
        ∃ y ∈ sel, y ∈ (fetchRows r sel).1.rows ∧ (fetchRows r sel).1.lastid = y.id) := by
  induction sel generalizing r with
  | nil => exact ⟨fun y hy => .inl hy, fun y hy => hy, .inl rfl⟩
  | cons row sel ih =>
    simp only [fetchRows]
    split_ifs
    · exact ⟨fun y hy => .inl hy, fun y hy => hy, .inl rfl⟩
    · obtain ⟨hfrom, hkeep, hlast⟩ := ih { r with rows := r.rows ++ [row], lastid := row.id }
      have hrow := hkeep row (by simp)
      refine ⟨?_, fun y hy => hkeep y (mem_append_left _ hy), .inr ?_⟩
      · intro y hy
        rcases hfrom y hy with hold | hsel
        · rcases mem_append.mp hold with hyr | hyrow
          · exact .inl hyr
          · exact .inr (by simpa using .inl (mem_singleton.mp hyrow))
        · exact .inr (mem_cons_of_mem _ hsel)
      · rcases hlast with hlast | ⟨y, hy, hymem, hlast⟩
        · exact ⟨row, by simp, hrow, hlast⟩
        · exact ⟨y, mem_cons_of_mem _ hy, hymem, hlast⟩

theorem fetchRows_gapid (r : Reader) (sel : List PbHistory) :
    (fetchRows r sel).1.gapid = r.gapid ∨ ∃ y ∈ sel, (fetchRows r sel).1.gapid = y.id := by
  induction sel generalizing r with
  | nil => exact .inl rfl
  | cons row sel ih =>
    simp only [fetchRows]
    split_ifs
    · exact .inr ⟨row, by simp, rfl⟩
    · rcases ih { r with rows := r.rows ++ [row], lastid := row.id } with hsame | ⟨y, hy, hgap⟩
      · exact .inl hsame
      · exact .inr ⟨y, mem_cons_of_mem _ hy, hgap⟩

theorem fetchRows_stops {p : ℕ} (hlast : r.lastid < p) (hgap : r.gapid ≤ p)
    (hsel : ∀ y ∈ sel, y.id ≠ p) : (fetchRows r sel).1.lastid < p := by
  induction sel generalizing r with
  | nil => exact hlast
  | cons row sel ih =>
    simp only [fetchRows]
    split_ifs with hstop
    · exact hlast
    · have hne : row.id ≠ p := hsel row (by simp)
      have hrow : row.id < p := by
        by_cases hgapid : row.id = r.gapid
        · omega
        · have : ¬ 1 < row.id - r.lastid := fun h => hstop ⟨h, hgapid⟩
          omega
      exact ih hrow hgap fun y hy => hsel y (mem_cons_of_mem _ hy)

theorem fetchRows_complete (hsorted : sel.Pairwise fun a b => a.id ≤ b.id) (hx : x ∈ sel)
    (hle : x.id ≤ (fetchRows r sel).1.lastid) :
    x.id ≤ r.lastid ∨ ∃ y ∈ (fetchRows r sel).1.rows, y.id = x.id := by
  induction sel generalizing r with
  | nil => simp at hx
  | cons row sel ih =>
    simp only [fetchRows] at hle ⊢
    split_ifs at hle ⊢ with hstop
    · exact .inl hle
    · have hrow : row ∈ (fetchRows { r with rows := r.rows ++ [row], lastid := row.id } sel).1.rows :=
        (fetchRows_rows _ sel).2.1 row (by simp)
      rcases mem_cons.mp hx with rfl | hmem
      · exact .inr ⟨x, hrow, rfl⟩
      · rcases ih (pairwise_cons.mp hsorted).2 hmem hle with hold | hfound
        · have hge := (pairwise_cons.mp hsorted).1 x hmem
          dsimp only at hold
          exact .inr ⟨row, hrow, by omega⟩
        · exact .inr hfound

theorem le_fetchRows_lastid (hge : ∀ y ∈ sel, r.lastid ≤ y.id) :
    r.lastid ≤ (fetchRows r sel).1.lastid := by
  rcases (fetchRows_rows r sel).2.2 with hsame | ⟨y, hy, _, hlast⟩
  · exact hsame.ge
  · exact hlast ▸ hge y hy

theorem fetchRows_within (hsorted : sel.Pairwise fun a b => a.id ≤ b.id)
    (hge : ∀ y ∈ sel, r.lastid ≤ y.id) (hx : x ∈ (fetchRows r sel).1.rows) :
    x ∈ r.rows ∨ x.id ≤ (fetchRows r sel).1.lastid := by
  induction sel generalizing r with
  | nil => exact .inl hx
  | cons row sel ih =>
    have htail : ∀ y ∈ sel, row.id ≤ y.id := (pairwise_cons.mp hsorted).1
    simp only [fetchRows] at hx ⊢
    split_ifs at hx ⊢ with hstop
    · exact .inl hx
    · rcases ih (pairwise_cons.mp hsorted).2 htail hx with hold | hle
      · rcases mem_append.mp hold with hmem | hrow
        · exact .inl hmem
        · obtain rfl := mem_singleton.mp hrow
          exact .inr (le_fetchRows_lastid (r := { r with
            rows := r.rows ++ [x], lastid := x.id }) htail)
      · exact .inr hle

theorem selectRows_sorted (db : Db) (r : Reader) :
    (selectRows db r).Pairwise fun a b => a.id ≤ b.id := by
  have : Std.Total (fun a b : PbHistory => a.id ≤ b.id) := ⟨fun a b => Nat.le_total a.id b.id⟩
  have : IsTrans PbHistory (fun a b => a.id ≤ b.id) := ⟨fun a b c hab hbc => hab.trans hbc⟩
  exact (pairwise_insertionSort _ _).sublist (take_sublist _ _)

theorem fetchRows_selectRows_complete (hx : x ∈ db.proxyHistory) (hlast : r.lastid < x.id)
    (hle : x.id ≤ (fetchRows r (selectRows db r)).1.lastid) :
    ∃ y ∈ (fetchRows r (selectRows db r)).1.rows, y.id = x.id := by
  set all := (db.proxyHistory.filter (r.lastid < ·.id)).insertionSort (fun a b => a.id ≤ b.id)
    with hall
  have : Std.Total (fun a b : PbHistory => a.id ≤ b.id) := ⟨fun a b => Nat.le_total a.id b.id⟩
  have : IsTrans PbHistory (fun a b => a.id ≤ b.id) := ⟨fun a b c hab hbc => hab.trans hbc⟩
  have hsorted : all.Pairwise fun a b => a.id ≤ b.id := pairwise_insertionSort _ _
  have hmem : x ∈ all := by
    rw [hall, mem_insertionSort]
    simpa using ⟨hx, hlast⟩
  have hsel : selectRows db r = all.take (zbxMaxHrecords - r.rows.length) := rfl
  rcases mem_take_or_mem_drop (zbxMaxHrecords - r.rows.length) hmem with htake | hdrop
  · rcases fetchRows_complete (selectRows_sorted db r) (hsel ▸ htake) hle with hold | hfound
    · omega
    · exact hfound
  -- a row that the limit of the select cuts off has no smaller id than a selected one
  · rcases (fetchRows_rows r (selectRows db r)).2.2 with hsame | ⟨y, hy, hyrows, hylast⟩
    · omega
    · rw [← take_append_drop (zbxMaxHrecords - r.rows.length) all] at hsorted
      have hyx := (pairwise_append.mp hsorted).2.2 y (hsel ▸ hy) x hdrop
      exact ⟨y, hyrows, by omega⟩

theorem mem_selectRows (hx : x ∈ selectRows db r) : x ∈ db.proxyHistory ∧ r.lastid < x.id := by
  have hmem := mem_of_mem_take hx
  rw [mem_insertionSort] at hmem
  simpa using hmem

end Zabbix.ProxyBuffer
