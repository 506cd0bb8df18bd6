import Mathlib.Data.List.Induction
import Zabbix.Agent.DiskCache

/-!
# What the disk cache sends and deletes
-/

namespace Zabbix.ResultCache

open List Zabbix.Transition

/-! ### The tables in the order of their ids -/

namespace Row

variable {α : Type} {rows : List (Row α)} {row a b : Row α} {p : Row α → Bool} {id : ℕ}

theorem select_sorted (h : rows.Pairwise fun a b => a.id ≠ b.id) :
    (rows.insertionSort fun a b => a.id ≤ b.id).Pairwise fun a b => a.id < b.id := by
  have hle := pairwise_insertionSort (fun a b : Row α => a.id ≤ b.id) rows
  have hne : (rows.insertionSort fun a b => a.id ≤ b.id).Pairwise fun a b => a.id ≠ b.id :=
    (Perm.pairwise_iff (fun h => Ne.symm h) (perm_insertionSort _ rows)).mpr h
  exact (hle.and hne).imp fun h => lt_of_le_of_ne h.1 h.2

theorem select_pairwise (h : rows.Pairwise fun a b => a.id ≠ b.id) :
    (select rows).Pairwise fun a b => a.id < b.id :=
  (select_sorted h).sublist (take_sublist _ _)

theorem mem_of_mem_select (h : a ∈ select rows) : a ∈ rows :=
  (mem_insertionSort _).mp (mem_of_mem_take h)

theorem lt_of_mem_select (h : rows.Pairwise fun a b => a.id ≠ b.id) (ha : a ∈ select rows)
    (hb : b ∈ rows) (hout : b ∉ select rows) : a.id < b.id := by
  have hsorted := select_sorted h
  have hmem := (mem_insertionSort fun a b : Row α => a.id ≤ b.id).mpr hb
  rw [← take_append_drop dataLimit (rows.insertionSort _)] at hsorted hmem
  exact (pairwise_append.mp hsorted).2.2 a ha b ((mem_append.mp hmem).resolve_left hout)

theorem select_eq_take (h : rows.Pairwise fun a b => a.id < b.id) :
    select rows = rows.take dataLimit := by
  rw [select, List.Pairwise.insertionSort_eq (h.imp fun h => h.le)]

def remembered (p : Row α → Bool) (rows : List (Row α)) : ℕ :=
  rows.foldl (fun id row => if p row then row.id else id) 0

theorem remembered_concat :
    remembered p (rows ++ [row]) = if p row then row.id else remembered p rows := by
  simp [remembered]

theorem le_remembered_iff (h : rows.Pairwise fun a b => a.id < b.id) (hid : 1 ≤ id) :
    id ≤ remembered p rows ↔ ∃ row ∈ rows, p row = true ∧ id ≤ row.id := by
  induction rows using reverseRecOn with
  | nil => simpa [remembered] using by omega
  | append_singleton rows last ih =>
    obtain ⟨hrows, -, hlast⟩ := pairwise_append.mp h
    rw [remembered_concat]
    simp only [mem_append, mem_singleton, or_and_right, exists_or, exists_eq_left]
    split_ifs with hp
    · refine ⟨fun hle => .inr ⟨hp, hle⟩, ?_⟩
      rintro (⟨row, hrow, -, hle⟩ | ⟨-, hle⟩)
      · exact hle.trans (hlast row hrow last (by simp)).le
      · exact hle
    · simp [ih hrows, hp]

end Row

namespace DiskCache

variable {c d : DiskCache} {now : ℤ} {r : PluginResult} {cr : CommandResult} {u : Reply}

structure Ordered (c : DiskCache) : Prop where
  data : c.data.Pairwise fun a b => a.id < b.id
  log : c.log.Pairwise fun a b => a.id < b.id
  command : c.command.Pairwise fun a b => a.id < b.id
  apart : ∀ a ∈ c.data, ∀ b ∈ c.log, a.id ≠ b.id
  dataRow : ∀ row ∈ c.data, row.source.persistent = false ∧ 1 ≤ row.id ∧ row.id ≤ c.lastDataID
  logRow : ∀ row ∈ c.log, row.source.persistent = true ∧ 1 ≤ row.id ∧ row.id ≤ c.lastDataID
  commandRow : ∀ row ∈ c.command, row.id ≤ c.lastCommandID

theorem Ordered.shrink (h : c.Ordered) (hdata : d.data.Sublist c.data)
    (hlog : d.log.Sublist c.log) (hcommand : d.command.Sublist c.command)
    (hid : d.lastDataID = c.lastDataID) (hcid : d.lastCommandID = c.lastCommandID) :
    d.Ordered where
  data := h.data.sublist hdata
  log := h.log.sublist hlog
  command := h.command.sublist hcommand
  apart a ha b hb := h.apart a (hdata.subset ha) b (hlog.subset hb)
  dataRow row hrow := hid ▸ h.dataRow row (hdata.subset hrow)
  logRow row hrow := hid ▸ h.logRow row (hlog.subset hrow)
  commandRow row hrow := hcid ▸ h.commandRow row (hcommand.subset hrow)

theorem pairwise_concat {α : Type} {rows : List (Row α)} {row : Row α}
    (h : rows.Pairwise fun a b => a.id < b.id) (hrow : ∀ a ∈ rows, a.id < row.id) :
    (rows ++ [row]).Pairwise fun a b => a.id < b.id :=
  pairwise_append.mpr ⟨h, pairwise_singleton _ _, fun a ha b hb => by
    rw [mem_singleton.mp hb]
    exact hrow a ha⟩

variable (h : c.Ordered)

include h

theorem Ordered.addData (hr : r.persistent = false) :
    ({ c with
        lastDataID := c.lastDataID + 1
        data := c.data ++ [⟨c.lastDataID + 1, now, r⟩] } : DiskCache).Ordered where
  data := pairwise_concat h.data fun a ha => Nat.lt_succ_of_le (h.dataRow a ha).2.2
  log := h.log
  command := h.command
  apart := by
    simp only [mem_append, mem_singleton]
    rintro a (ha | rfl) b hb
    · exact h.apart a ha b hb
    · have := (h.logRow b hb).2.2
      dsimp only
      omega
  dataRow := by
    simp only [mem_append, mem_singleton]
    rintro row (hrow | rfl)
    · have := h.dataRow row hrow
      exact ⟨this.1, this.2.1, by omega⟩
    · exact ⟨hr, by simp, le_rfl⟩
  logRow row hrow := by
    have := h.logRow row hrow
    exact ⟨this.1, this.2.1, Nat.le_succ_of_le this.2.2⟩
  commandRow := h.commandRow

theorem Ordered.addLog (hr : r.persistent = true) :
    ({ c with
        lastDataID := c.lastDataID + 1
        log := c.log ++ [⟨c.lastDataID + 1, now, r⟩] } : DiskCache).Ordered where
  data := h.data
  log := pairwise_concat h.log fun a ha => Nat.lt_succ_of_le (h.logRow a ha).2.2
  command := h.command
  apart := by
    simp only [mem_append, mem_singleton]
    rintro a ha b (hb | rfl)
    · exact h.apart a ha b hb
    · have := (h.dataRow a ha).2.2
      dsimp only
      omega
  dataRow row hrow := by
    have := h.dataRow row hrow
    exact ⟨this.1, this.2.1, Nat.le_succ_of_le this.2.2⟩
  logRow := by
    simp only [mem_append, mem_singleton]
    rintro row (hrow | rfl)
    · have := h.logRow row hrow
      exact ⟨this.1, this.2.1, by omega⟩
    · exact ⟨hr, by simp, le_rfl⟩
  commandRow := h.commandRow

theorem Ordered.addCommand :
    ({ c with
        lastCommandID := c.lastCommandID + 1
        command := c.command ++ [⟨c.lastCommandID + 1, now, cr⟩] } : DiskCache).Ordered where
  data := h.data
  log := h.log
  command := pairwise_concat h.command fun a ha => Nat.lt_succ_of_le (h.commandRow a ha)
  apart := h.apart
  dataRow := h.dataRow
  logRow := h.logRow
  commandRow := by
    simp only [mem_append, mem_singleton]
    rintro row (hrow | rfl)
    · exact Nat.le_succ_of_le (h.commandRow row hrow)
    · exact le_rfl

theorem Ordered.write : (c.write now r).Ordered := by
  unfold DiskCache.write
  dsimp only
  split_ifs with hr <;>
    first
      | exact (h.addLog hr).shrink (.refl _) (.refl _) (.refl _) rfl rfl
      | exact (h.addData (by simpa using hr)).shrink
          (.append (by first | exact .refl _ | exact filter_sublist) (.refl _)) (.refl _)
          (.refl _) rfl rfl

theorem Ordered.writeCommand : (c.writeCommand now cr).Ordered := by
  unfold DiskCache.writeCommand
  dsimp only
  split_ifs <;>
    exact h.addCommand.shrink (.refl _) (.refl _)
      (.append (by first | exact .refl _ | exact filter_sublist) (.refl _)) rfl rfl

theorem Ordered.upload : (c.upload now u).1.Ordered := by
  unfold DiskCache.upload
  dsimp only
  split_ifs <;>
    exact h.shrink (by first | exact .refl _ | exact filter_sublist)
      (by first | exact .refl _ | exact filter_sublist)
      (by first | exact .refl _ | exact filter_sublist) rfl rfl

omit h

theorem le_foldl_max {α : Type} {row : Row α} {rows : List (Row α)} {id : ℕ}
    (h : row.id ≤ id ∨ row ∈ rows) :
    row.id ≤ rows.foldl (fun id row => max id row.id) id := by
  induction rows generalizing id with
  | nil => simpa using h
  | cons first rows ih =>
    apply ih
    rcases h with h | h
    · exact .inl (h.trans (le_max_left _ _))
    · rcases mem_cons.mp h with rfl | h
      · exact .inl (le_max_right _ _)
      · exact .inr h

theorem Ordered.restart (h : c.Ordered) (period : ℤ) : (c.restart period).Ordered where
  data := h.data
  log := .nil
  command := h.command
  apart _ _ _ hb := absurd hb not_mem_nil
  dataRow row hrow := ⟨(h.dataRow row hrow).1, (h.dataRow row hrow).2.1, le_foldl_max (.inr hrow)⟩
  logRow _ hrow := absurd hrow not_mem_nil
  commandRow _ hrow := le_foldl_max (.inr hrow)

theorem ordered_of_reachable (h : Reachable c) : c.Ordered := by
  refine h.invariant ?_ fun s e t hs _ hstep => ?_
  · rintro _ ⟨period, rfl⟩
    constructor <;> simp [initial]
  · cases e <;> obtain rfl := Option.some.inj hstep
    case write => exact hs.write
    case writeCommand => exact hs.writeCommand
    case upload => exact hs.upload
    case updateOptions => exact hs.shrink (.refl _) (.refl _) (.refl _) rfl rfl
    case restart => exact hs.restart _

/-! ### The results -/

/-- `resultFetch` takes none of the columns for one that is not set. -/
def Unmarked (r : PluginResult) : Prop :=
  (agentData 0 r).value ≠ some "" ∧ r.eventSource ≠ some "" ∧ r.mtime ≠ some dbVariableNotSet ∧
    r.eventID ≠ some dbVariableNotSet ∧ r.eventSeverity ≠ some dbVariableNotSet ∧
    r.eventTimestamp ≠ some dbVariableNotSet ∧ ∀ n ∈ r.lastLogsize, n < 18446744073709551615

def memoryData (row : Row PluginResult) : AgentData :=
  { agentData row.id row.source with persistent := false }

theorem nullable_getD {β : Type} [DecidableEq β] {marker : β} {x : Option β} :
    Row.nullable marker (x.getD marker) = x ↔ x ≠ some marker := by
  cases x with
  | none => simp [Row.nullable]
  | some b => by_cases hb : b = marker <;> simp [Row.nullable, hb]

theorem lastLogsize_readBack {x : Option ℕ} :
    ((Row.nullable dbVariableNotSet
      ((x.map fun n : ℕ => (n : ℤ).bmod 18446744073709551616).getD dbVariableNotSet)).map
        fun z => (z % 18446744073709551616).toNat) = x ↔ ∀ n ∈ x, n < 18446744073709551615 := by
  cases x with
  | none => simp [Row.nullable]
  | some n =>
    have hbmod : (n : ℤ).bmod 18446744073709551616 = -1 ↔
        n % 18446744073709551616 = 18446744073709551615 := by
      rw [Int.bmod_def]
      split <;> omega
    have hback : ((n : ℤ).bmod 18446744073709551616 % 18446744073709551616).toNat =
        n % 18446744073709551616 := by
      rw [Int.bmod_def]
      split <;> omega
    rw [Option.map_some, Option.getD_some]
    unfold Row.nullable dbVariableNotSet
    split_ifs with h
    · have hlast := hbmod.mp h
      refine ⟨nofun, fun hn => absurd (hn n rfl) ?_⟩
      omega
    · have hne := mt hbmod.mpr h
      rw [Option.map_some, hback, Option.some_inj]
      refine ⟨fun hn m hm => ?_, fun hn => ?_⟩
      · obtain rfl := Option.some.inj hm
        omega
      · have hlt := hn n rfl
        omega

theorem state_readBack (row : Row PluginResult) :
    Row.nullable dbVariableNotSet row.state = row.source.error.map fun _ => stateNotSupported := by
  unfold Row.state
  rw [nullable_getD]
  cases row.source.error <;> simp [stateNotSupported, dbVariableNotSet]

theorem resultFetch_eq_iff (row : Row PluginResult) :
    row.resultFetch = memoryData row ↔ Unmarked row.source := by
  simp only [Row.resultFetch, memoryData, agentData, AgentData.mk.injEq, Row.value, nullable_getD,
    Row.lastlogsize, lastLogsize_readBack, state_readBack, Row.clock, Row.ns, Unmarked]
  tauto

def counted (row : Row PluginResult) : Bool := row.resultFetch.lastLogsize = none

theorem resultsGet_eq (c : DiskCache) : c.resultsGet =
    ⟨c.batch.map Row.resultFetch, Row.remembered counted c.batch,
      Row.remembered (!counted ·) c.batch⟩ := by
  unfold resultsGet
  induction c.batch using reverseRecOn with
  | nil => rfl
  | append_singleton rows last ih =>
    rw [foldl_concat, ih, Fetched.next, Row.remembered_concat, Row.remembered_concat, map_append]
    by_cases hlast : last.resultFetch.lastLogsize = none <;> simp [counted, hlast]

theorem resultsGet_length (c : DiskCache) : c.resultsGet.results.length = 0 ↔ c.batch = [] := by
  simp [resultsGet_eq]

theorem upload_data (c : DiskCache) (now : ℤ) (u : Reply) :
    (c.upload now u).2.elim [] (·.data) = c.resultsGet.results := by
  unfold DiskCache.upload
  dsimp only
  split_ifs with h
  · exact (eq_nil_of_length_eq_zero (by omega)).symm
  all_goals rfl

theorem Ordered.rows_ne (h : c.Ordered) : (c.data ++ c.log).Pairwise fun a b => a.id ≠ b.id :=
  pairwise_append.mpr
    ⟨h.data.imp fun h => h.ne, h.log.imp fun h => h.ne, fun a ha b hb => h.apart a ha b hb⟩

theorem Ordered.one_le (h : c.Ordered) {row : Row PluginResult} (hrow : row ∈ c.data ++ c.log) :
    1 ≤ row.id := by
  rcases mem_append.mp hrow with hrow | hrow
  · exact (h.dataRow row hrow).2.1
  · exact (h.logRow row hrow).2.1

theorem filter_zero_lt {rows : List (Row PluginResult)} (h : ∀ row ∈ rows, 1 ≤ row.id) :
    rows.filter (fun row => 0 < row.id) = rows :=
  filter_eq_self.mpr fun row hrow => decide_eq_true (h row hrow)

theorem upload_tables (h : c.Ordered) (hu : u.marshalled = true ∧ u.errs = false) :
    (c.upload now u).1.data = c.data.filter (fun row => c.resultsGet.maxDataId < row.id) ∧
      (c.upload now u).1.log = c.log.filter fun row => c.resultsGet.maxLogId < row.id := by
  have hdata := filter_zero_lt fun row hrow => (h.dataRow row hrow).2.1
  have hlog := filter_zero_lt fun row hrow => (h.logRow row hrow).2.1
  unfold DiskCache.upload
  dsimp only
  rw [hu.1, hu.2]
  split_ifs with hempty hsucceeded hmaxData hmaxLog <;> try trivial
  · have hbatch : c.batch = [] := (resultsGet_length c).mp (by omega)
    simp [resultsGet_eq, hbatch, Row.remembered, hdata, hlog]
  all_goals
    refine ⟨?_, ?_⟩ <;> first
      | rfl
      | rw [not_not.mp ‹¬c.resultsGet.maxDataId ≠ 0›]; exact hdata.symm
      | rw [not_not.mp ‹¬c.resultsGet.maxLogId ≠ 0›]; exact hlog.symm

theorem filter_congr_iff {α : Type} {p q : α → Bool} {l : List α} :
    l.filter p = l.filter q ↔ ∀ x ∈ l, p x = true ↔ q x = true := by
  refine ⟨fun h x hx => ?_, fun h => filter_congr fun x hx => Bool.eq_iff_iff.mpr (h x hx)⟩
  have hmem : x ∈ l.filter p ↔ x ∈ l.filter q := by rw [h]
  simpa [hx] using hmem

theorem filter_eq_iff (h : c.Ordered) {rows : List (Row PluginResult)}
    {p : Row PluginResult → Bool} (hrows : ∀ row ∈ rows, row ∈ c.data ++ c.log) :
    rows.filter (fun row => Row.remembered p c.batch < row.id) = rows.filter (· ∉ c.batch) ↔
      ∀ row ∈ rows, row ∈ c.batch → ∃ later ∈ c.batch, p later = true ∧ row.id ≤ later.id := by
  rw [filter_congr_iff]
  refine forall₂_congr fun row hrow => ?_
  have hle : row.id ≤ Row.remembered p c.batch ↔ _ :=
    Row.le_remembered_iff (Row.select_pairwise h.rows_ne) (h.one_le (hrows row hrow))
  rw [decide_eq_true_eq, decide_eq_true_eq, ← not_le, not_iff_not, hle]
  refine ⟨fun hiff => hiff.mpr, fun himp => ⟨fun hlater => ?_, himp⟩⟩
  obtain ⟨later, hmem, -, hid⟩ := hlater
  by_contra hout
  have := Row.lt_of_mem_select h.rows_ne hmem (hrows row hrow) hout
  omega

/-- Every upload sends the data of the batch, and one that succeeds deletes just its rows. -/
def UploadsExactly (c : DiskCache) : Prop :=
  ∀ now u, (c.upload now u).2.elim [] (·.data) = c.batch.map memoryData ∧
    (u.marshalled = true ∧ u.errs = false →
      (c.upload now u).1.data = c.data.filter (· ∉ c.batch) ∧
        (c.upload now u).1.log = c.log.filter (· ∉ c.batch))

def memoryCommand (cr : CommandResult) : AgentCommands where
  id := cr.id
  value := if cr.result = "" then none else some cr.result
  error := cr.error

theorem memoryCommand_injective {a b : CommandResult} (h : memoryCommand a = memoryCommand b) :
    a = b := by
  obtain ⟨id, result, error⟩ := a
  obtain ⟨id', result', error'⟩ := b
  simp only [memoryCommand, AgentCommands.mk.injEq] at h
  obtain ⟨rfl, hvalue, rfl⟩ := h
  split_ifs at hvalue <;> simp_all

variable {rows : List (Row CommandResult)} {last : Row CommandResult}

theorem scan_concat : scan (rows ++ [last]) = (scan rows).next last := foldl_concat ..

theorem scan_sets (rows : List (Row CommandResult)) : (scan rows).results = rows.length ∧
    (scan rows).valueSet = rows.any (·.source.result ≠ "") ∧
      (scan rows).errorSet = rows.any (·.error ≠ "") := by
  induction rows using reverseRecOn with
  | nil => exact ⟨rfl, rfl, rfl⟩
  | append_singleton rows last ih =>
    obtain ⟨hresults, hvalue, herror⟩ := ih
    rw [scan_concat]
    simp [Scan.next, hresults, hvalue, herror]

theorem scan_result (hrows : ∀ row ∈ rows, row.source = last.source)
    (herror : last.source.error ≠ some "") :
    (scan (rows ++ [last])).result = memoryCommand last.source := by
  have hall : ∀ row ∈ rows ++ [last], row.source = last.source := by
    simpa [or_imp, forall_and] using hrows
  obtain ⟨-, hvalue, herrorSet⟩ := scan_sets (rows ++ [last])
  have hvalue' : (scan (rows ++ [last])).valueSet = decide (last.source.result ≠ "") := by
    rw [hvalue, Bool.eq_iff_iff, any_eq_true]
    refine ⟨fun ⟨row, hrow, hset⟩ => hall row hrow ▸ hset, fun hset => ⟨last, by simp, hset⟩⟩
  have herror' : (scan (rows ++ [last])).errorSet = decide (last.error ≠ "") := by
    rw [herrorSet, Bool.eq_iff_iff, any_eq_true]
    refine ⟨fun ⟨row, hrow, hset⟩ => ?_, fun hset => ⟨last, by simp, hset⟩⟩
    exact decide_eq_true (by simpa [Row.error, hall row hrow] using hset)
  rw [Scan.result, hvalue', herror', scan_concat]
  cases herr : last.source.error with
  | none => simp [Scan.next, memoryCommand, Row.error, herr]
  | some text =>
    have htext : text ≠ "" := fun h => herror (by rw [herr, h])
    simp [Scan.next, memoryCommand, Row.error, herr, htext]

end DiskCache
end Zabbix.ResultCache
