import Zabbix.ProxyBuffer.Model
import Mathlib.Data.List.TakeWhile
import Mathlib.Data.List.Induction

/-!
# Rows in ascending id order and the list of open handles

Lists of history rows are read and cut at an id.
-/

namespace Zabbix.ProxyBuffer

open List Function

variable {rows rows' : List PbHistory} {x : PbHistory} {α β : Type*} {w : World} {h : ℕ}
  {l : List α} {a : α}

def Ascending (rows : List PbHistory) : Prop := rows.Pairwise (fun a b => a.id < b.id)

theorem Ascending.nil : Ascending [] := List.Pairwise.nil

theorem Ascending.sublist (h : Ascending rows) (hs : Sublist rows' rows) : Ascending rows' :=
  List.Pairwise.sublist hs h

theorem Ascending.append (h : Ascending rows) (h' : Ascending rows')
    (hlt : ∀ x ∈ rows, ∀ y ∈ rows', x.id < y.id) :
    Ascending (rows ++ rows') :=
  pairwise_append.mpr ⟨h, h', hlt⟩

theorem Ascending.take_lt_drop (h : Ascending rows) (k : ℕ) {y : PbHistory} (hx : x ∈ rows.take k)
    (hy : y ∈ rows.drop k) : x.id < y.id := by
  have happ : Ascending (rows.take k ++ rows.drop k) := by
    rw [take_append_drop]
    exact h
  exact (pairwise_append.mp happ).2.2 x hx y hy

theorem mem_dropWhile_of_not {p : α → Bool} {x : α} (hx : x ∈ l) (hp : ¬ p x) :
    x ∈ l.dropWhile p := by
  have hsplit : x ∈ l.takeWhile p ++ l.dropWhile p := by
    rw [takeWhile_append_dropWhile]
    exact hx
  rcases mem_append.mp hsplit with htake | hdrop
  · exact absurd (mem_takeWhile_imp htake) hp
  · exact hdrop

theorem Ascending.lt_of_mem_dropWhile (h : Ascending rows) (k : ℕ)
    (hx : x ∈ rows.dropWhile (·.id ≤ k)) : k < x.id := by
  induction rows with
  | nil => simp at hx
  | cons row rows ih =>
    have hrest := (pairwise_cons.mp h).2
    have hhead := (pairwise_cons.mp h).1
    by_cases hk : row.id ≤ k
    · rw [dropWhile_cons_of_pos (by simpa using hk)] at hx
      exact ih hrest hx
    · rw [dropWhile_cons_of_neg (by simpa using hk)] at hx
      rcases mem_cons.mp hx with rfl | htail
      · omega
      · have := hhead x htail
        omega

theorem le_lastRowId (h : Ascending rows) (hx : x ∈ rows) : x.id ≤ lastRowId rows := by
  induction rows using reverseRecOn with
  | nil => simp at hx
  | append_singleton rows row _ =>
    have hlast : lastRowId (rows ++ [row]) = row.id := by simp [lastRowId]
    rw [hlast]
    rcases mem_append.mp hx with hinit | hrow
    · have := (pairwise_append.mp h).2.2 x hinit row (by simp)
      omega
    · obtain rfl : x = row := by simpa using hrow
      exact le_rfl

@[simp] theorem length_pbHistorySetRowIds (last : ℕ) (rows : List PbHistory) :
    (pbHistorySetRowIds last rows).length = rows.length := by
  induction rows generalizing last with
  | nil => rfl
  | cons row rows ih => simp [pbHistorySetRowIds, ih]

theorem mem_pbHistorySetRowIds {last : ℕ} (hx : x ∈ pbHistorySetRowIds last rows) :
    last < x.id ∧ x.id ≤ last + rows.length := by
  induction rows generalizing last with
  | nil => simp [pbHistorySetRowIds] at hx
  | cons row rows ih =>
    simp only [pbHistorySetRowIds, mem_cons] at hx
    rw [length_cons]
    rcases hx with rfl | hrest
    · dsimp only
      omega
    · have := ih hrest
      omega

theorem ascending_pbHistorySetRowIds (last : ℕ) (rows : List PbHistory) :
    Ascending (pbHistorySetRowIds last rows) := by
  induction rows generalizing last with
  | nil => exact Ascending.nil
  | cons row rows ih =>
    refine pairwise_cons.mpr ⟨fun x hx => ?_, ih (last + 1)⟩
    exact (mem_pbHistorySetRowIds hx).1

theorem countP_update_of_notMem [DecidableEq α] (ha : a ∉ l) (f : α → β) (b : β) (p : β → Bool) :
    l.countP (fun x => p (update f a b x)) = l.countP (fun x => p (f x)) := by
  refine countP_congr fun x hx => ?_
  have hne : x ≠ a := fun h => ha (h ▸ hx)
  rw [update_of_ne hne]

theorem countP_update [DecidableEq α] (hl : l.Nodup) (ha : a ∈ l) (f : α → β) (b : β) (p : β → Bool)
    :
    l.countP (fun x => p (update f a b x)) + (if p (f a) then 1 else 0) =
      l.countP (fun x => p (f x)) + (if p b then 1 else 0) := by
  induction l with
  | nil => simp at ha
  | cons x l ih =>
    have hx := (nodup_cons.mp hl).1
    have hrest := (nodup_cons.mp hl).2
    rcases mem_cons.mp ha with rfl | hmem
    · simp only [countP_cons, update_self]
      rw [countP_update_of_notMem hx]
      omega
    · have hne : x ≠ a := fun h => hx (h ▸ hmem)
      simp only [countP_cons, update_of_ne hne]
      have := ih hrest hmem
      omega

theorem countP_erase_update [DecidableEq α] (hl : l.Nodup) (ha : a ∈ l) (f : α → β) (b : β)
    (p : β → Bool) :
    (l.erase a).countP (fun x => p (update f a b x)) + (if p (f a) then 1 else 0) =
      l.countP (fun x => p (f x)) := by
  have hnot : a ∉ l.erase a := fun h => ((Nodup.mem_erase_iff hl).mp h).1 rfl
  have hperm := (perm_cons_erase ha).countP_eq fun x => p (f x)
  rw [countP_cons] at hperm
  rw [countP_update_of_notMem hnot, hperm]

structure Registered (w : World) : Prop where
  nodup : w.pb.historyHandleids.Nodup
  issued : ∀ h ∈ w.pb.historyHandleids, h ≤ w.pb.handleid
  listed : ∀ h, w.handles h ≠ .closed → h ∈ w.pb.historyHandleids
  counted : w.pb.dbHandlesNum = w.pb.historyHandleids.countP fun h => (w.handles h).usesDb

theorem Registered.usesDb_eq_false (hw : Registered w) (hzero : w.pb.dbHandlesNum = 0) (h : ℕ) :
    (w.handles h).usesDb = false := by
  by_contra huses
  have hopen : w.handles h ≠ .closed := by
    intro hclosed
    simp [hclosed, Handle.usesDb] at huses
  have hpos : 0 < w.pb.historyHandleids.countP fun h => (w.handles h).usesDb :=
    countP_pos_iff.mpr ⟨h, hw.listed h hopen, by simpa using huses⟩
  have := hw.counted
  omega

theorem Registered.pending_eq_nil (hw : Registered w) (hzero : w.pb.dbHandlesNum = 0) (h : ℕ) :
    (w.handles h).pending = [] := by
  have huses := hw.usesDb_eq_false hzero h
  cases hh : w.handles h with
  | inserting rows pending => simp [hh, Handle.usesDb] at huses
  | closed => rfl
  | opened state rows => rfl
  | committed rows lastid => rfl

@[simp] theorem zbxPbHistoryOpen_historyHandleids (w : World) :
    (zbxPbHistoryOpen w).pb.historyHandleids = w.pb.historyHandleids ++ [w.pb.handleid + 1] := by
  cases hs : w.pb.state <;> simp [zbxPbHistoryOpen, pbRegisterHandle, getPbDst, hs]

@[simp] theorem zbxPbHistoryOpen_handleid (w : World) :
    (zbxPbHistoryOpen w).pb.handleid = w.pb.handleid + 1 := by
  cases hs : w.pb.state <;> simp [zbxPbHistoryOpen, pbRegisterHandle, getPbDst, hs]

@[simp] theorem zbxPbHistoryOpen_handles (w : World) :
    (zbxPbHistoryOpen w).handles =
      update w.handles (w.pb.handleid + 1) (.opened (getPbDst w.pb.state) []) := rfl

theorem Registered.openHandle (hw : Registered w) : Registered (zbxPbHistoryOpen w) := by
  have hnew : w.pb.handleid + 1 ∉ w.pb.historyHandleids := fun hmem => by
    have := hw.issued _ hmem
    omega
  refine ⟨?_, ?_, ?_, ?_⟩
  · rw [zbxPbHistoryOpen_historyHandleids]
    refine nodup_append.mpr ⟨hw.nodup, by simp, fun a ha b hb hab => ?_⟩
    obtain rfl : b = w.pb.handleid + 1 := by simpa using hb
    exact hnew (hab ▸ ha)
  · intro h hmem
    rw [zbxPbHistoryOpen_historyHandleids] at hmem
    rw [zbxPbHistoryOpen_handleid]
    rcases mem_append.mp hmem with hold | hlast
    · have := hw.issued h hold
      omega
    · have : h = w.pb.handleid + 1 := by simpa using hlast
      omega
  · intro h hopen
    rw [zbxPbHistoryOpen_historyHandleids, mem_append]
    by_cases hh : h = w.pb.handleid + 1
    · exact .inr (by simp [hh])
    · rw [zbxPbHistoryOpen_handles, update_of_ne hh] at hopen
      exact .inl (hw.listed h hopen)
  · rw [zbxPbHistoryOpen_historyHandleids, zbxPbHistoryOpen_handles, countP_append,
      countP_update_of_notMem hnew, ← hw.counted]
    cases hs : w.pb.state <;>
      simp [zbxPbHistoryOpen, pbRegisterHandle, getPbDst, hs, Handle.usesDb]

theorem Registered.replace (hw : Registered w) (hopen : w.handles h ≠ .closed) {hd : Handle}
    (huses : hd.usesDb = (w.handles h).usesDb) :
    Registered { w with handles := update w.handles h hd } := by
  refine ⟨hw.nodup, hw.issued, ?_, ?_⟩
  · intro k hk
    by_cases hkh : k = h
    · exact hkh ▸ hw.listed h hopen
    · dsimp only at hk
      rw [update_of_ne hkh] at hk
      exact hw.listed k hk
  · have hcount := countP_update hw.nodup (hw.listed h hopen) w.handles hd Handle.usesDb
    rw [huses] at hcount
    have := hw.counted
    dsimp only
    omega

theorem Registered.startInsert (hw : Registered w) {rows₀ : List PbHistory}
    (hh : w.handles h = .opened .memory rows₀) (rows pending : List PbHistory) :
    Registered (startInsert w h rows pending) := by
  have hopen : w.handles h ≠ .closed := by simp [hh]
  refine ⟨hw.nodup, hw.issued, ?_, ?_⟩
  · intro k hk
    by_cases hkh : k = h
    · exact hkh ▸ hw.listed h hopen
    · dsimp only [ProxyBuffer.startInsert] at hk
      rw [update_of_ne hkh] at hk
      exact hw.listed k hk
  · have hcount := countP_update hw.nodup (hw.listed h hopen) w.handles
      (.inserting rows pending) Handle.usesDb
    have hcounted := hw.counted
    have hold : (w.handles h).usesDb = false := by simp [hh, Handle.usesDb]
    have hnew : (Handle.inserting rows pending).usesDb = true := rfl
    simp only [hold, hnew, Bool.false_eq_true, if_false, if_true] at hcount
    dsimp only [ProxyBuffer.startInsert]
    omega

theorem Registered.closeHandle (hw : Registered w) (hopen : w.handles h ≠ .closed) (n : ℕ)
    (hn : n + (if (w.handles h).usesDb then 1 else 0) = w.pb.dbHandlesNum) (historyLastidDb : ℕ)
    (rows : List PbHistory) :
    Registered (finishClose
      { w with pb := { w.pb with historyLastidDb := historyLastidDb, dbHandlesNum := n } } h
      rows) := by
  refine ⟨hw.nodup.erase h, fun k hk => hw.issued k (mem_of_mem_erase hk), ?_, ?_⟩
  · intro k hk
    by_cases hkh : k = h
    · simp [finishClose, hkh] at hk
    · dsimp only [finishClose] at hk
      rw [update_of_ne hkh] at hk
      exact (mem_erase_of_ne hkh).mpr (hw.listed k hk)
  · have hcount := countP_erase_update hw.nodup (hw.listed h hopen) w.handles .closed
      Handle.usesDb
    have hcounted := hw.counted
    dsimp only [finishClose, pbDeregisterHandle]
    omega

end Zabbix.ProxyBuffer
