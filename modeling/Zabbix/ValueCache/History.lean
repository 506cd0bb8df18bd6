import Mathlib.Data.Prod.Lex
import Zabbix.Foundation.SortedRuns
import Zabbix.ValueCache.Chunks

/-!
# The history in the chunks

The values of an item, from the oldest to the newest, and what holds of the chunks between the
operations of the value cache.
-/

namespace Zabbix.ValueCache

open Zabbix.Preproc (Timespec zbxTimespecCompare ItemValueType)

/-- Times in the order of `zbx_timespec_compare`. -/
def timeKey (ts : Timespec) : ℤ ×ₗ ℤ := toLex (ts.sec, ts.ns)

def recordKey (record : HistoryRecord) : ℤ ×ₗ ℤ := timeKey record.timestamp

variable {t₁ t₂ : Timespec} {r₁ r₂ : HistoryRecord}

theorem timeKey_le_iff :
    timeKey t₁ ≤ timeKey t₂ ↔ t₁.sec < t₂.sec ∨ t₁.sec = t₂.sec ∧ t₁.ns ≤ t₂.ns :=
  Prod.Lex.toLex_le_toLex

theorem compare_le_iff : zbxTimespecCompare t₁ t₂ ≤ 0 ↔ timeKey t₁ ≤ timeKey t₂ := by
  rw [timeKey_le_iff, zbxTimespecCompare]
  split_ifs <;> omega

theorem compare_pos_iff : 0 < zbxTimespecCompare t₁ t₂ ↔ timeKey t₂ < timeKey t₁ := by
  rw [← not_le, compare_le_iff, not_le]

theorem compareAsc_eq (r₁ r₂ : HistoryRecord) :
    zbxHistoryRecordCompareAsc r₁ r₂ = zbxTimespecCompare r₁.timestamp r₂.timestamp := rfl

theorem sec_le_of_key (h : recordKey r₁ ≤ recordKey r₂) : r₁.timestamp.sec ≤ r₂.timestamp.sec := by
  have hle := timeKey_le_iff.mp h
  omega

theorem key_le_of_sec (h : r₁.timestamp.sec < r₂.timestamp.sec) : recordKey r₁ ≤ recordKey r₂ :=
  timeKey_le_iff.mpr (Or.inl h)

namespace VcItem

def values (item : VcItem) (p : ℕ) : List HistoryRecord :=
  span (item.chunks p).slots (item.chunks p).firstValue (item.chunks p).lastValue

def history (item : VcItem) (ps : List ℕ) : List HistoryRecord := ps.flatMap item.values

end VcItem

variable {item item' : VcItem} {ps qs : List ℕ} {p q : ℕ}

theorem history_append (item : VcItem) (ps qs : List ℕ) :
    item.history (ps ++ qs) = item.history ps ++ item.history qs := List.flatMap_append

theorem history_cons (item : VcItem) (p : ℕ) (ps : List ℕ) :
    item.history (p :: ps) = item.values p ++ item.history ps := List.flatMap_cons

theorem history_singleton (item : VcItem) (p : ℕ) : item.history [p] = item.values p := by
  rw [history_cons]
  exact List.append_nil _

theorem values_congr (h : item'.body p = item.body p) : item'.values p = item.values p := by
  simp only [VcItem.body, Prod.mk.injEq] at h
  rw [VcItem.values, VcItem.values, h.1, h.2.1, h.2.2.2]

theorem history_congr (h : ∀ p ∈ ps, item'.body p = item.body p) :
    item'.history ps = item.history ps := by
  induction ps with
  | nil => rfl
  | cons p ps ih =>
    obtain ⟨hp, hps⟩ := List.forall_mem_cons.mp h
    rw [history_cons, history_cons, ih hps, values_congr hp]

structure Ordered (item : VcItem) (ps : List ℕ) : Prop extends Chained item ps where
  nonempty : ∀ p ∈ ps, (item.chunks p).firstValue ≤ (item.chunks p).lastValue
  sorted : SortedBy recordKey (item.history ps)

def Cacheable (valueType : ItemValueType) : Prop := valueType ≠ .bin ∧ valueType ≠ .none

instance : DecidablePred Cacheable := fun _ => inferInstanceAs (Decidable (_ ∧ _))

structure WellFormed (item : VcItem) (ps : List ℕ) : Prop extends Ordered item ps where
  slots : ∀ p ∈ ps, 0 ≤ (item.chunks p).firstValue ∧
    (item.chunks p).lastValue < (item.chunks p).slotsNum
  total : item.valuesTotal = (item.history ps).length
  type : Cacheable item.valueType

end Zabbix.ValueCache
