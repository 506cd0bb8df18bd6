import Mathlib.Algebra.GroupWithZero.Nat
import Mathlib.Algebra.Order.BigOperators.Group.List
import Mathlib.Algebra.Order.Group.Nat
import Zabbix.ValueCache.Filling
import Zabbix.ValueCache.Lookup

/-!
# Runs of operations on an item

Whatever is done to the history of an item in the value cache, the chunks stay well formed as long as
no memory is refused.
-/

namespace Zabbix.ValueCache

open List Option
open Zabbix.Preproc (ItemValueType)

inductive Operation
  | addValueAtHead (value : HistoryRecord)
  | addValuesAtTail (values : List HistoryRecord)
  | cleanCache (timestamp : ℤ)
  | removeValues (timestamp : ℤ)
  /-- The value cache changes fields besides the chunks. -/
  | update (status : ℕ) (activeRange dailyRange dbCachedFrom : ℤ)

def Operation.step (shm : SharedMemory) (item : VcItem) : Operation → Option VcItem
  | .addValueAtHead value =>
    (vchItemAddValueAtHead shm true (fun _ => true) item value).map Prod.fst
  | .addValuesAtTail values =>
    (vchItemAddValuesAtTail shm ⟨fun _ => true, fun _ _ => true⟩ item values).map Prod.fst
  | .cleanCache timestamp => vchItemCleanCache item timestamp
  | .removeValues timestamp => vchItemRemoveValues item timestamp
  | .update status activeRange dailyRange dbCachedFrom =>
    some { item with status, activeRange, dailyRange, dbCachedFrom }

def run (shm : SharedMemory) : List Operation → VcItem → Option VcItem
  | [], item => some item
  | operation :: operations, item => (operation.step shm item).bind (run shm operations)

def Operation.Sorted : Operation → Prop
  | .addValuesAtTail values => SortedBy recordKey values
  | _ => True

/-- What an operation does to the values, as a list from the oldest to the newest one. -/
def Operation.Changes (l l' : List HistoryRecord) : Operation → Prop
  | .addValueAtHead value => InsertedInto l value l' ∨
      (∀ r ∈ l, recordKey value < recordKey r) ∧
        l' = l.filter fun r => value.timestamp.sec + 1 ≤ r.timestamp.sec
  | .addValuesAtTail values => l' = (values.rdropWhile fun value =>
      l.head?.any fun r => r.timestamp.sec ≤ value.timestamp.sec) ++ l
  | .cleanCache _ => l' <:+ l
  | .removeValues timestamp => l' = l.filter fun r => timestamp ≤ r.timestamp.sec
  | .update .. => l' = l

def Changed : List HistoryRecord → List Operation → List HistoryRecord → Prop
  | l, [], l' => l' = l
  | l, operation :: operations, l' => ∃ m, operation.Changes l m ∧ Changed m operations l'

def newItem (itemid : ℕ) (valueType : ItemValueType) (activeRange : ℤ) : VcItem where
  itemid
  valueType
  status := 0
  valuesTotal := 0
  activeRange
  dailyRange := 0
  dbCachedFrom := 0
  head := none
  tail := none
  used := []
  chunks := fun _ => ⟨none, none, 0, 0, 0, fun _ => ⟨⟨0, 0⟩, .ui64 0⟩⟩

variable {item : VcItem} {ps : List ℕ} {shm : SharedMemory}

theorem newItem_wellFormed (itemid : ℕ) {valueType : ItemValueType} (h : Cacheable valueType)
    (activeRange : ℤ) : WellFormed (newItem itemid valueType activeRange) [] := by
  constructor
  · constructor
    · exact ⟨Ring.nil rfl rfl, List.nodup_nil, List.Perm.refl _⟩
    · exact fun p hp => nomatch hp
    · exact List.Pairwise.nil
  · exact fun p hp => nomatch hp
  · rfl
  · exact h

theorem step_changes (shm : SharedMemory) (h : WellFormed item ps) (operation : Operation)
    (hsorted : operation.Sorted) : ∃ item' ps', operation.step shm item = some item' ∧
      WellFormed item' ps' ∧ operation.Changes (item.history ps) (item'.history ps') := by
  cases operation with
  | addValueAtHead value =>
    obtain ⟨item', ps', ok, hadd, hformed, hchange⟩ := addValueAtHead_spec shm h value
    refine ⟨item', ps', ?_, hformed, hchange⟩
    rw [Operation.step, hadd]
    rfl
  | addValuesAtTail values =>
    obtain ⟨item', ps', hadd, hformed, hchange⟩ := addValuesAtTail_granted shm h hsorted
    refine ⟨item', ps', ?_, hformed, ?_⟩
    · rw [Operation.step, hadd]
      rfl
    · rw [Operation.Changes, hchange, skipCached, h.tail_eq]
      cases ps with
      | nil =>
        rw [VcItem.history, flatMap_nil, append_nil, append_nil]
        exact (rdropWhile_eq_self_iff.mpr (by simp)).symm
      | cons p ps =>
        rw [history_cons, VcItem.values, span_first (h.nonempty p mem_cons_self)]
        rfl
  | cleanCache timestamp =>
    obtain ⟨item', ps', hclean, hformed, hchange⟩ := cleanCache_spec h timestamp
    exact ⟨item', ps', hclean, hformed, hchange⟩
  | removeValues timestamp =>
    obtain ⟨item', ps', hremove, hformed, hchange⟩ := removeValues_spec h timestamp
    exact ⟨item', ps', hremove, hformed, hchange⟩
  | update status activeRange dailyRange dbCachedFrom =>
    exact ⟨_, ps, rfl, h.of_eq ⟨rfl, rfl⟩ rfl rfl rfl rfl, rfl⟩

theorem step_wellFormed (shm : SharedMemory) (h : WellFormed item ps) (operation : Operation)
    (hsorted : operation.Sorted) :
    ∃ item' ps', operation.step shm item = some item' ∧ WellFormed item' ps' := by
  obtain ⟨item', ps', hstep, hformed, -⟩ := step_changes shm h operation hsorted
  exact ⟨item', ps', hstep, hformed⟩

/-- After any run the chunks are linked from the tail to the head, none is empty or goes over its
slots, values are in the order of time, and their number is right. -/
theorem operations_wellFormed (h : WellFormed item ps) (operations : List Operation)
    (hsorted : ∀ operation ∈ operations, operation.Sorted) :
    ∃ item' ps', run shm operations item = some item' ∧ WellFormed item' ps' := by
  induction operations generalizing item ps with
  | nil => exact ⟨item, ps, rfl, h⟩
  | cons operation operations ih =>
    obtain ⟨hfirst, hrest⟩ := List.forall_mem_cons.mp hsorted
    obtain ⟨item₁, ps₁, hstep, hformed⟩ := step_wellFormed shm h operation hfirst
    obtain ⟨item', ps', hrun, hformed'⟩ := ih hformed hrest
    refine ⟨item', ps', ?_, hformed'⟩
    rw [run, hstep, Option.bind_some, hrun]

theorem run_changes (shm : SharedMemory) (h : WellFormed item ps) (operations : List Operation)
    (hsorted : ∀ operation ∈ operations, operation.Sorted) :
    ∃ item' ps', run shm operations item = some item' ∧ WellFormed item' ps' ∧
      Changed (item.history ps) operations (item'.history ps') := by
  induction operations generalizing item ps with
  | nil => exact ⟨item, ps, rfl, h, rfl⟩
  | cons operation operations ih =>
    obtain ⟨hfirst, hrest⟩ := forall_mem_cons.mp hsorted
    obtain ⟨item₁, ps₁, hstep, hformed, hchange⟩ := step_changes shm h operation hfirst
    obtain ⟨item', ps', hrun, hformed', hchanged⟩ := ih hformed hrest
    refine ⟨item', ps', ?_, hformed', _, hchange, hchanged⟩
    rw [run, hstep, bind_some, hrun]

def growingMemory : SharedMemory where
  malloc used := used.sum + 1
  fresh _ hmem := absurd (List.le_sum_of_mem hmem) (Nat.not_succ_le_self _)

def mixedOperations : List Operation :=
  [.addValueAtHead ⟨⟨30, 0⟩, .ui64 3⟩, .addValueAtHead ⟨⟨50, 0⟩, .ui64 5⟩,
    .addValueAtHead ⟨⟨40, 0⟩, .ui64 4⟩, .addValuesAtTail [⟨⟨10, 0⟩, .ui64 1⟩, ⟨⟨20, 0⟩, .ui64 2⟩],
    .cleanCache 60, .removeValues 20, .addValueAtHead ⟨⟨5, 0⟩, .ui64 0⟩]

theorem mixedOperations_sorted : ∀ operation ∈ mixedOperations, operation.Sorted := by
  have hvalues : SortedBy recordKey
      [⟨⟨10, 0⟩, HistoryValue.ui64 1⟩, ⟨⟨20, 0⟩, HistoryValue.ui64 2⟩] := by
    rw [SortedBy]
    decide
  simp only [mixedOperations, List.forall_mem_cons, Operation.Sorted]
  exact ⟨trivial, trivial, trivial, hvalues, trivial, trivial, trivial, List.forall_mem_nil _⟩

theorem operations_wellFormed_mixed : ∃ item' ps',
    run growingMemory mixedOperations (newItem 1 .uint64 25) = some item' ∧ WellFormed item' ps' :=
  operations_wellFormed (newItem_wellFormed 1 (by decide) 25) mixedOperations mixedOperations_sorted

end Zabbix.ValueCache
