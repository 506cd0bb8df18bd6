import Zabbix.Algo.Hashmap
import Zabbix.Foundation.HeapOrder

/-!
# Binary heaps

`binaryheap.c`. A heap that is created with the direct option keeps the index of every key in a
hash map.
-/

namespace Zabbix.Algo

open HeapOrder

structure Elem (δ : Type*) where
  key : UInt64
  data : δ
  deriving DecidableEq

structure BinaryHeap (δ : Type*) where
  elems : List (Elem δ)
  keyIndex : Option Hashmap
  deriving DecidableEq

variable {δ : Type*}

def zbxBinaryHeapCreate (direct : Bool) : BinaryHeap δ where
  elems := []
  keyIndex := if direct then some (zbxHashmapInitSlots 512) else none

section Operations

variable (hashFunc : UInt64 → UInt32) (compareFunc : Elem δ → Elem δ → ℤ)

def BinaryHeap.setIndex (heap : BinaryHeap δ) (index : ℕ) : BinaryHeap δ :=
  match heap.elems[index]? with
  | some elem =>
    { heap with keyIndex := heap.keyIndex.map fun hm => zbxHashmapSet hashFunc hm elem.key index }
  | none => heap

def swap (heap : BinaryHeap δ) (index₁ index₂ : ℕ) : BinaryHeap δ :=
  let heap := { heap with elems := swapAt heap.elems index₁ index₂ }
  (heap.setIndex hashFunc index₁).setIndex hashFunc index₂

def BinaryHeap.after (heap : BinaryHeap δ) (i j : ℕ) : Bool :=
  match heap.elems[i]?, heap.elems[j]? with
  | some x, some y => compareFunc x y > 0
  | _, _ => false

def bubbleUp : ℕ → BinaryHeap δ → ℕ → BinaryHeap δ × ℕ
  | 0, heap, index => (heap, index)
  | fuel + 1, heap, index =>
    if index = 0 then (heap, index)
    else if !heap.after compareFunc ((index - 1) / 2) index then (heap, index)
    else bubbleUp fuel (swap hashFunc heap ((index - 1) / 2) index) ((index - 1) / 2)

def bubbleDown : ℕ → BinaryHeap δ → ℕ → BinaryHeap δ × ℕ
  | 0, heap, index => (heap, index)
  | fuel + 1, heap, index =>
    let left := 2 * index + 1
    let right := 2 * index + 2
    if left ≥ heap.elems.length then (heap, index)
    else if right ≥ heap.elems.length then
      if heap.after compareFunc index left then (swap hashFunc heap index left, left)
      else (heap, index)
    else if !heap.after compareFunc left right then
      if heap.after compareFunc index left then
        bubbleDown fuel (swap hashFunc heap index left) left
      else (heap, index)
    else if heap.after compareFunc index right then
      bubbleDown fuel (swap hashFunc heap index right) right
    else (heap, index)

def BinaryHeap.bubbleUp (heap : BinaryHeap δ) (index : ℕ) : BinaryHeap δ × ℕ :=
  Algo.bubbleUp hashFunc compareFunc (index + 1) heap index

def BinaryHeap.bubbleDown (heap : BinaryHeap δ) (index : ℕ) : BinaryHeap δ × ℕ :=
  Algo.bubbleDown hashFunc compareFunc heap.elems.length heap index

def BinaryHeap.find (heap : BinaryHeap δ) (key : UInt64) : Option ℕ :=
  heap.keyIndex.bind fun hm => zbxHashmapGet hashFunc hm key

def BinaryHeap.removeKey (heap : BinaryHeap δ) (key : UInt64) : BinaryHeap δ :=
  { heap with keyIndex := heap.keyIndex.map fun hm => zbxHashmapRemove hashFunc hm key }

def BinaryHeap.replaceByLast (heap : BinaryHeap δ) (index : ℕ) : BinaryHeap δ :=
  match heap.elems.getLast? with
  | some last => { heap with elems := heap.elems.dropLast.set index last }
  | none => heap

/-- `zbx_binary_heap_find_min`; an empty heap ends the program. -/
def zbxBinaryHeapFindMin (heap : BinaryHeap δ) : Option (Elem δ) := heap.elems[0]?

/-- `zbx_binary_heap_insert`; a key that is there already ends the program. -/
def zbxBinaryHeapInsert (heap : BinaryHeap δ) (elem : Elem δ) : Option (BinaryHeap δ) :=
  if (heap.find hashFunc elem.key).isSome then none
  else
    let (heap, index) :=
      { heap with elems := heap.elems ++ [elem] }.bubbleUp hashFunc compareFunc heap.elems.length
    if index = heap.elems.length - 1 then some (heap.setIndex hashFunc index) else some heap

/-- `zbx_binary_heap_update_direct`; a missing key ends the program. -/
def zbxBinaryHeapUpdateDirect (heap : BinaryHeap δ) (elem : Elem δ) : Option (BinaryHeap δ) :=
  (heap.find hashFunc elem.key).map fun index =>
    let (heap, moved) :=
      { heap with elems := heap.elems.set index elem }.bubbleUp hashFunc compareFunc index
    if index = moved then (heap.bubbleDown hashFunc compareFunc index).1 else heap

/-- `zbx_binary_heap_remove_min`; an empty heap ends the program. -/
def zbxBinaryHeapRemoveMin (heap : BinaryHeap δ) : Option (BinaryHeap δ) :=
  heap.elems[0]?.map fun min =>
    let heap := heap.removeKey hashFunc min.key
    if heap.elems.length - 1 ≠ 0 then
      let (heap, index) := (heap.replaceByLast 0).bubbleDown hashFunc compareFunc 0
      if index = 0 then heap.setIndex hashFunc index else heap
    else { heap with elems := heap.elems.dropLast }

/-- `zbx_binary_heap_remove_direct`; a missing key ends the program. -/
def zbxBinaryHeapRemoveDirect (heap : BinaryHeap δ) (key : UInt64) : Option (BinaryHeap δ) :=
  (heap.find hashFunc key).map fun index =>
    let heap := heap.removeKey hashFunc key
    if index ≠ heap.elems.length - 1 then
      let (heap, moved) := (heap.replaceByLast index).bubbleUp hashFunc compareFunc index
      if index = moved then
        let (heap, moved) := heap.bubbleDown hashFunc compareFunc index
        if index = moved then heap.setIndex hashFunc index else heap
      else heap
    else { heap with elems := heap.elems.dropLast }

def zbxBinaryHeapClear (heap : BinaryHeap δ) : BinaryHeap δ where
  elems := []
  keyIndex := heap.keyIndex.map zbxHashmapClear

end Operations

inductive HeapOperation (δ : Type*)
  | insert (elem : Elem δ)
  | updateDirect (elem : Elem δ)
  | removeMin
  | removeDirect (key : UInt64)
  | clear

def HeapOperation.apply (hashFunc : UInt64 → UInt32) (compareFunc : Elem δ → Elem δ → ℤ)
    (heap : BinaryHeap δ) : HeapOperation δ → Option (BinaryHeap δ)
  | insert elem => zbxBinaryHeapInsert hashFunc compareFunc heap elem
  | updateDirect elem => zbxBinaryHeapUpdateDirect hashFunc compareFunc heap elem
  | removeMin => zbxBinaryHeapRemoveMin hashFunc compareFunc heap
  | removeDirect key => zbxBinaryHeapRemoveDirect hashFunc compareFunc heap key
  | clear => some (zbxBinaryHeapClear heap)

def HeapOperation.Ends (s : Multiset (Elem δ)) : HeapOperation δ → Prop
  | insert elem => ∃ e ∈ s, e.key = elem.key
  | updateDirect elem => ¬∃ e ∈ s, e.key = elem.key
  | removeMin => s = 0
  | removeDirect key => ¬∃ e ∈ s, e.key = key
  | clear => False

inductive MultisetStep (compareFunc : Elem δ → Elem δ → ℤ) :
    Multiset (Elem δ) → HeapOperation δ → Multiset (Elem δ) → Prop
  | insert {s : Multiset (Elem δ)} {elem : Elem δ} :
      MultisetStep compareFunc s (.insert elem) (elem ::ₘ s)
  | updateDirect {s : Multiset (Elem δ)} {elem old : Elem δ} (hkey : old.key = elem.key) :
      MultisetStep compareFunc (old ::ₘ s) (.updateDirect elem) (elem ::ₘ s)
  | removeMin {s : Multiset (Elem δ)} {min : Elem δ} (hmin : ∀ x ∈ s, compareFunc min x ≤ 0) :
      MultisetStep compareFunc (min ::ₘ s) .removeMin s
  | removeDirect {s : Multiset (Elem δ)} {old : Elem δ} :
      MultisetStep compareFunc (old ::ₘ s) (.removeDirect old.key) s
  | clear {s : Multiset (Elem δ)} : MultisetStep compareFunc s .clear 0

inductive MultisetRun (compareFunc : Elem δ → Elem δ → ℤ) :
    Multiset (Elem δ) → List (HeapOperation δ) → Multiset (Elem δ) → Prop
  | nil {s : Multiset (Elem δ)} : MultisetRun compareFunc s [] s
  | cons {s t u : Multiset (Elem δ)} {op : HeapOperation δ} {ops : List (HeapOperation δ)}
      (hstep : MultisetStep compareFunc s op t) (hsteps : MultisetRun compareFunc t ops u) :
      MultisetRun compareFunc s (op :: ops) u

def BinaryHeap.contents (heap : BinaryHeap δ) : Multiset (Elem δ) := heap.elems

structure OrdersElems (compareFunc : Elem δ → Elem δ → ℤ) : Prop where
  total : ∀ x y, compareFunc x y ≤ 0 ∨ compareFunc y x ≤ 0
  trans : ∀ x y z, compareFunc x y ≤ 0 → compareFunc y z ≤ 0 → compareFunc x z ≤ 0

end Zabbix.Algo
