import Zabbix.Algo.Algodefs
import Zabbix.Foundation.Buckets
import Zabbix.Foundation.Transition

/-!
# Hash sets

`hashset.c`: entries are chained in slots by their hash. Memory is the caller's: whether a
request for it is granted is part of an operation.
-/

namespace Zabbix.Algo

abbrev Bytes := List UInt8

structure Entry where
  address : ℕ
  hash : UInt32
  data : Bytes
  deriving DecidableEq

structure Hashset where
  numSlots : ℕ
  numData : ℤ
  slots : List (List Entry)
  deriving DecidableEq

structure HashFunctions where
  hashFunc : Bytes → UInt32
  compareFunc : Bytes → Bytes → ℤ

def zbxHashsetInitSlots (initSize : ℕ) (granted : Bool) : Hashset × Bool :=
  if 0 < initSize then
    let numSlots := nextPrime initSize
    (⟨numSlots, 0, if granted then List.replicate numSlots [] else []⟩, granted)
  else (⟨0, 0, []⟩, true)

def Entry.slot (incSlots : ℕ) (entry : Entry) : ℕ := entry.hash.toNat % incSlots

/-- The inner loop of `zbx_hashset_reserve`: the entries of the chain that stay, and the slots
with the others linked in. -/
def relinkChain (incSlots slot : ℕ) : List Entry → List (List Entry) →
    List Entry × List (List Entry)
  | [], slots => ([], slots)
  | entry :: rest, slots =>
    if slot ≠ entry.slot incSlots then
      relinkChain incSlots slot rest (slots.modify (entry.slot incSlots) (entry :: ·))
    else
      let (kept, slots) := relinkChain incSlots slot rest slots
      (entry :: kept, slots)

def relinkSlot (incSlots slot : ℕ) (slots : List (List Entry)) : List (List Entry) :=
  let (kept, slots) := relinkChain incSlots slot (slots.getD slot []) slots
  slots.set slot kept

def relink (incSlots : ℕ) (slots : List (List Entry)) : List (List Entry) :=
  slots.length.fold (fun slot _ slots => relinkSlot incSlots slot slots)
    (slots ++ List.replicate (incSlots - slots.length) [])

/-- `zbx_hashset_reserve`. Slots that were not allocated cannot be relinked. -/
def zbxHashsetReserve (hs : Hashset) (numSlotsReq : ℤ) (granted : Bool) : Option (Hashset × Bool) :=
  if hs.numSlots = 0 then
    some (zbxHashsetInitSlots (max 10 (numSlotsReq * (2 - 4 / 5) + 1)).toNat granted)
  else if numSlotsReq ≥ hs.numSlots * 4 / 5 then
    let incSlots := nextPrime (hs.numSlots * 3 / 2)
    if !granted then some (hs, false)
    else if hs.slots = [] then none
    else some ({ hs with numSlots := incSlots, slots := relink incSlots hs.slots }, true)
  else some (hs, true)

structure Granted where
  slots : Bool
  moreSlots : Bool
  entry : Option (ℕ × Bytes)

def entryData (offset n : ℕ) (data block : Bytes) : Bytes :=
  List.replicate offset 0 ++ (data.take n).drop offset ++ block.drop n

variable (fn : HashFunctions)

def Entry.matches (data : Bytes) (entry : Entry) : Bool :=
  entry.hash = fn.hashFunc data && fn.compareFunc entry.data data = 0

/-- The chain for a hash; `none` where the slots were not allocated. -/
def Hashset.chain (hs : Hashset) (hash : UInt32) : Option (List Entry) :=
  hs.slots[hash.toNat % hs.numSlots]?

def linkEntry (hs : Hashset) (entry : Entry) : Option Hashset :=
  (hs.chain entry.hash).map fun chain =>
    { hs with
      slots := hs.slots.set (entry.slot hs.numSlots) (entry :: chain)
      numData := hs.numData + 1 }

/-- `zbx_hashset_insert_ext` from the reservation on. -/
def insertEntry (hs : Hashset) (data : Bytes) (offset n : ℕ) (granted : Granted) :
    Option (Hashset × Option ℕ) :=
  (zbxHashsetReserve hs (hs.numData + 1) granted.moreSlots).bind fun (hs, reserved) =>
    if !reserved then some (hs, none)
    else
      match granted.entry with
      | none => some (hs, none)
      | some (address, block) =>
        (linkEntry hs ⟨address, fn.hashFunc data, entryData offset n data block⟩).map
          fun hs => (hs, some address)

def zbxHashsetInsertExt (hs : Hashset) (data : Bytes) (offset n : ℕ) (uniq : Bool)
    (granted : Granted) : Option (Hashset × Option ℕ) :=
  let (hs, ready) := if hs.numSlots = 0 then zbxHashsetInitSlots 10 granted.slots else (hs, true)
  if !ready then some (hs, none)
  else if uniq then insertEntry fn hs data offset n granted
  else
    (hs.chain (fn.hashFunc data)).bind fun chain =>
      match chain.find? (Entry.matches fn data) with
      | some entry => some (hs, some entry.address)
      | none => insertEntry fn hs data offset n granted

def zbxHashsetInsert (hs : Hashset) (data : Bytes) (size : ℕ) (granted : Granted) :
    Option (Hashset × Option ℕ) :=
  zbxHashsetInsertExt fn hs data 0 size false granted

def zbxHashsetSearch (hs : Hashset) (data : Bytes) : Option (Option ℕ) :=
  if hs.numSlots = 0 then some none
  else
    (hs.chain (fn.hashFunc data)).map fun chain =>
      (chain.find? (Entry.matches fn data)).map Entry.address

def unlinkEntry (hs : Hashset) (hash : UInt32) (p : Entry → Bool) : Option Hashset :=
  (hs.chain hash).map fun chain =>
    if chain.any p then
      { hs with
        slots := hs.slots.set (hash.toNat % hs.numSlots) (chain.eraseP p)
        numData := hs.numData - 1 }
    else hs

def zbxHashsetRemove (hs : Hashset) (data : Bytes) : Option Hashset :=
  if hs.numSlots = 0 then some hs
  else unlinkEntry hs (fn.hashFunc data) (Entry.matches fn data)

/-- `zbx_hashset_remove_direct`; only the address of an entry can be followed. -/
def zbxHashsetRemoveDirect (hs : Hashset) (address : ℕ) : Option Hashset :=
  if hs.numSlots = 0 then some hs
  else
    (hs.slots.flatten.find? fun entry => entry.address = address).bind fun dataEntry =>
      unlinkEntry hs dataEntry.hash fun entry => entry.address = address

def zbxHashsetClear (hs : Hashset) : Option Hashset :=
  if hs.slots.length < hs.numSlots then none
  else some { hs with slots := hs.slots.map fun _ => [], numData := 0 }

inductive Operation
  | insertExt (data : Bytes) (offset n : ℕ) (uniq : Bool) (granted : Granted)
  | reserve (numSlotsReq : ℤ) (granted : Bool)
  | search (data : Bytes)
  | remove (data : Bytes)
  | removeDirect (address : ℕ)
  | clear

def Operation.apply (hs : Hashset) : Operation → Option (Hashset × Option ℕ)
  | insertExt data offset n uniq granted => zbxHashsetInsertExt fn hs data offset n uniq granted
  | reserve numSlotsReq granted => (zbxHashsetReserve hs numSlotsReq granted).map (·.1, none)
  | search data => (zbxHashsetSearch fn hs data).map (hs, ·)
  | remove data => (zbxHashsetRemove fn hs data).map (·, none)
  | removeDirect address => (zbxHashsetRemoveDirect hs address).map (·, none)
  | clear => (zbxHashsetClear hs).map (·, none)

structure Stored where
  address : ℕ
  data : Bytes
  deriving DecidableEq

def Entry.stored (entry : Entry) : Stored := ⟨entry.address, entry.data⟩

def Hashset.contents (hs : Hashset) : Finset Stored :=
  (hs.slots.flatten.map Entry.stored).toFinset

/-- An operation on a finite set whose elements are told apart by the comparison. -/
inductive SetStep : Finset Stored → Operation → Option ℕ → Finset Stored → Prop
  | kept {s : Finset Stored} {e : Stored} {data : Bytes} {offset n : ℕ} {uniq : Bool}
      {granted : Granted} (he : e ∈ s) (hsame : fn.compareFunc e.data data = 0) :
      SetStep s (.insertExt data offset n uniq granted) (some e.address) s
  | added {s : Finset Stored} {data block : Bytes} {address offset n : ℕ} {uniq : Bool}
      {granted : Granted} (hnew : ∀ e ∈ s, fn.compareFunc e.data data ≠ 0)
      (hentry : granted.entry = some (address, block)) :
      SetStep s (.insertExt data offset n uniq granted) (some address)
        (insert ⟨address, entryData offset n data block⟩ s)
  | refused {s : Finset Stored} {data : Bytes} {offset n : ℕ} {uniq : Bool}
      {granted : Granted} (hnew : ∀ e ∈ s, fn.compareFunc e.data data ≠ 0)
      (hgranted : granted.moreSlots = false ∨ granted.entry = none) :
      SetStep s (.insertExt data offset n uniq granted) none s
  | reserve {s : Finset Stored} {numSlotsReq : ℤ} {granted : Bool} :
      SetStep s (.reserve numSlotsReq granted) none s
  | found {s : Finset Stored} {e : Stored} {data : Bytes} (he : e ∈ s)
      (hsame : fn.compareFunc e.data data = 0) : SetStep s (.search data) (some e.address) s
  | missing {s : Finset Stored} {data : Bytes}
      (hnone : ∀ e ∈ s, fn.compareFunc e.data data ≠ 0) : SetStep s (.search data) none s
  | remove {s : Finset Stored} {data : Bytes} :
      SetStep s (.remove data) none (s.filter fun e => fn.compareFunc e.data data ≠ 0)
  | removeDirect {s : Finset Stored} {address : ℕ} :
      SetStep s (.removeDirect address) none (s.filter fun e => e.address ≠ address)
  | clear {s : Finset Stored} : SetStep s .clear none ∅

/-- What callers owe: the copied part has what is compared, `uniq` is for new data, an address is
one of an entry; and what memory owes: new entries have new addresses, and a set gets its first
slots. -/
def Operation.Permitted (hs : Hashset) : Operation → Prop
  | insertExt data offset n uniq granted =>
    (hs.numSlots = 0 → granted.slots = true) ∧
    (uniq = true → ∀ e ∈ hs.contents, fn.compareFunc e.data data ≠ 0) ∧
    ∀ memory ∈ granted.entry, (∀ e ∈ hs.contents, e.address ≠ memory.1) ∧
      fn.compareFunc (entryData offset n data memory.2) data = 0
  | reserve _ granted => hs.numSlots = 0 → granted = true
  | removeDirect address => ∃ e ∈ hs.contents, e.address = address
  | _ => True

instance Operation.Permitted.decidable (hs : Hashset) :
    ∀ op : Operation, Decidable (op.Permitted fn hs)
  | insertExt _ _ _ _ _ => inferInstanceAs (Decidable (_ ∧ _ ∧ _))
  | reserve _ _ => inferInstanceAs (Decidable (_ → _))
  | removeDirect address => inferInstanceAs (Decidable (∃ e ∈ hs.contents, e.address = address))
  | search _ | remove _ | clear => isTrue trivial

def Operation.run : Hashset → List Operation → Option (Hashset × List (Option ℕ))
  | hs, [] => some (hs, [])
  | hs, op :: ops =>
    (op.apply fn hs).bind fun (hs, result) =>
      (run hs ops).map fun (hs, results) => (hs, result :: results)

def Operation.step (hs : Hashset) (op : Operation) : Option Hashset := (op.apply fn hs).map (·.1)

inductive SetRun : Finset Stored → List Operation → List (Option ℕ) → Finset Stored → Prop
  | nil {s : Finset Stored} : SetRun s [] [] s
  | cons {s t u : Finset Stored} {op : Operation} {ops : List Operation} {result : Option ℕ}
      {results : List (Option ℕ)} (hstep : SetStep fn s op result t)
      (hsteps : SetRun t ops results u) : SetRun s (op :: ops) (result :: results) u

structure HashFunctions.Compatible : Prop where
  equivalence : Equivalence fun a b => fn.compareFunc a b = 0
  hash_eq : ∀ a b, fn.compareFunc a b = 0 → fn.hashFunc a = fn.hashFunc b

end Zabbix.Algo
