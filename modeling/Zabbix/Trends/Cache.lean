import Zabbix.Algo.Algodefs

/-!
# The trend function cache

`cache.c` of `zbxtrends`. Slots are known by their index; `none` is a process that exits. The
values of trend functions are of any type `D`.
-/

namespace Zabbix.Trends

inductive TrendFunction
  | unknown
  | avg
  | count
  | delta
  | max
  | min
  | sum
  deriving DecidableEq

inductive TrendState
  | unknown
  | normal
  | nodata
  | overflow
  deriving DecidableEq

structure Key where
  itemid : ℕ
  start : ℤ
  finish : ℤ
  function : TrendFunction
  deriving DecidableEq

structure TfcData (D : Type) where
  key : Key
  state : TrendState
  value : D
  prev : ℕ
  next : ℕ
  prevValue : ℕ
  nextValue : ℕ

/-- `zbx_tfc_t`. The index is the list of the slots that its hash set links, with the number of
hash slots. -/
structure Tfc (D : Type) where
  index : List ℕ
  hashSlots : ℕ
  slots : ℕ → TfcData D
  slotsNum : ℕ
  freeSlot : ℕ
  freeHead : ℕ
  lruHead : ℕ
  lruTail : ℕ
  hits : ℕ
  misses : ℕ
  itemsNum : ℕ

def noSlot : ℕ := 2 ^ 32 - 1

variable {D : Type}

def Tfc.modify (c : Tfc D) (i : ℕ) (f : TfcData D → TfcData D) : Tfc D :=
  { c with slots := Function.update c.slots i (f (c.slots i)) }

def Tfc.setPrev (c : Tfc D) (i prev : ℕ) : Tfc D := c.modify i fun d => { d with prev }

def Tfc.setNext (c : Tfc D) (i next : ℕ) : Tfc D := c.modify i fun d => { d with next }

def Tfc.setPrevValue (c : Tfc D) (i prevValue : ℕ) : Tfc D :=
  c.modify i fun d => { d with prevValue }

def Tfc.setNextValue (c : Tfc D) (i nextValue : ℕ) : Tfc D :=
  c.modify i fun d => { d with nextValue }

def tfcFreeSlot (c : Tfc D) (i : ℕ) : Tfc D :=
  { (c.setNext i c.freeHead).setPrev i noSlot with freeHead := i }

def tfcAllocSlot (c : Tfc D) : Option (ℕ × Tfc D) :=
  let c :=
    if c.freeSlot ≠ c.slotsNum then tfcFreeSlot { c with freeSlot := c.freeSlot + 1 } c.freeSlot
    else c
  if c.freeHead = noSlot then none
  else some (c.freeHead, { c with freeHead := (c.slots c.freeHead).next })

def Tfc.search (c : Tfc D) (key : Key) : Option ℕ := c.index.find? fun i => (c.slots i).key = key

/-- `zbx_hashset_insert`. The hash slots cannot be reallocated: the insertion gives nothing when
there are too many entries. -/
def Tfc.insert (c : Tfc D) (dataLocal : TfcData D) : Option (Option ℕ × Tfc D) :=
  match c.search dataLocal.key with
  | some i => some (some i, c)
  | none =>
    if c.hashSlots * 4 / 5 ≤ c.index.length + 1 then some (none, c)
    else
      (tfcAllocSlot c).map fun (i, c) =>
        (some i, { c.modify i fun _ => dataLocal with index := i :: c.index })

/-- `zbx_hashset_remove_direct` with `tfc_free_func`. -/
def Tfc.removeDirect (c : Tfc D) (i : ℕ) : Tfc D :=
  if i ∈ c.index then tfcFreeSlot { c with index := c.index.erase i } i else c

def Tfc.linkNext (c : Tfc D) (i next : ℕ) : Tfc D :=
  if i ≠ noSlot then c.setNext i next else { c with lruHead := next }

def Tfc.linkPrev (c : Tfc D) (i prev : ℕ) : Tfc D :=
  if i ≠ noSlot then c.setPrev i prev else { c with lruTail := prev }

def tfcLruAppend (c : Tfc D) (i : ℕ) : Tfc D :=
  let c := c.setPrev i c.lruTail
  let c := c.setNext i noSlot
  let c := c.linkNext (c.slots i).prev i
  { c with lruTail := i }

def tfcLruRemove (c : Tfc D) (i : ℕ) : Tfc D :=
  let c := c.linkNext (c.slots i).prev (c.slots i).next
  c.linkPrev (c.slots i).next (c.slots i).prev

def tfcValueAppend (c : Tfc D) (root i : ℕ) : Tfc D :=
  if (c.slots root).prevValue = i then c
  else
    let c := c.setNextValue i root
    let c := c.setPrevValue i (c.slots root).prevValue
    let c := c.setPrevValue root i
    c.setNextValue (c.slots i).prevValue i

def tfcValueRemove (c : Tfc D) (i : ℕ) : Tfc D :=
  let c := c.setNextValue (c.slots i).prevValue (c.slots i).nextValue
  c.setPrevValue (c.slots i).nextValue (c.slots i).prevValue

def tfcFreeData (c : Tfc D) (i : ℕ) : Tfc D :=
  let c := tfcValueRemove (tfcLruRemove c i) i
  let c :=
    if (c.slots i).prevValue = (c.slots i).nextValue then
      let c := c.removeDirect (c.slots i).prevValue
      { c with itemsNum := c.itemsNum - 1 }
    else c
  c.removeDirect i

def Tfc.Full (c : Tfc D) : Prop := c.freeHead = noSlot ∧ c.slotsNum = c.freeSlot

instance (c : Tfc D) : Decidable c.Full := inferInstanceAs (Decidable (_ ∧ _))

def tfcReserveSlot (c : Tfc D) : Option (Tfc D) :=
  if c.Full then
    if c.lruHead = noSlot then none else some (tfcFreeData c c.lruHead)
  else some c

def tfcIndexAdd (c : Tfc D) (dataLocal : TfcData D) : Option (ℕ × Tfc D) :=
  (c.insert dataLocal).bind fun (data, c) =>
    match data with
    | some i => some (i, c)
    | none =>
      let c :=
        if c.slotsNum ≠ c.index.length then
          { c with
            slotsNum := c.index.length
            freeSlot := c.index.length
            freeHead := noSlot }
        else c
      (tfcReserveSlot c).bind fun c =>
        (c.insert dataLocal).bind fun (data, c) => data.map fun i => (i, c)

def int (t : ℤ) : ℤ := Int.bmod t (2 ^ 32)

/-- The arguments by which callers name a value. No caller passes the unknown function. -/
structure Request where
  itemid : ℕ
  start : ℤ
  finish : ℤ
  function : TrendFunction
  known : function ≠ .unknown
  deriving DecidableEq

def Request.key (r : Request) : Key := ⟨r.itemid, int r.start, int r.finish, r.function⟩

def rootKey (itemid : ℕ) : Key := ⟨itemid, 0, 0, .unknown⟩

structure Result (D : Type) where
  value : D
  state : TrendState
  known : state ≠ .unknown

structure DcTrend where
  itemid : ℕ
  clock : ℤ
  deriving DecidableEq

/-- `zbx_tfc_init`: a cache with `slotsNum` slots, which hold anything. The number of hash slots is
computed in 32 bits. -/
def zbxTfcInit (slotsNum : ℕ) (slots : ℕ → TfcData D) : Tfc D where
  index := []
  hashSlots := Algo.nextPrime (slotsNum * 5 % 2 ^ 32 / 4 + 4)
  slots
  slotsNum
  freeSlot := 0
  freeHead := noSlot
  lruHead := noSlot
  lruTail := noSlot
  hits := 0
  misses := 0
  itemsNum := 0

def zbxTfcGetValue (c : Tfc D) (r : Request) : Option (D × TrendState) × Tfc D :=
  match c.search r.key with
  | some i =>
    let c := tfcLruAppend (tfcLruRemove c i) i
    (some ((c.slots i).value, (c.slots i).state), { c with hits := c.hits + 1 })
  | none => (none, { c with misses := c.misses + 1 })

def tfcRoot (c : Tfc D) (dataLocal : TfcData D) : Option (ℕ × Tfc D) :=
  match c.search dataLocal.key with
  | some root => some (root, c)
  | none =>
    (tfcIndexAdd c dataLocal).bind fun (root, c) =>
      let c := c.setPrevValue root root
      let c := c.setNextValue root (c.slots root).prevValue
      (tfcReserveSlot { c with itemsNum := c.itemsNum + 1 }).map fun c => (root, c)

/-- `zbx_tfc_put_value`; `dataLocal` is what the stack holds before its fields are set. -/
def zbxTfcPutValue (c : Tfc D) (dataLocal : TfcData D) (r : Request) (result : Result D) :
    Option (Tfc D) :=
  (tfcReserveSlot c).bind fun c =>
    (tfcRoot c { dataLocal with key := rootKey r.itemid }).bind fun (root, c) =>
      (tfcIndexAdd c { dataLocal with key := r.key, state := .unknown }).map fun (i, c) =>
        let c :=
          if (c.slots i).state = .unknown then tfcValueAppend (tfcLruAppend c i) root i else c
        c.modify i fun d => { d with value := result.value, state := result.state }

def TfcData.covers (d : TfcData D) (clock : ℤ) : Bool := d.key.start ≤ clock && clock ≤ d.key.finish

/-- The loop over the values of an item; `none` when it takes more rounds than `fuel`. -/
def invalidateLoop (root : ℕ) (clock : ℤ) : ℕ → Tfc D → ℕ → Option (Tfc D)
  | 0, _, _ => none
  | fuel + 1, c, i =>
    if i = root then some c
    else
      let next := (c.slots i).nextValue
      if (c.slots i).covers clock then invalidateLoop root clock fuel (tfcFreeData c i) next
      else invalidateLoop root clock fuel c next

def invalidateTrend (c : Tfc D) (trend : DcTrend) : Option (Tfc D) :=
  match c.search (rootKey trend.itemid) with
  | none => some c
  | some root => invalidateLoop root trend.clock (c.slotsNum + 1) c (c.slots root).nextValue

def zbxTfcInvalidateTrends (c : Tfc D) : List DcTrend → Option (Tfc D)
  | [] => some c
  | trend :: trends => (invalidateTrend c trend).bind fun c => zbxTfcInvalidateTrends c trends

end Zabbix.Trends
