import Mathlib.Data.Option.Basic
import Zabbix.Foundation.Ring
import Zabbix.Foundation.Span
import Zabbix.Preproc.Execute

/-!
# Chunks of the value cache

The history of an item in the value cache, `valuecache.c`. Chunks of the history are linked from the
tail, the oldest one, to the head. The memory of an item is a function on addresses.
-/

namespace Zabbix.ValueCache

open List Function

open Zabbix.Preproc (Timespec zbxTimespecCompare ItemValueType)

structure LogValue where
  value : List Char
  source : Option (List Char)
  timestamp : ℤ
  severity : ℤ
  logeventid : ℤ
  deriving DecidableEq

inductive HistoryValue
  | dbl (bits : UInt64)
  | ui64 (n : UInt64)
  | str (text : List Char)
  | log (value : LogValue)
  deriving DecidableEq

structure HistoryRecord where
  timestamp : Timespec
  value : HistoryValue
  deriving DecidableEq

def zbxHistoryRecordCompareAsc (d1 d2 : HistoryRecord) : ℤ :=
  if d1.timestamp.sec = d2.timestamp.sec then d1.timestamp.ns - d2.timestamp.ns
  else d1.timestamp.sec - d2.timestamp.sec

structure VcChunk where
  prev : Option ℕ
  next : Option ℕ
  firstValue : ℤ
  lastValue : ℤ
  slotsNum : ℤ
  slots : ℤ → HistoryRecord

/-- The fields of `zbx_vc_item_t` beside its chunks. -/
structure VcItemFields where
  itemid : ℕ
  valueType : ItemValueType
  status : ℕ
  valuesTotal : ℤ
  activeRange : ℤ
  dailyRange : ℤ
  dbCachedFrom : ℤ
  deriving DecidableEq

/-- `zbx_vc_item_t` with the memory of its chunks; `used` are the addresses that are allocated. -/
structure VcItem extends VcItemFields where
  head : Option ℕ
  tail : Option ℕ
  used : List ℕ
  chunks : ℕ → VcChunk

structure SharedMemory where
  malloc : List ℕ → ℕ
  fresh : ∀ used, malloc used ∉ used

namespace VcItem

def modify (item : VcItem) (p : ℕ) (f : VcChunk → VcChunk) : VcItem :=
  { item with chunks := update item.chunks p (f (item.chunks p)) }

def setPrev (item : VcItem) (p : ℕ) (q : Option ℕ) : VcItem :=
  item.modify p fun chunk => { chunk with prev := q }

def setNext (item : VcItem) (p : ℕ) (q : Option ℕ) : VcItem :=
  item.modify p fun chunk => { chunk with next := q }

def setFirst (item : VcItem) (p : ℕ) (first : ℤ) : VcItem :=
  item.modify p fun chunk => { chunk with firstValue := first }

def setLast (item : VcItem) (p : ℕ) (last : ℤ) : VcItem :=
  item.modify p fun chunk => { chunk with lastValue := last }

def setSlot (item : VcItem) (p : ℕ) (i : ℤ) (record : HistoryRecord) : VcItem :=
  item.modify p fun chunk => { chunk with slots := update chunk.slots i record }

def slot (item : VcItem) (p : ℕ) (i : ℤ) : HistoryRecord := (item.chunks p).slots i

end VcItem

def isqrtLoop : ℕ → ℕ → ℕ → ℕ → ℕ
  | 0, result, _, _ => result
  | rounds + 1, result, remainder, value =>
    let result := result * 2
    let remainder := remainder * 4 + value / 2 ^ 30
    let value := value * 4 % 2 ^ 32
    let p := result * 2 + 1
    if p ≤ remainder then isqrtLoop rounds (result + 1) (remainder - p) value
    else isqrtLoop rounds result remainder value

def zbxIsqrt32 (value : ℕ) : ℕ := isqrtLoop 16 0 0 value

def zbxVcMinChunkRecords : ℤ := 2

def zbxVcMaxChunkRecords : ℤ := (64 * 1024 - 48) / 16 + 1

/-- `vch_item_chunk_slot_count`; undefined where it divides by zero. -/
def vchItemChunkSlotCount (item : VcItem) (valuesNew : ℤ) : Option ℤ :=
  let values := item.valuesTotal + valuesNew
  let nslots : ℤ := zbxIsqrt32 values.toNat
  if nslots = 0 then none
  else
    let nslots := if 32 < (values + nslots - 1).tdiv nslots + 1 then values.tdiv 32 else nslots
    let nslots := if zbxVcMaxChunkRecords < nslots then zbxVcMaxChunkRecords else nslots
    some (if nslots < zbxVcMinChunkRecords then zbxVcMinChunkRecords else nslots)

/-- A chunk after `memset`: the first record lies in the part that is cleared. -/
def clearedChunk (chunk : VcChunk) : VcChunk where
  prev := none
  next := none
  firstValue := 0
  lastValue := 0
  slotsNum := 0
  slots := update chunk.slots 0 ⟨⟨0, 0⟩, .ui64 0⟩

def VcItem.withChunk (item : VcItem) (p : ℕ) (nslots : ℤ) (next : Option ℕ) : VcItem :=
  ({ item with used := p :: item.used } : VcItem).modify p fun c =>
    { clearedChunk c with slotsNum := nslots, next }

/-- `vch_item_add_chunk` with the answer of the shared memory; undefined where it follows a null
pointer. -/
def vchItemAddChunk (shm : SharedMemory) (granted : Bool) (item : VcItem) (nslots : ℤ)
    (insertBefore : Option ℕ) : Option (VcItem × Bool) :=
  if granted then
    let chunk := shm.malloc item.used
    let item := item.withChunk chunk nslots insertBefore
    match insertBefore with
    | none =>
      let item := item.setPrev chunk item.head
      let item := match item.head with
        | some head => item.setNext head (some chunk)
        | none => { item with tail := some chunk }
      some ({ item with head := some chunk }, true)
    | some before =>
      let item := item.setPrev chunk (item.chunks before).prev
      let item := item.setPrev before (some chunk)
      if item.tail = some before then some ({ item with tail := some chunk }, true)
      else (item.chunks chunk).prev.map fun prev => (item.setNext prev (some chunk), true)
  else some (item, false)

/-- `vc_item_free_values`, which should never be called with other types of values. -/
def vcItemFreeValues (item : VcItem) (first last : ℤ) : Option VcItem :=
  match item.valueType with
  | .bin | .none => none
  | _ => some { item with valuesTotal := item.valuesTotal - (last - first + 1) }

def vchItemFreeChunk (item : VcItem) (chunk : ℕ) : Option VcItem :=
  (vcItemFreeValues item (item.chunks chunk).firstValue (item.chunks chunk).lastValue).map
    fun item => { item with used := item.used.erase chunk }

/-- The chunk behind `chunk` is linked to the one before it. -/
def relinkNext (item : VcItem) (chunk : ℕ) : VcItem :=
  match (item.chunks chunk).next with
  | some next => item.setPrev next (item.chunks chunk).prev
  | none => item

def relinkPrev (item : VcItem) (chunk : ℕ) : VcItem :=
  match (item.chunks chunk).prev with
  | some prev => item.setNext prev (item.chunks chunk).next
  | none => item

def dropHead (item : VcItem) (chunk : ℕ) : VcItem :=
  if item.head = some chunk then { item with head := (item.chunks chunk).prev } else item

def dropTail (item : VcItem) (chunk : ℕ) : VcItem :=
  if item.tail = some chunk then { item with tail := (item.chunks chunk).next } else item

def vchItemRemoveChunk (item : VcItem) (chunk : ℕ) : Option VcItem :=
  let item := relinkPrev (relinkNext item chunk) chunk
  vchItemFreeChunk (dropTail (dropHead item chunk) chunk) chunk

theorem isqrtLoop_pos : ∀ (rounds result remainder value : ℕ), 1 ≤ result →
    1 ≤ isqrtLoop rounds result remainder value := by
  intro rounds
  induction rounds with
  | zero =>
    intro result remainder value h
    exact h
  | succ rounds ih =>
    intro result remainder value h
    rw [isqrtLoop]
    split_ifs
    · exact ih _ _ _ (by omega)
    · exact ih _ _ _ (by omega)

theorem isqrtLoop_start : ∀ (rounds value : ℕ), rounds < 16 → 4 ^ (15 - rounds) ≤ value →
    1 ≤ isqrtLoop (rounds + 1) 0 0 value := by
  intro rounds
  induction rounds with
  | zero =>
    intro value _ hvalue
    have hbit : 1 ≤ 0 * 4 + value / 2 ^ 30 := by omega
    rw [isqrtLoop]
    rw [if_pos hbit]
    exact Nat.le_refl 1
  | succ rounds ih =>
    intro value hrounds hvalue
    rw [isqrtLoop]
    by_cases hbit : 0 * 2 * 2 + 1 ≤ 0 * 4 + value / 2 ^ 30
    · rw [if_pos hbit]
      exact isqrtLoop_pos _ _ _ _ (Nat.le_refl 1)
    · have hsmall : value / 2 ^ 30 = 0 := by omega
      have hmod : value * 4 % 2 ^ 32 = value * 4 := Nat.mod_eq_of_lt (by omega)
      have hpow : 4 ^ (15 - rounds) = 4 ^ (15 - (rounds + 1)) * 4 := by
        rw [← Nat.pow_succ]
        congr 1
        omega
      rw [if_neg hbit, hsmall, hmod]
      exact ih _ (by omega) (by omega)

theorem slotCount_ge {item : VcItem} {valuesNew : ℤ} (h : 1 ≤ item.valuesTotal + valuesNew) :
    ∃ nslots, vchItemChunkSlotCount item valuesNew = some nslots ∧ 2 ≤ nslots := by
  have hpos : 1 ≤ zbxIsqrt32 (item.valuesTotal + valuesNew).toNat :=
    isqrtLoop_start 15 _ (by decide) (by omega)
  have hne : ¬(zbxIsqrt32 (item.valuesTotal + valuesNew).toNat : ℤ) = 0 := by omega
  rw [vchItemChunkSlotCount]
  simp only
  rw [if_neg hne]
  refine ⟨_, rfl, ?_⟩
  rw [zbxVcMinChunkRecords]
  split_ifs <;> omega

variable {item item' : VcItem} {ps qs : List ℕ} {p q : ℕ}

namespace VcItem

def next (item : VcItem) : Option ℕ → Option ℕ
  | none => item.tail
  | some p => (item.chunks p).next

def prev (item : VcItem) : Option ℕ → Option ℕ
  | none => item.head
  | some p => (item.chunks p).prev

theorem modify_chunk (item : VcItem) (p : ℕ) (f : VcChunk → VcChunk) :
    (item.modify p f).chunks p = f (item.chunks p) := update_self ..

theorem modify_of_ne (h : q ≠ p) (f : VcChunk → VcChunk) :
    (item.modify p f).chunks q = item.chunks q := update_of_ne h _ _

theorem modify_links {f : VcChunk → VcChunk} (hnext : (f (item.chunks p)).next = (item.chunks p).next)
    (hprev : (f (item.chunks p)).prev = (item.chunks p).prev) :
    (item.modify p f).next = item.next ∧ (item.modify p f).prev = item.prev := by
  constructor
  · funext s
    cases s with
    | none => rfl
    | some q =>
      by_cases hq : q = p
      · rw [hq]
        exact (congrArg VcChunk.next (modify_chunk item p f)).trans hnext
      · exact congrArg VcChunk.next (modify_of_ne hq f)
  · funext s
    cases s with
    | none => rfl
    | some q =>
      by_cases hq : q = p
      · rw [hq]
        exact (congrArg VcChunk.prev (modify_chunk item p f)).trans hprev
      · exact congrArg VcChunk.prev (modify_of_ne hq f)

def body (item : VcItem) (p : ℕ) : ℤ × ℤ × ℤ × (ℤ → HistoryRecord) :=
  ((item.chunks p).firstValue, (item.chunks p).lastValue, (item.chunks p).slotsNum,
    (item.chunks p).slots)

def linkNext (item : VcItem) (r v : Option ℕ) : VcItem :=
  match r with
  | some p => item.setNext p v
  | none => { item with tail := v }

def linkPrev (item : VcItem) (r v : Option ℕ) : VcItem :=
  match r with
  | some p => item.setPrev p v
  | none => { item with head := v }

structure SameContent (item item' : VcItem) : Prop where
  fields : item'.toVcItemFields = item.toVcItemFields
  used : item'.used = item.used
  body : item'.body = item.body

theorem SameContent.trans {item'' : VcItem} (h : SameContent item item')
    (h' : SameContent item' item'') : SameContent item item'' :=
  ⟨h'.fields.trans h.fields, h'.used.trans h.used, h'.body.trans h.body⟩

theorem linkNext_next (item : VcItem) (r v : Option ℕ) :
    (item.linkNext r v).next = update item.next r v := by
  funext s
  cases r <;> cases s <;> simp [linkNext, setNext, modify, VcItem.next, update_apply]
  split_ifs <;> rfl

theorem linkNext_prev (item : VcItem) (r v : Option ℕ) : (item.linkNext r v).prev = item.prev := by
  funext s
  cases r <;> cases s <;> simp [linkNext, setNext, modify, VcItem.prev, update_apply]
  split_ifs with heq
  · rw [heq]
  · rfl

theorem linkPrev_prev (item : VcItem) (r v : Option ℕ) :
    (item.linkPrev r v).prev = update item.prev r v := by
  funext s
  cases r <;> cases s <;> simp [linkPrev, setPrev, modify, VcItem.prev, update_apply]
  split_ifs <;> rfl

theorem linkPrev_next (item : VcItem) (r v : Option ℕ) : (item.linkPrev r v).next = item.next := by
  funext s
  cases r <;> cases s <;> simp [linkPrev, setPrev, modify, VcItem.next, update_apply]
  split_ifs with heq
  · rw [heq]
  · rfl

theorem linkNext_content (item : VcItem) (r v : Option ℕ) :
    SameContent item (item.linkNext r v) := by
  cases r with
  | none => exact ⟨rfl, rfl, rfl⟩
  | some p =>
    refine ⟨rfl, rfl, ?_⟩
    funext s
    simp only [linkNext, setNext, modify, VcItem.body, update_apply]
    split_ifs with heq
    · rw [heq]
    · rfl

theorem linkPrev_content (item : VcItem) (r v : Option ℕ) :
    SameContent item (item.linkPrev r v) := by
  cases r with
  | none => exact ⟨rfl, rfl, rfl⟩
  | some p =>
    refine ⟨rfl, rfl, ?_⟩
    funext s
    simp only [linkPrev, setPrev, modify, VcItem.body, update_apply]
    split_ifs with heq
    · rw [heq]
    · rfl

end VcItem

/-- The chunks of an item, from the tail to the head. No other memory is in use. -/
structure Chained (item : VcItem) (ps : List ℕ) : Prop where
  ring : Ring item.prev item.next none (ps.map some)
  nodup : ps.Nodup
  used : item.used.Perm ps

namespace Chained

theorem cycle (h : Chained item ps) : (none :: ps.map some).Nodup := by
  refine nodup_cons.mpr ⟨by simp, ?_⟩
  exact h.nodup.map (Option.some_injective ℕ)

theorem tail_eq (h : Chained item ps) : item.tail = ps.head? := by
  have hnext := h.ring.next_root
  rw [show item.tail = item.next none from rfl, hnext]
  cases ps <;> rfl

theorem head_eq (h : Chained item ps) : item.head = ps.getLast? := by
  have hprev := h.ring.prev_root
  rw [show item.head = item.prev none from rfl, hprev]
  obtain rfl | ⟨front, last, rfl⟩ := eq_nil_or_concat' ps
  · rfl
  · rw [map_append, map_singleton, getLastD_concat, getLast?_concat]

theorem next_eq (h : Chained item (ps ++ p :: qs)) : (item.chunks p).next = qs.head? := by
  have hring := h.ring
  rw [map_append, map_cons] at hring
  have hnext := hring.next_eq
  rw [show (item.chunks p).next = item.next (some p) from rfl, hnext]
  cases qs <;> rfl

theorem prev_eq (h : Chained item (ps ++ p :: qs)) : (item.chunks p).prev = ps.getLast? := by
  have hring := h.ring
  rw [map_append, map_cons] at hring
  have hprev := hring.prev_eq
  rw [show (item.chunks p).prev = item.prev (some p) from rfl, hprev]
  obtain rfl | ⟨front, last, rfl⟩ := eq_nil_or_concat' ps
  · rfl
  · rw [map_append, map_singleton, getLastD_concat, getLast?_concat]

theorem tail_next (h : Chained item (p :: qs)) : (item.chunks p).next = qs.head? :=
  @next_eq item [] qs p h

theorem tail_prev (h : Chained item (p :: qs)) : (item.chunks p).prev = none :=
  @prev_eq item [] qs p h

theorem malloc_not_mem (h : Chained item ps) (shm : SharedMemory) : shm.malloc item.used ∉ ps :=
  fun hmem => shm.fresh item.used (h.used.mem_iff.mpr hmem)

theorem of_eq (h : Chained item ps) (hnext : item'.next = item.next) (hprev : item'.prev = item.prev)
    (hused : item'.used = item.used) : Chained item' ps := by
  constructor
  · rw [hnext, hprev]
    exact h.ring
  · exact h.nodup
  · rw [hused]
    exact h.used

end Chained

structure Added (item item' : VcItem) (p : ℕ) (nslots : ℤ) : Prop where
  fields : item'.toVcItemFields = item.toVcItemFields
  first : (item'.chunks p).firstValue = 0
  last : (item'.chunks p).lastValue = 0
  slotsNum : (item'.chunks p).slotsNum = nslots
  others : ∀ q ≠ p, item'.body q = item.body q

theorem withChunk_next (item : VcItem) (p : ℕ) (nslots : ℤ) (next : Option ℕ) :
    (item.withChunk p nslots next).next = update item.next (some p) next := by
  funext s
  cases s <;> simp [VcItem.withChunk, VcItem.modify, VcItem.next, update_apply]
  split_ifs <;> rfl

theorem withChunk_prev (item : VcItem) (p : ℕ) (nslots : ℤ) (next : Option ℕ) :
    (item.withChunk p nslots next).prev = update item.prev (some p) none := by
  funext s
  cases s <;> simp [VcItem.withChunk, VcItem.modify, VcItem.prev, update_apply]
  split_ifs <;> rfl

theorem added_of_sameContent {nslots : ℤ} {next : Option ℕ}
    (h : VcItem.SameContent (item.withChunk p nslots next) item') : Added item item' p nslots := by
  have hbody : item'.body p = (item.withChunk p nslots next).body p := congrFun h.body p
  have hnew : (item.withChunk p nslots next).body p =
      (0, 0, nslots, (clearedChunk (item.chunks p)).slots) := by
    simp only [VcItem.withChunk, VcItem.modify, VcItem.body, update_self]
    rfl
  rw [hnew] at hbody
  simp only [VcItem.body, Prod.mk.injEq] at hbody
  refine ⟨h.fields, hbody.1, hbody.2.1, hbody.2.2.1, fun q hq => ?_⟩
  rw [h.body]
  simp only [VcItem.withChunk, VcItem.modify, VcItem.body, update_of_ne hq]

theorem addChunk_head (shm : SharedMemory) (h : Chained item ps) (nslots : ℤ) :
    ∃ item', vchItemAddChunk shm true item nslots none = some (item', true) ∧
      Added item item' (shm.malloc item.used) nslots ∧
      Chained item' (ps ++ [shm.malloc item.used]) := by
  have hfresh := h.malloc_not_mem shm
  obtain ⟨p, hp⟩ : ∃ p, p = shm.malloc item.used := ⟨_, rfl⟩
  rw [← hp] at hfresh ⊢
  obtain ⟨item₁, h₁⟩ : ∃ item₁, item₁ = (item.withChunk p nslots none).linkPrev (some p) item.head :=
    ⟨_, rfl⟩
  obtain ⟨item₂, h₂⟩ : ∃ item₂, item₂ = item₁.linkNext item.head (some p) := ⟨_, rfl⟩
  refine ⟨item₂.linkPrev none (some p), ?_, ?_, ?_⟩
  · rw [vchItemAddChunk, if_pos rfl, h₂, h₁, hp]
    rfl
  · refine @added_of_sameContent _ _ _ _ none ?_
    refine VcItem.SameContent.trans ?_ (VcItem.linkPrev_content _ _ _)
    rw [h₂]
    refine VcItem.SameContent.trans ?_ (VcItem.linkNext_content _ _ _)
    rw [h₁]
    exact VcItem.linkPrev_content _ _ _
  · have hnew : (some p) ∉ none :: ps.map some := by simp [hfresh]
    constructor
    · rw [VcItem.linkPrev_prev, VcItem.linkPrev_next, h₂, VcItem.linkNext_prev, VcItem.linkNext_next,
        h₁, VcItem.linkPrev_prev, VcItem.linkPrev_next, withChunk_next, withChunk_prev,
        update_idem, map_append]
      exact h.ring.append hnew h.cycle
    · rw [nodup_append]
      refine ⟨h.nodup, nodup_singleton p, fun a ha b hb => ?_⟩
      obtain rfl := mem_singleton.mp hb
      exact fun heq => hfresh (heq ▸ ha)
    · have hused : (item₂.linkPrev none (some p)).used = p :: item.used := by
        rw [(VcItem.linkPrev_content item₂ none (some p)).used, h₂,
          (VcItem.linkNext_content item₁ item.head (some p)).used, h₁,
          (VcItem.linkPrev_content _ (some p) item.head).used]
        rfl
      rw [hused]
      exact (Perm.cons p h.used).trans (perm_append_singleton p ps).symm

theorem addChunk_tail (shm : SharedMemory) (h : Chained item (q :: ps)) (nslots : ℤ) :
    ∃ item', vchItemAddChunk shm true item nslots item.tail = some (item', true) ∧
      Added item item' (shm.malloc item.used) nslots ∧
      Chained item' (shm.malloc item.used :: q :: ps) := by
  have hfresh := h.malloc_not_mem shm
  obtain ⟨p, hp⟩ : ∃ p, p = shm.malloc item.used := ⟨_, rfl⟩
  rw [← hp] at hfresh ⊢
  have hqp : q ≠ p := fun heq => hfresh (heq ▸ mem_cons_self)
  have htail : item.tail = some q := h.tail_eq
  have hfirst : (item.chunks q).prev = none := h.tail_prev
  have hprev : ((item.withChunk p nslots (some q)).chunks q).prev = none := by
    have hsame : (item.withChunk p nslots (some q)).chunks q = item.chunks q := update_of_ne hqp _ _
    rw [hsame, hfirst]
  obtain ⟨item₁, h₁⟩ : ∃ item₁, item₁ = (item.withChunk p nslots (some q)).linkPrev (some p) none :=
    ⟨_, rfl⟩
  obtain ⟨item₂, h₂⟩ : ∃ item₂, item₂ = item₁.linkPrev (some q) (some p) := ⟨_, rfl⟩
  refine ⟨item₂.linkNext none (some p), ?_, ?_, ?_⟩
  · have hdone : ((item₁.linkPrev (some q) (some p)).tail = some q) := by
      rw [h₁]
      exact htail
    rw [htail, vchItemAddChunk, if_pos rfl, ← hp]
    simp only [hprev]
    rw [show (item.withChunk p nslots (some q)).setPrev p none = item₁ from h₁.symm,
      show item₁.setPrev q (some p) = item₁.linkPrev (some q) (some p) from rfl, if_pos hdone, h₂]
    rfl
  · refine @added_of_sameContent _ _ _ _ (some q) ?_
    refine VcItem.SameContent.trans ?_ (VcItem.linkNext_content _ _ _)
    rw [h₂]
    refine VcItem.SameContent.trans ?_ (VcItem.linkPrev_content _ _ _)
    rw [h₁]
    exact VcItem.linkPrev_content _ _ _
  · have hnew : (some p) ∉ none :: some q :: ps.map some := by simpa [Ne.symm hqp] using hfresh
    have hnone : item.prev (some q) = none := hfirst
    have hring := h.ring.prepend hnew h.cycle
    rw [hnone] at hring
    constructor
    · rw [VcItem.linkNext_prev, VcItem.linkNext_next, h₂, VcItem.linkPrev_prev,
        VcItem.linkPrev_next, h₁, VcItem.linkPrev_prev, VcItem.linkPrev_next, withChunk_next,
        withChunk_prev, update_idem]
      exact hring
    · exact nodup_cons.mpr ⟨hfresh, h.nodup⟩
    · have hused : (item₂.linkNext none (some p)).used = p :: item.used := by
        rw [(VcItem.linkNext_content item₂ none (some p)).used, h₂,
          (VcItem.linkPrev_content item₁ (some q) (some p)).used, h₁,
          (VcItem.linkPrev_content _ (some p) none).used]
        rfl
      rw [hused]
      exact Perm.cons p h.used

def VcItem.unlink (item : VcItem) (p : ℕ) : VcItem :=
  (item.linkPrev (item.chunks p).next (item.chunks p).prev).linkNext (item.chunks p).prev
    (item.chunks p).next

theorem getLast?_eq_some_iff (hnodup : (ps ++ p :: qs).Nodup) :
    (ps ++ p :: qs).getLast? = some p ↔ qs = [] := by
  obtain rfl | ⟨front, last, rfl⟩ := eq_nil_or_concat' qs
  · simp
  · have hne : last ≠ p := by
      intro heq
      obtain ⟨-, hqs, -⟩ := nodup_append.mp hnodup
      exact (nodup_cons.mp hqs).1 (by simp [heq])
    rw [← cons_append, ← append_assoc, getLast?_concat]
    simpa using hne

theorem head?_eq_some_iff (hnodup : (ps ++ p :: qs).Nodup) :
    (ps ++ p :: qs).head? = some p ↔ ps = [] := by
  cases ps with
  | nil => simp
  | cons a ps =>
    have hne : a ≠ p := by
      intro heq
      exact (nodup_cons.mp hnodup).1 (by simp [heq])
    simpa using hne

theorem setPrev_of_ne (hne : p ≠ q) (r : Option ℕ) : (item.setPrev q r).chunks p = item.chunks p :=
  update_of_ne hne _ _

theorem setNext_of_ne (hne : p ≠ q) (r : Option ℕ) : (item.setNext q r).chunks p = item.chunks p :=
  update_of_ne hne _ _

theorem dropHead_of_eq (hhead : item.head = some p) :
    dropHead item p = { item with head := (item.chunks p).prev } := if_pos hhead

theorem dropHead_of_ne (hhead : ¬item.head = some p) : dropHead item p = item := if_neg hhead

theorem dropTail_of_eq (htail : item.tail = some p) :
    dropTail item p = { item with tail := (item.chunks p).next } := if_pos htail

theorem dropTail_of_ne (htail : ¬item.tail = some p) : dropTail item p = item := if_neg htail

namespace Chained

variable (h : Chained item (ps ++ p :: qs))

include h

theorem not_mem : p ∉ ps ∧ p ∉ qs := by
  obtain ⟨-, hqs, hdisjoint⟩ := nodup_append.mp h.nodup
  refine ⟨fun hmem => ?_, (nodup_cons.mp hqs).1⟩
  exact hdisjoint p hmem p mem_cons_self rfl

theorem relinkNext_eq : (relinkNext item p).chunks p = item.chunks p := by
  rw [relinkNext, h.next_eq]
  cases qs with
  | nil => rfl
  | cons q qs =>
    apply setPrev_of_ne
    intro heq
    exact h.not_mem.2 (heq ▸ mem_cons_self)

theorem relinkPrev_eq : (relinkPrev (relinkNext item p) p).chunks p = item.chunks p := by
  rw [relinkPrev, h.relinkNext_eq, h.prev_eq]
  obtain rfl | ⟨front, last, rfl⟩ := eq_nil_or_concat' ps
  · exact h.relinkNext_eq
  · rw [getLast?_concat]
    refine (setNext_of_ne ?_ _).trans h.relinkNext_eq
    intro heq
    exact h.not_mem.1 (heq ▸ mem_append_right _ (mem_singleton_self p))

theorem removeChunk_eq : vchItemRemoveChunk item p = vchItemFreeChunk (item.unlink p) p := by
  have hhead : item.head = some p ↔ qs = [] := by rw [h.head_eq, getLast?_eq_some_iff h.nodup]
  have htail : item.tail = some p ↔ ps = [] := by rw [h.tail_eq, head?_eq_some_iff h.nodup]
  have hnext := h.next_eq
  have hprev := h.prev_eq
  have hchunk := h.relinkPrev_eq
  rw [relinkPrev, h.relinkNext_eq, relinkNext, hnext, hprev] at hchunk
  rw [vchItemRemoveChunk, VcItem.unlink, relinkPrev, h.relinkNext_eq, relinkNext, hnext, hprev]
  apply congrArg fun item => vchItemFreeChunk item p
  -- whether the chunk is the tail, and whether it is the head
  obtain rfl | ⟨front, last, rfl⟩ := eq_nil_or_concat' ps
  · have htail := htail.mpr rfl
    cases qs with
    | nil =>
      have hnone : (dropHead item p).tail = some p := by
        rw [dropHead_of_eq (hhead.mpr rfl)]
        exact htail
      have hfirst : dropTail (dropHead item p) p = { item with head := none, tail := none } := by
        rw [dropTail_of_eq hnone, dropHead_of_eq (hhead.mpr rfl), hnext, hprev]
        rfl
      exact hfirst
    | cons q qs =>
      have hhead' : ¬(item.setPrev q none).head = some p := mt hhead.mp (cons_ne_nil q qs)
      have hsame : (item.setPrev q none).chunks p = item.chunks p := hchunk
      change dropTail (dropHead (item.setPrev q none) p) p = _
      rw [dropHead_of_ne hhead', dropTail_of_eq (show (item.setPrev q none).tail = some p from htail),
        hsame, hnext]
      rfl
  · have htail := mt htail.mp (append_ne_nil_of_right_ne_nil front (cons_ne_nil last []))
    rw [getLast?_concat] at hchunk hprev ⊢
    cases qs with
    | nil =>
      have hsame : (item.setNext last none).chunks p = item.chunks p := hchunk
      have hhead' : (item.setNext last none).head = some p := hhead.mpr rfl
      have htail' : ¬(dropHead (item.setNext last none) p).tail = some p := by
        rw [dropHead_of_eq hhead']
        exact htail
      change dropTail (dropHead (item.setNext last none) p) p = _
      rw [dropTail_of_ne htail', dropHead_of_eq hhead', hsame, hprev]
      rfl
    | cons q qs =>
      have hhead' : ¬((item.setPrev q (some last)).setNext last (some q)).head = some p :=
        mt hhead.mp (cons_ne_nil q qs)
      have htail' : ¬((item.setPrev q (some last)).setNext last (some q)).tail = some p := htail
      change dropTail (dropHead ((item.setPrev q (some last)).setNext last (some q)) p) p = _
      rw [dropHead_of_ne hhead', dropTail_of_ne htail']
      rfl

omit h

theorem freeValues_eq (first last : ℤ) (htype : item.valueType ≠ .bin ∧ item.valueType ≠ .none) :
    vcItemFreeValues item first last =
      some { item with valuesTotal := item.valuesTotal - (last - first + 1) } := by
  rw [vcItemFreeValues]
  split
  · next hbin => exact absurd hbin htype.1
  · next hnone => exact absurd hnone htype.2
  · rfl

theorem removeChunk (h : Chained item (ps ++ p :: qs))
    (htype : item.valueType ≠ .bin ∧ item.valueType ≠ .none) :
    ∃ item', vchItemRemoveChunk item p = some item' ∧ Chained item' (ps ++ qs) ∧
      item'.body = item.body ∧
      item'.toVcItemFields = { item.toVcItemFields with
        valuesTotal := item.valuesTotal -
          ((item.chunks p).lastValue - (item.chunks p).firstValue + 1) } := by
  have hcontent : VcItem.SameContent item (item.unlink p) :=
    (VcItem.linkPrev_content _ _ _).trans (VcItem.linkNext_content _ _ _)
  have hbody := congrFun hcontent.body p
  simp only [VcItem.body, Prod.mk.injEq] at hbody
  have hunlinked : Ring (item.unlink p).prev (item.unlink p).next none ((ps ++ qs).map some) := by
    have hring := h.ring
    have hcycle := h.cycle
    rw [map_append, map_cons] at hring hcycle
    rw [VcItem.unlink, VcItem.linkNext_next, VcItem.linkNext_prev, VcItem.linkPrev_prev,
      VcItem.linkPrev_next, map_append]
    exact hring.remove hcycle
  have hfields := hcontent.fields
  have htype' : (item.unlink p).valueType ≠ .bin ∧ (item.unlink p).valueType ≠ .none := by
    rw [show (item.unlink p).valueType = item.valueType from congrArg VcItemFields.valueType hfields]
    exact htype
  rw [h.removeChunk_eq, vchItemFreeChunk, hbody.1, hbody.2.1, freeValues_eq _ _ htype']
  refine ⟨_, rfl, ⟨hunlinked, ?_, ?_⟩, hcontent.body, ?_⟩
  · obtain ⟨hps, hpqs, hdisjoint⟩ := nodup_append.mp h.nodup
    refine nodup_append.mpr ⟨hps, (nodup_cons.mp hpqs).2, fun a ha b hb => ?_⟩
    exact hdisjoint a ha b (mem_cons_of_mem p hb)
  · have hused : (item.unlink p).used.Perm (p :: (ps ++ qs)) := by
      rw [hcontent.used]
      exact h.used.trans perm_middle
    have herase := hused.erase p
    rwa [erase_cons_head] at herase
  · simp only [hfields]

end Chained

end Zabbix.ValueCache
