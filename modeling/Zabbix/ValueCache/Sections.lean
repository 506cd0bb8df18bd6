import Mathlib.Algebra.Ring.Int.Defs
import Zabbix.ValueCache.Runs

/-!
# The cache where its lock is released

A process fills the cache from the database under the lock of the value cache. When the fill fails,
`zbx_vc_get_values` releases the lock, reads the values from the database, and removes the item in a
later section.
-/

namespace Zabbix.ValueCache

open List Option Function

open Zabbix.Preproc (ItemValueType)

abbrev Cache := ℕ → Option VcItem

def vcItemUpdateDbCachedFrom (item : VcItem) (timestamp : ℤ) : VcItem :=
  if item.dbCachedFrom = 0 ∨ timestamp < item.dbCachedFrom then
    { item with dbCachedFrom := timestamp }
  else item

/-- What is cached; a request by count knows how many values were cached before, and how many of the
records are behind its end. -/
inductive FillRequest
  | byTime (rangeStart : ℤ)
  | byTimeAndCount (rangeStart count cachedRecords recordsOffset : ℤ)

/-- What the functions that cache values get from the database and from the memory; other items may
be dropped to release space. -/
structure Fill where
  itemid : ℕ
  valueType : ItemValueType
  request : FillRequest
  records : List HistoryRecord
  inserted : Bool
  answers : Answers
  dropped : ℕ → Bool

def FillRequest.finish (item : VcItem) (records : List HistoryRecord) :
    FillRequest → Option VcItem
  | .byTime rangeStart => some (vcItemUpdateDbCachedFrom item rangeStart)
  | .byTimeAndCount rangeStart count cachedRecords recordsOffset =>
    let item :=
      if rangeStart = 0 ∧ count - cachedRecords > records.length - recordsOffset then
        { item with activeRange := 0, dailyRange := 0, status := zbxItemStatusCachedAll }
      else item
    if (count ≤ records.length ∨ rangeStart = 0) ∧ records ≠ [] then
      item.tail.map fun tail =>
        vcItemUpdateDbCachedFrom item (item.slot tail (item.chunks tail).firstValue).timestamp.sec
    else if rangeStart ≠ 0 then some (vcItemUpdateDbCachedFrom item rangeStart)
    else some item

def FillRequest.start (item : VcItem) : FillRequest → VcItem
  | .byTime _ => { item with status := 0 }
  | .byTimeAndCount .. => item

def fillItem (shm : SharedMemory) (fill : Fill) (item : VcItem) : Option (VcItem × Bool) :=
  let item := fill.request.start item
  (if fill.records = [] then some (item, true)
    else vchItemAddValuesAtTail shm fill.answers item fill.records).bind fun
    | (item, false) => some (item, false)
    | (item, true) => (fill.request.finish item fill.records).map fun item => (item, true)

def Fill.item (fill : Fill) (cache : Cache) : Option VcItem :=
  match cache fill.itemid with
  | some item => some item
  | none => if fill.inserted then some (newItem fill.itemid fill.valueType 0) else none

def dropItems (dropped : ℕ → Bool) (cache : Cache) : Cache :=
  fun itemid => if dropped itemid then none else cache itemid

def fillSection (shm : SharedMemory) (fill : Fill) (cache : Cache) : Option (Cache × Bool) :=
  match fill.item cache with
  | some item =>
    (fillItem shm fill item).map fun (item, filled) =>
      (update (dropItems fill.dropped cache) fill.itemid (some item), filled)
  | none => some (cache, false)

/-- A value that is added to history and to the cache; `wanted` tells whether a new item is put into
the cache. -/
structure Addition where
  itemid : ℕ
  valueType : ItemValueType
  value : HistoryRecord
  wanted : Bool
  now : ℤ
  inserted : Bool
  chunkGranted : Bool
  granted : ℕ → Bool
  dropped : ℕ → Bool

def vcMinRange : ℤ := 60

def Addition.item (addition : Addition) (cache : Cache) : Option VcItem :=
  match cache addition.itemid with
  | some item => some item
  | none =>
    if addition.wanted ∧ addition.inserted then
      some (newItem addition.itemid addition.valueType vcMinRange)
    else none

def addToItem (shm : SharedMemory) (addition : Addition) (item : VcItem) : Option (Option VcItem) :=
  if item.valueType ≠ addition.valueType then some none
  else
    let lastValueTimestamp := match item.head with
      | some head => (item.slot head (item.chunks head).lastValue).timestamp.sec
      | none => addition.now
    (vchItemAddValueAtHead shm addition.chunkGranted addition.granted item addition.value).bind fun
      | (_, false) => some none
      | (added, true) =>
        if item.head ≠ added.head then (vchItemCleanCache added lastValueTimestamp).map some
        else some (some added)

def addSection (shm : SharedMemory) (addition : Addition) (cache : Cache) : Option Cache :=
  match addition.item cache with
  | some item =>
    (addToItem shm addition item).map fun item =>
      update (dropItems addition.dropped cache) addition.itemid item
  | none => some cache

/-- What is done while the lock is held; an item is removed after its fill failed, and when it is
deleted. -/
inductive Section
  | fill (request : Fill)
  | remove (itemid : ℕ)
  | add (addition : Addition)

def Section.run (shm : SharedMemory) (cache : Cache) : Section → Option Cache
  | .fill request => (fillSection shm request cache).map Prod.fst
  | .remove itemid => some (update cache itemid none)
  | .add addition => addSection shm addition cache

def Consistent (cache : Cache) : Prop :=
  ∀ itemid item, cache itemid = some item →
    (∀ p ∈ item.used, (item.chunks p).firstValue ≤ (item.chunks p).lastValue) ∧
      item.valuesTotal = (item.used.map fun p =>
        (item.chunks p).lastValue - (item.chunks p).firstValue + 1).sum

def Formed (cache : Cache) : Prop :=
  ∀ itemid item, cache itemid = some item → ∃ ps, WellFormed item ps

def Fill.Strands (fill : Fill) (cache : Cache) : Prop :=
  ∃ (item : VcItem) (nslots : ℕ), fill.item cache = some item ∧
    vchItemChunkSlotCount item (skipCached item fill.records).length = some (nslots : ℤ) ∧
    Stranded fill.answers item.valueType (skipCached item fill.records) (freeAtTail item).toNat nslots

def Fill.Expected (fill : Fill) : Prop :=
  SortedBy recordKey fill.records ∧ Cacheable fill.valueType

def Section.Sound (cache : Cache) : Section → Prop
  | .fill request => request.Expected ∧ ¬request.Strands cache
  | .remove _ => True
  | .add addition => Cacheable addition.valueType

inductive Released (shm : SharedMemory) : Cache → Cache → Prop
  | start (cache : Cache) : Released shm cache cache
  | next {cache cache' cache'' : Cache} (reached : Released shm cache cache') (sect : Section)
      (sound : sect.Sound cache') (ran : sect.run shm cache' = some cache'') :
      Released shm cache cache''

variable {item item' : VcItem} {ps : List ℕ} {p : ℕ} {shm : SharedMemory} {cache cache' : Cache}

theorem sum_lengths (h : Shaped item ps) : ∀ {qs : List ℕ}, (∀ q ∈ qs, q ∈ ps) →
    (qs.map fun p => (item.chunks p).lastValue - (item.chunks p).firstValue + 1).sum =
      ((item.history qs).length : ℤ) := by
  intro qs
  induction qs with
  | nil =>
    intro _
    rfl
  | cons q qs ih =>
    intro hqs
    obtain ⟨hq, hqs⟩ := forall_mem_cons.mp hqs
    have hslots := h.slots q hq
    rw [map_cons, sum_cons, ih hqs, history_cons, length_append, history_length]
    omega

theorem Shaped.consistent_iff (h : Shaped item ps) :
    ((∀ p ∈ item.used, (item.chunks p).firstValue ≤ (item.chunks p).lastValue) ∧
      item.valuesTotal = (item.used.map fun p =>
        (item.chunks p).lastValue - (item.chunks p).firstValue + 1).sum) ↔ Occupied item ps := by
  have hsum : item.valuesTotal = (item.used.map fun p =>
      (item.chunks p).lastValue - (item.chunks p).firstValue + 1).sum := by
    rw [(h.used.map _).sum_eq, sum_lengths h fun q hq => hq]
    exact h.total
  constructor
  · intro hboth q hq
    exact hboth.1 q (h.used.mem_iff.mpr hq)
  · intro hoccupied
    exact ⟨fun q hq => hoccupied q (h.used.mem_iff.mp hq), hsum⟩

theorem Formed.consistent (h : Formed cache) : Consistent cache := by
  intro itemid item hitem
  obtain ⟨ps, hformed⟩ := h itemid item hitem
  exact hformed.shaped.consistent_iff.mpr hformed.nonempty

def VcItem.withFields (item : VcItem) (status : ℕ) (activeRange dailyRange dbCachedFrom : ℤ) : VcItem :=
  { item with status, activeRange, dailyRange, dbCachedFrom }

theorem Shaped.withFields (h : Shaped item ps) (status : ℕ) (activeRange dailyRange dbCachedFrom : ℤ) :
    Shaped (item.withFields status activeRange dailyRange dbCachedFrom) ps where
  toChained := h.toChained.of_eq rfl rfl rfl
  slots := h.slots
  total := h.total
  type := h.type

theorem updateDbCachedFrom_eq (item : VcItem) (timestamp : ℤ) : ∃ dbCachedFrom,
    vcItemUpdateDbCachedFrom item timestamp =
      item.withFields item.status item.activeRange item.dailyRange dbCachedFrom := by
  rw [vcItemUpdateDbCachedFrom]
  split_ifs
  · exact ⟨timestamp, rfl⟩
  · exact ⟨item.dbCachedFrom, rfl⟩

theorem start_eq (item : VcItem) (request : FillRequest) : ∃ status, request.start item =
    item.withFields status item.activeRange item.dailyRange item.dbCachedFrom := by
  cases request with
  | byTime rangeStart => exact ⟨0, rfl⟩
  | byTimeAndCount rangeStart count cachedRecords recordsOffset => exact ⟨item.status, rfl⟩

theorem finish_eq (item : VcItem) (records : List HistoryRecord)
    (htail : records ≠ [] → item.tail ≠ none) (request : FillRequest) :
    ∃ status activeRange dailyRange dbCachedFrom,
      request.finish item records =
        some (item.withFields status activeRange dailyRange dbCachedFrom) := by
  cases request with
  | byTime rangeStart =>
    obtain ⟨dbCachedFrom, hupdate⟩ := updateDbCachedFrom_eq item rangeStart
    exact ⟨_, _, _, dbCachedFrom, congrArg some hupdate⟩
  | byTimeAndCount rangeStart count cachedRecords recordsOffset =>
    obtain ⟨all, hall⟩ : ∃ all, all =
        if rangeStart = 0 ∧ count - cachedRecords > records.length - recordsOffset then
          { item with activeRange := 0, dailyRange := 0, status := zbxItemStatusCachedAll }
        else item := ⟨_, rfl⟩
    have hfields : ∃ status activeRange dailyRange dbCachedFrom,
        all = item.withFields status activeRange dailyRange dbCachedFrom := by
      rw [hall]
      split_ifs
      · exact ⟨_, _, _, _, rfl⟩
      · exact ⟨item.status, item.activeRange, item.dailyRange, item.dbCachedFrom, rfl⟩
    obtain ⟨status, activeRange, dailyRange, cached, heq⟩ := hfields
    rw [FillRequest.finish]
    simp only [← hall]
    have hupdate : ∀ timestamp, ∃ status activeRange dailyRange dbCachedFrom,
        some (vcItemUpdateDbCachedFrom all timestamp) =
          some (item.withFields status activeRange dailyRange dbCachedFrom) := by
      intro timestamp
      obtain ⟨dbCachedFrom, hupdate⟩ := updateDbCachedFrom_eq all timestamp
      rw [hupdate, heq]
      exact ⟨status, activeRange, dailyRange, dbCachedFrom, rfl⟩
    split_ifs with hsome hrange
    · obtain ⟨tail, htail⟩ := ne_none_iff_exists'.mp (htail hsome.2)
      have htail' : all.tail = some tail := by
        rw [heq]
        exact htail
      rw [htail', map_some]
      exact hupdate _
    · exact hupdate _
    · rw [heq]
      exact ⟨status, activeRange, dailyRange, cached, rfl⟩

def StrandsItem (fill : Fill) (item : VcItem) : Prop :=
  ∃ nslots : ℕ, vchItemChunkSlotCount item (skipCached item fill.records).length = some (nslots : ℤ) ∧
    Stranded fill.answers item.valueType (skipCached item fill.records) (freeAtTail item).toNat nslots

theorem strands_iff (fill : Fill) (cache : Cache) :
    fill.Strands cache ↔ ∃ item, fill.item cache = some item ∧ StrandsItem fill item := by
  constructor
  · intro h
    obtain ⟨item, nslots, hitem, hslots, hstranded⟩ := h
    exact ⟨item, hitem, nslots, hslots, hstranded⟩
  · intro h
    obtain ⟨item, hitem, nslots, hslots, hstranded⟩ := h
    exact ⟨item, nslots, hitem, hslots, hstranded⟩

theorem skipCached_nil (item : VcItem) : skipCached item [] = [] := by
  rw [skipCached]
  cases item.tail with
  | none => rfl
  | some tail => exact rdropWhile_nil _

theorem tail_of_filled {records : List HistoryRecord} {ps' : List ℕ} (h : WellFormed item ps)
    (hrecords : records ≠ []) (hshaped : Shaped item' ps')
    (hhistory : item'.history ps' = skipCached item records ++ item.history ps) : item'.tail ≠ none := by
  rw [hshaped.tail_eq]
  cases ps' with
  | cons p ps' => exact some_ne_none p
  | nil =>
    obtain ⟨hskip, hnone⟩ := append_eq_nil_iff.mp hhistory.symm
    cases ps with
    | nil =>
      rw [skipCached, h.tail_eq] at hskip
      exact absurd hskip hrecords
    | cons p ps =>
      rw [history_cons, VcItem.values, span_first (h.nonempty p mem_cons_self)] at hnone
      cases hnone

theorem fillItem_spec (shm : SharedMemory) (fill : Fill) (h : WellFormed item ps)
    (hsorted : SortedBy recordKey fill.records) :
    ∃ item' ps' filled, fillItem shm fill item = some (item', filled) ∧ Shaped item' ps' ∧
      SortedBy recordKey (item'.history ps') ∧ (Occupied item' ps' ↔ ¬StrandsItem fill item) := by
  obtain ⟨status, hstart⟩ := start_eq item fill.request
  obtain ⟨begun, hbegun⟩ : ∃ begun, begun =
      item.withFields status item.activeRange item.dailyRange item.dbCachedFrom := ⟨_, rfl⟩
  rw [fillItem, hstart, ← hbegun]
  have hformed : WellFormed begun ps := by
    rw [hbegun]
    exact h.of_eq ⟨rfl, rfl⟩ rfl rfl rfl rfl
  have hskip : skipCached begun fill.records = skipCached item fill.records := by
    rw [hbegun]
    rfl
  have hstrands : StrandsItem fill begun ↔ StrandsItem fill item := by
    rw [hbegun]
    rfl
  rw [← hstrands]
  by_cases hrecords : fill.records = []
  · obtain ⟨s, a, d, f, hfinish⟩ := finish_eq begun fill.records
      (fun hne => absurd hrecords hne) fill.request
    rw [if_pos hrecords, bind_some]
    simp only
    rw [hfinish, map_some]
    refine ⟨_, ps, true, rfl, hformed.shaped.withFields s a d f, hformed.sorted, ?_⟩
    refine iff_of_true hformed.nonempty fun hstranded => ?_
    obtain ⟨nslots, -, hstranded⟩ := hstranded
    rw [hrecords, skipCached_nil] at hstranded
    exact not_stranded_nil hstranded
  · obtain ⟨nslots, hslots, item', ps', k, hadd, hfilled⟩ :=
      addValuesAtTail_spec shm fill.answers hformed.shaped hformed.nonempty fill.records
    have hoccupied : Occupied item' ps' ↔ ¬StrandsItem fill begun := by
      rw [hfilled.nonempty]
      apply not_congr
      constructor
      · intro hstranded
        refine ⟨nslots, hslots fun hnil => ?_, hstranded⟩
        rw [hnil] at hstranded
        exact not_stranded_nil hstranded
      · intro hstranded
        obtain ⟨nslots', hslots', hstranded⟩ := hstranded
        have hne : skipCached begun fill.records ≠ [] := fun hnil => by
          rw [hnil] at hstranded
          exact not_stranded_nil hstranded
        rw [hslots hne] at hslots'
        rw [Int.ofNat_inj.mp (Option.some.inj hslots')]
        exact hstranded
    have horder : SortedBy recordKey (item'.history ps') := by
      rw [hfilled.history]
      apply (skipCached_sorted hformed.toOrdered hsorted).sublist
      exact List.Sublist.append_right (drop_sublist k _) _
    rw [if_neg hrecords, hadd, bind_some]
    by_cases hk : k = 0
    · have hhistory := hfilled.history
      rw [hk, drop_zero] at hhistory
      obtain ⟨s, a, d, f, hfinish⟩ := finish_eq item' fill.records
        (fun _ => tail_of_filled hformed hrecords hfilled.shaped hhistory) fill.request
      rw [decide_eq_true hk]
      simp only
      rw [hfinish, map_some]
      exact ⟨_, ps', true, rfl, hfilled.shaped.withFields s a d f, horder, hoccupied⟩
    · rw [decide_eq_false hk]
      exact ⟨item', ps', false, rfl, hfilled.shaped, horder, hoccupied⟩

theorem formed_or_new (h : Formed cache) {valueType : ItemValueType} (htype : Cacheable valueType)
    {itemid : ℕ} {range : ℤ} {inserted : Prop} [Decidable inserted]
    (hitem : (match cache itemid with
      | some item => some item
      | none => if inserted then some (newItem itemid valueType range) else none) = some item) :
    ∃ ps, WellFormed item ps := by
  cases hcached : cache itemid with
  | some cached =>
    rw [hcached] at hitem
    obtain rfl := Option.some.inj hitem
    exact h _ _ hcached
  | none =>
    rw [hcached] at hitem
    simp only at hitem
    split_ifs at hitem
    obtain rfl := Option.some.inj hitem
    exact ⟨[], newItem_wellFormed _ htype _⟩

theorem fill_item_formed {fill : Fill} (h : Formed cache) (htype : Cacheable fill.valueType)
    (hitem : fill.item cache = some item) : ∃ ps, WellFormed item ps :=
  formed_or_new h htype hitem

theorem formed_update (h : Formed cache) (dropped : ℕ → Bool) (itemid : ℕ) {new : Option VcItem}
    (hnew : ∀ item, new = some item → ∃ ps, WellFormed item ps) :
    Formed (update (dropItems dropped cache) itemid new) := by
  intro other item hother
  by_cases heq : other = itemid
  · rw [heq, update_self] at hother
    exact hnew item hother
  · rw [update_of_ne heq, dropItems] at hother
    split_ifs at hother
    exact h other item hother

theorem fillSection_spec (shm : SharedMemory) {fill : Fill} (h : Formed cache)
    (hexpected : fill.Expected) :
    ∃ cache' filled, fillSection shm fill cache = some (cache', filled) ∧
      (Consistent cache' ↔ ¬fill.Strands cache) ∧ (¬fill.Strands cache → Formed cache') := by
  rw [fillSection]
  cases hitem : fill.item cache with
  | none =>
    have hnot : ¬fill.Strands cache := by
      intro hstrands
      obtain ⟨item, hsome, -⟩ := (strands_iff fill cache).mp hstrands
      rw [hitem] at hsome
      cases hsome
    exact ⟨cache, false, rfl, iff_of_true h.consistent hnot, fun _ => h⟩
  | some item =>
    obtain ⟨ps, hformed⟩ := fill_item_formed h hexpected.2 hitem
    obtain ⟨item', ps', filled, hfill, hshaped, hsorted, hoccupied⟩ :=
      fillItem_spec shm fill hformed hexpected.1
    have hstrands : fill.Strands cache ↔ StrandsItem fill item := by
      rw [strands_iff]
      constructor
      · intro hstrands
        obtain ⟨other, hother, hcondition⟩ := hstrands
        rw [hitem] at hother
        rw [Option.some.inj hother]
        exact hcondition
      · exact fun hcondition => ⟨item, hitem, hcondition⟩
    have hwellFormed : ¬fill.Strands cache → Formed
        (update (dropItems fill.dropped cache) fill.itemid (some item')) := by
      intro hnot
      apply formed_update h
      intro new hnew
      obtain rfl := Option.some.inj hnew
      exact ⟨ps', hshaped.wellFormed (hoccupied.mpr (mt hstrands.mpr hnot)) hsorted⟩
    refine ⟨_, filled, by simp only [hfill, map_some],
      ⟨fun hconsistent => ?_, fun hnot => ?_⟩, hwellFormed⟩
    · have hone := hconsistent fill.itemid item' (update_self ..)
      exact mt hstrands.mp (hoccupied.mp (hshaped.consistent_iff.mp hone))
    · exact (hwellFormed hnot).consistent

variable {value : HistoryRecord} {chunkGranted : Bool} {granted : ℕ → Bool}

theorem growHead_ok (h : growHead shm chunkGranted item = some (item', true)) :
    growHead shm true item = some (item', true) := by
  cases chunkGranted with
  | true => exact h
  | false =>
    rw [growHead] at h ⊢
    split_ifs at h ⊢
    · obtain ⟨nslots, -, hadd⟩ := bind_eq_some_iff.mp h
      rw [vchItemAddChunk, if_neg Bool.false_ne_true] at hadd
      cases hadd
    · exact h

theorem copyValue_ok {x : ℕ × ℤ} (h : vchItemCopyValue granted item x value = (item', true)) :
    vchItemCopyValue (fun _ => true) item x value = (item', true) := by
  rw [vchItemCopyValue] at h
  cases hdup : vcItemDup granted item.valueType value.value with
  | none =>
    rw [hdup] at h
    cases h
  | some copied =>
    rw [hdup, dup_eq hdup] at h
    rw [copyValue_granted]
    exact h

theorem appendValue_ok (h : appendValue shm chunkGranted granted item value = some (item', true)) :
    appendValue shm true (fun _ => true) item value = some (item', true) := by
  rw [appendValue] at h ⊢
  obtain ⟨⟨grown, ok⟩, hgrow, hrest⟩ := bind_eq_some_iff.mp h
  cases ok with
  | false => cases hrest
  | true =>
    rw [growHead_ok hgrow, bind_some]
    obtain ⟨head, hhead, hcopy⟩ := map_eq_some_iff.mp hrest
    exact map_eq_some_iff.mpr ⟨head, hhead, copyValue_ok hcopy⟩

theorem insertValue_ok (h : insertValue shm chunkGranted granted item p value = some (item', true)) :
    insertValue shm true (fun _ => true) item p value = some (item', true) := by
  rw [insertValue] at h ⊢
  obtain ⟨⟨grown, ok⟩, hgrow, hrest⟩ := bind_eq_some_iff.mp h
  cases ok with
  | false => cases hrest
  | true =>
    simp only
    rw [growHead_ok hgrow, bind_some]
    obtain ⟨head, hhead, hshift⟩ := bind_eq_some_iff.mp hrest
    obtain ⟨shifted, hloop, hcopy⟩ := map_eq_some_iff.mp hshift
    exact bind_eq_some_iff.mpr
      ⟨head, hhead, map_eq_some_iff.mpr ⟨shifted, hloop, copyValue_ok hcopy⟩⟩

theorem addValueAtHead_ok
    (h : vchItemAddValueAtHead shm chunkGranted granted item value = some (item', true)) :
    vchItemAddValueAtHead shm true (fun _ => true) item value = some (item', true) := by
  rw [vchItemAddValueAtHead] at h ⊢
  cases hhead : item.head with
  | none =>
    rw [hhead] at h
    exact appendValue_ok h
  | some head =>
    rw [hhead] at h
    simp only at h ⊢
    split_ifs at h ⊢
    · obtain ⟨tail, htail, hrest⟩ := bind_eq_some_iff.mp h
      rw [htail, bind_some]
      split_ifs at hrest ⊢
      · exact hrest
      · exact insertValue_ok hrest
    · exact appendValue_ok h

theorem addToItem_formed {addition : Addition} {kept : Option VcItem} (h : WellFormed item ps)
    (hadd : addToItem shm addition item = some kept) :
    ∀ item', kept = some item' → ∃ ps', WellFormed item' ps' := by
  intro item' hkept
  subst hkept
  rw [addToItem] at hadd
  split_ifs at hadd with htype
  · cases hadd
  obtain ⟨⟨added, ok⟩, hvalue, hrest⟩ := bind_eq_some_iff.mp hadd
  cases ok with
  | false => cases hrest
  | true =>
    obtain ⟨added', ps', ok, hvalue', hformed, -⟩ := addValueAtHead_spec shm h addition.value
    rw [addValueAtHead_ok hvalue] at hvalue'
    obtain ⟨rfl, -⟩ := Prod.mk.inj (Option.some.inj hvalue')
    simp only at hrest
    split_ifs at hrest
    · obtain ⟨cleaned, hclean, hsome⟩ := map_eq_some_iff.mp hrest
      obtain ⟨cleaned', ps'', hclean', hformed', -⟩ := cleanCache_spec hformed _
      rw [hclean'] at hclean
      obtain rfl := Option.some.inj hclean
      obtain rfl := Option.some.inj hsome
      exact ⟨ps'', hformed'⟩
    · obtain rfl := Option.some.inj (Option.some.inj hrest)
      exact ⟨ps', hformed⟩

theorem addition_item_formed {addition : Addition} (h : Formed cache)
    (htype : Cacheable addition.valueType) (hitem : addition.item cache = some item) :
    ∃ ps, WellFormed item ps :=
  formed_or_new h htype hitem

theorem section_formed {sect : Section} (h : Formed cache) (hsound : sect.Sound cache)
    (hrun : sect.run shm cache = some cache') : Formed cache' := by
  cases sect with
  | fill request =>
    obtain ⟨after, filled, hfill, -, hformed⟩ := fillSection_spec shm h hsound.1
    rw [Section.run, hfill] at hrun
    obtain rfl := Option.some.inj hrun
    exact hformed hsound.2
  | remove itemid =>
    obtain rfl := Option.some.inj hrun
    intro other item hother
    by_cases heq : other = itemid
    · rw [heq, update_self] at hother
      cases hother
    · rw [update_of_ne heq] at hother
      exact h other item hother
  | add addition =>
    rw [Section.run, addSection] at hrun
    cases hitem : addition.item cache with
    | none =>
      rw [hitem] at hrun
      obtain rfl := Option.some.inj hrun
      exact h
    | some item =>
      rw [hitem] at hrun
      obtain ⟨kept, hadd, rfl⟩ := map_eq_some_iff.mp hrun
      obtain ⟨ps, hformed⟩ := addition_item_formed h hsound hitem
      exact formed_update h addition.dropped addition.itemid (addToItem_formed hformed hadd)

theorem released_formed (h : Formed cache) (hreleased : Released shm cache cache') :
    Formed cache' := by
  induction hreleased with
  | start => exact h
  | next reached sect sound ran ih => exact section_formed ih sound ran

/-- A fill leaves right counters just when it does not strand, and in runs without such fills all
counters are right whenever the lock is released. -/
theorem released_consistent (shm : SharedMemory) {cache : Cache} (h : Formed cache) :
    (∀ fill : Fill, fill.Expected → ∃ cache' filled,
      fillSection shm fill cache = some (cache', filled) ∧
        (Consistent cache' ↔ ¬fill.Strands cache)) ∧
    ∀ cache', Released shm cache cache' → Consistent cache' := by
  constructor
  · intro fill hexpected
    obtain ⟨cache', filled, hfill, hconsistent, -⟩ := fillSection_spec shm h hexpected
    exact ⟨cache', filled, hfill, hconsistent⟩
  · intro cache' hreleased
    exact (released_formed h hreleased).consistent

def emptyCache : Cache := fun _ => none

/-- A text from the database for a new item: there is memory for the item and for a chunk, and none
for the text. -/
def textRefused : Fill where
  itemid := 1
  valueType := .str
  request := .byTime 5
  records := [⟨⟨10, 0⟩, .str ['a']⟩]
  inserted := true
  answers := ⟨fun _ => true, fun _ _ => false⟩
  dropped := fun _ => false

theorem emptyCache_formed : Formed emptyCache := fun _ _ h => nomatch h

theorem textRefused_expected : textRefused.Expected := ⟨pairwise_singleton _ _, by decide⟩

theorem released_consistent_textRefused : ∃ cache' filled,
    fillSection growingMemory textRefused emptyCache = some (cache', filled) ∧
      (Consistent cache' ↔ ¬textRefused.Strands emptyCache) :=
  (released_consistent growingMemory emptyCache_formed).1 textRefused textRefused_expected

theorem textRefused_not_consistent : ∃ cache',
    fillSection growingMemory textRefused emptyCache = some (cache', false) ∧ ¬Consistent cache' := by
  refine ⟨_, rfl, fun hconsistent => ?_⟩
  have hitem := (hconsistent 1 _ rfl).1 1 mem_cons_self
  revert hitem
  decide

theorem failed_fill_not_consistent :
    ¬∀ (shm : SharedMemory) (cache : Cache) (fill : Fill), Formed cache → fill.Expected →
      ∀ cache' filled, fillSection shm fill cache = some (cache', filled) → Consistent cache' := by
  intro hall
  obtain ⟨cache', hfill, hnot⟩ := textRefused_not_consistent
  exact hnot (hall growingMemory emptyCache textRefused emptyCache_formed textRefused_expected cache'
    false hfill)

end Zabbix.ValueCache
