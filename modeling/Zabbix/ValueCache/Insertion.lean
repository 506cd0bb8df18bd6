import Zabbix.ValueCache.Positions

/-!
# Adding a value at the head

`vch_item_add_value_at_head`: a value that is not the newest one is put where it belongs, and the
later ones are shifted towards the head, over the borders of chunks.
-/

namespace Zabbix.ValueCache

open List Option Function

open Zabbix.Preproc (Timespec zbxTimespecCompare ItemValueType)

def vcItemStrdup (granted : Bool) (str : List Char) : Option (List Char) :=
  if granted then some str else none

def vcItemLogdup (granted : ℕ → Bool) (log : LogValue) : Option LogValue :=
  if granted 0 then
    match log.source with
    | some source =>
      (vcItemStrdup (granted 1) source).bind fun source =>
        (vcItemStrdup (granted 2) log.value).map fun value =>
          { log with source := some source, value }
    | none => (vcItemStrdup (granted 1) log.value).map fun value => { log with value }
  else none

def vcItemDup (granted : ℕ → Bool) (valueType : ItemValueType) (value : HistoryValue) :
    Option HistoryValue :=
  match valueType, value with
  | .str, .str text => (vcItemStrdup (granted 0) text).map .str
  | .text, .str text => (vcItemStrdup (granted 0) text).map .str
  | .log, .log log => (vcItemLogdup granted log).map .log
  | _, _ => some value

def vchItemCopyValue (granted : ℕ → Bool) (item : VcItem) (x : ℕ × ℤ) (source : HistoryRecord) :
    VcItem × Bool :=
  match vcItemDup granted item.valueType source.value with
  | some value => (item.setSlot x.1 x.2 ⟨source.timestamp, value⟩, true)
  | none => (item, false)

def freeAtHead (item : VcItem) : ℤ :=
  match item.head with
  | some head => (item.chunks head).slotsNum - (item.chunks head).lastValue - 1
  | none => 0

def growHead (shm : SharedMemory) (granted : Bool) (item : VcItem) : Option (VcItem × Bool) :=
  if freeAtHead item = 0 then
    (vchItemChunkSlotCount item 1).bind fun nslots => vchItemAddChunk shm granted item nslots none
  else
    item.head.map fun head => (item.setLast head ((item.chunks head).lastValue + 1), true)

/-- The loop that shifts values, from `source` to `target` and so on from the slot before; undefined
where there is none. -/
def shiftLoop (value : HistoryRecord) : ℕ → VcItem → ℕ × ℤ → ℕ × ℤ → Option (VcItem × (ℕ × ℤ))
  | 0, _, _, _ => none
  | fuel + 1, item, target, source =>
    let item := item.setSlot target.1 target.2 (item.slotAt source)
    (item.before source).bind fun previous =>
      if 0 < zbxTimespecCompare (item.slotAt previous).timestamp value.timestamp then
        shiftLoop value fuel item source previous
      else some (item, source)

def rejectValue (item : VcItem) (value : HistoryRecord) : Option (VcItem × Bool) :=
  (vchItemRemoveValues item (value.timestamp.sec + 1)).map fun item =>
    if item.head = none then (item, false)
    else if item.dbCachedFrom ≤ value.timestamp.sec then
      ({ item with dbCachedFrom := value.timestamp.sec + 1 }, true)
    else (item, true)

def insertValue (shm : SharedMemory) (chunkGranted : Bool) (granted : ℕ → Bool) (item : VcItem)
    (head : ℕ) (value : HistoryRecord) : Option (VcItem × Bool) :=
  let source := (head, (item.chunks head).lastValue)
  (growHead shm chunkGranted item).bind fun
    | (item, false) => some (item, false)
    | (item, true) =>
      let item := { item with valuesTotal := item.valuesTotal + 1 }
      item.head.bind fun head =>
        (shiftLoop value item.valuesTotal.toNat item (head, (item.chunks head).lastValue) source).map
          fun (item, target) => vchItemCopyValue granted item target value

def appendValue (shm : SharedMemory) (chunkGranted : Bool) (granted : ℕ → Bool) (item : VcItem)
    (value : HistoryRecord) : Option (VcItem × Bool) :=
  (growHead shm chunkGranted item).bind fun
    | (item, false) => some (item, false)
    | (item, true) =>
      let item := { item with valuesTotal := item.valuesTotal + 1 }
      item.head.map fun head =>
        vchItemCopyValue granted item (head, (item.chunks head).lastValue) value

def vchItemAddValueAtHead (shm : SharedMemory) (chunkGranted : Bool) (granted : ℕ → Bool)
    (item : VcItem) (value : HistoryRecord) : Option (VcItem × Bool) :=
  match item.head with
  | some head =>
    if 0 < zbxHistoryRecordCompareAsc (item.slot head (item.chunks head).lastValue) value then
      item.tail.bind fun tail =>
        if 0 < zbxHistoryRecordCompareAsc (item.slot tail (item.chunks tail).firstValue) value then
          rejectValue item value
        else insertValue shm chunkGranted granted item head value
    else appendValue shm chunkGranted granted item value
  | none => appendValue shm chunkGranted granted item value

variable {item item' : VcItem} {ps front back : List ℕ} {p q : ℕ} {value : HistoryRecord}

theorem dup_granted (valueType : ItemValueType) (value : HistoryValue) :
    vcItemDup (fun _ => true) valueType value = some value := by
  have hlog : ∀ log : LogValue, vcItemLogdup (fun _ => true) log = some log := by
    intro log
    obtain ⟨text, source, timestamp, severity, logeventid⟩ := log
    cases source <;> rfl
  cases valueType <;> cases value <;> try rfl
  exact congrArg (Option.map HistoryValue.log) (hlog _)

theorem copyValue_granted (item : VcItem) (x : ℕ × ℤ) (value : HistoryRecord) :
    vchItemCopyValue (fun _ => true) item x value = (item.setSlot x.1 x.2 value, true) := by
  rw [vchItemCopyValue, dup_granted]

theorem shiftLoop_spec : ∀ (fuel : ℕ) (A : List (ℕ × ℤ)) (item : VcItem) (target source : ℕ × ℤ)
    (B : List (ℕ × ℤ)), Chained item ps →
      (∀ p ∈ ps, (item.chunks p).firstValue ≤ (item.chunks p).lastValue) →
      item.positions ps = A ++ source :: target :: B → A.length < fuel →
      recordKey value < recordKey (item.slotAt source) →
      (∃ x ∈ A, recordKey (item.slotAt x) ≤ recordKey value) →
      ∃ item' hole old new, shiftLoop value fuel item target source = some (item', hole) ∧
        SameShape item item' ∧ (A ++ [source]).map item.slotAt = old ++ new ∧
        (∃ last, old.getLast? = some last ∧ recordKey last ≤ recordKey value) ∧
        (∀ r ∈ new.head?, recordKey value < recordKey r) ∧
        ∀ r, (item.positions ps).map (update item'.slotAt hole r) =
          old ++ r :: new ++ B.map item.slotAt := by
  intro fuel
  induction fuel with
  | zero =>
    intro A item target source B _ _ _ hfuel _ _
    omega
  | succ fuel ih =>
    intro A item target source B h hnonempty hpositions hfuel hlater hstart
    obtain ⟨moved, hmoved⟩ : ∃ moved, moved = item.setSlot target.1 target.2 (item.slotAt source) :=
      ⟨_, rfl⟩
    have hshape : SameShape item moved := hmoved ▸ setSlot_shape _ _ _ _
    have hslots : moved.slotAt = update item.slotAt target (item.slotAt source) := by
      rw [hmoved, setSlot_slotAt]
    have hnodup : (item.positions ps).Nodup := positions_nodup h.nodup
    rw [hpositions] at hnodup
    have hsource : source ≠ target := by
      intro heq
      rw [heq] at hnodup
      simp [nodup_append] at hnodup
    have hA : target ∉ A ∧ source ∉ A := by
      obtain ⟨-, -, hdisjoint⟩ := nodup_append.mp hnodup
      exact ⟨fun hmem => hdisjoint _ hmem target (by simp) rfl,
        fun hmem => hdisjoint _ hmem source (by simp) rfl⟩
    have hB : target ∉ B ∧ source ∉ B := by
      obtain ⟨-, hrest, -⟩ := nodup_append.mp hnodup
      simp only [nodup_cons, mem_cons, not_or] at hrest
      exact ⟨hrest.2.1, hrest.1.2⟩
    have hmapA : A.map moved.slotAt = A.map item.slotAt := by
      rw [hslots]
      exact map_congr_left fun x hx => update_of_ne (ne_of_mem_of_not_mem hx hA.1) _ _
    have hmapB : B.map moved.slotAt = B.map item.slotAt := by
      rw [hslots]
      exact map_congr_left fun x hx => update_of_ne (ne_of_mem_of_not_mem hx hB.1) _ _
    have hvalue : moved.slotAt source = item.slotAt source := by rw [hslots, update_of_ne hsource]
    have htarget : moved.slotAt target = item.slotAt source := by rw [hslots, update_self]
    obtain ⟨x, hx, hxle⟩ := hstart
    obtain rfl | ⟨A, y, rfl⟩ := eq_nil_or_concat' A
    · exact absurd hx not_mem_nil
    · have hpositions' : moved.positions ps = A ++ y :: source :: (target :: B) := by
        rw [hshape.positions, hpositions, append_assoc, singleton_append]
      have hbefore : moved.before source = some y :=
        before_eq (h.of_eq hshape.next hshape.prev hshape.used) (hshape.nonempty hnonempty) hpositions'
      have hy : moved.slotAt y = item.slotAt y := by
        rw [hslots, update_of_ne (ne_of_mem_of_not_mem (by simp) hA.1)]
      rw [shiftLoop, ← hmoved, hbefore, bind_some]
      simp only [compare_pos_iff]
      by_cases hmore : timeKey value.timestamp < timeKey (moved.slotAt y).timestamp
      · rw [if_pos hmore]
        have hxA : x ∈ A := by
          obtain hxA | hxy := mem_append.mp hx
          · exact hxA
          · rw [mem_singleton.mp hxy, ← hy] at hxle
            exact absurd hxle (not_le.mpr hmore)
        have hxmoved : moved.slotAt x = item.slotAt x := by
          rw [hslots, update_of_ne (ne_of_mem_of_not_mem hx hA.1)]
        obtain ⟨item', hole, old, new, hloop, hshape', hsplit, hlast, hnew, hfinal⟩ :=
          ih A moved source y (target :: B) (h.of_eq hshape.next hshape.prev hshape.used)
            (hshape.nonempty hnonempty) hpositions' (by simp at hfuel; omega) hmore
            ⟨x, hxA, by rw [hxmoved]; exact hxle⟩
        refine ⟨item', hole, old, new ++ [item.slotAt source], hloop, hshape.trans hshape', ?_, hlast,
          ?_, fun r => ?_⟩
        · rw [map_append, ← hmapA, hsplit, append_assoc]
          rfl
        · cases new with
          | nil =>
            intro r hr
            obtain rfl : item.slotAt source = r := by simpa using hr
            exact hlater
          | cons r new => exact hnew
        · have hone := hfinal r
          rw [hshape.positions, map_cons, htarget, hmapB] at hone
          rw [hone]
          simp only [append_assoc, cons_append, nil_append]
      · rw [if_neg hmore]
        refine ⟨moved, source, (A ++ [y]).map item.slotAt, [item.slotAt source], rfl, hshape, ?_, ?_, ?_,
          fun r => ?_⟩
        · rw [map_append, map_singleton]
        · refine ⟨item.slotAt y, by simp, ?_⟩
          rw [← hy]
          exact not_lt.mp hmore
        · intro r hr
          obtain rfl : item.slotAt source = r := by simpa using hr
          exact hlater
        · have hrest : ∀ l : List (ℕ × ℤ), source ∉ l →
              l.map (update moved.slotAt source r) = l.map moved.slotAt := fun l hl =>
            map_congr_left fun z hz => update_of_ne (ne_of_mem_of_not_mem hz hl) _ _
          rw [hpositions, map_append, map_cons, map_cons, hrest _ hA.2, hrest _ hB.2,
            hmapA, hmapB, update_self, update_of_ne (Ne.symm hsource), htarget]
          simp only [append_assoc, cons_append, nil_append]

structure Grown (item item' : VcItem) (ps ps' : List ℕ) (p : ℕ) : Prop where
  chained : Chained item' ps'
  head : item'.head = some p
  nonempty : ∀ q ∈ ps', (item'.chunks q).firstValue ≤ (item'.chunks q).lastValue
  slots : ∀ q ∈ ps', 0 ≤ (item'.chunks q).firstValue ∧
    (item'.chunks q).lastValue < (item'.chunks q).slotsNum
  positions : item'.positions ps' = item.positions ps ++ [(p, (item'.chunks p).lastValue)]
  same : ∀ x ∈ item.positions ps, item'.slotAt x = item.slotAt x
  fields : item'.toVcItemFields = item.toVcItemFields

theorem grown_setLast (h : WellFormed item (front ++ [p]))
    (hroom : (item.chunks p).lastValue + 1 < (item.chunks p).slotsNum) :
    Grown item (item.setLast p ((item.chunks p).lastValue + 1)) (front ++ [p]) (front ++ [p]) p := by
  have hp : p ∈ front ++ [p] := mem_append_right _ (mem_singleton_self p)
  have hlinks := @VcItem.modify_links item p
    (fun chunk => { chunk with lastValue := (item.chunks p).lastValue + 1 }) rfl rfl
  have hchunk : (item.setLast p ((item.chunks p).lastValue + 1)).chunks p =
      { item.chunks p with lastValue := (item.chunks p).lastValue + 1 } :=
    VcItem.modify_chunk item p fun chunk => { chunk with lastValue := (item.chunks p).lastValue + 1 }
  have hothers : ∀ q, q ≠ p → (item.setLast p ((item.chunks p).lastValue + 1)).chunks q =
      item.chunks q := fun q hq => VcItem.modify_of_ne hq _
  have hfront : ∀ q ∈ front, q ≠ p := fun q hq => ne_of_mem_of_not_mem hq h.not_mem.1
  have hle := h.nonempty p hp
  constructor
  · exact h.toChained.of_eq hlinks.1 hlinks.2 rfl
  · exact h.head_eq.trans List.getLast?_concat
  · intro q hq
    by_cases hqp : q = p
    · rw [hqp, hchunk]
      simp only
      omega
    · rw [hothers q hqp]
      exact h.nonempty q hq
  · intro q hq
    have hslots := h.slots q hq
    by_cases hqp : q = p
    · rw [hqp] at hslots ⊢
      rw [hchunk]
      exact ⟨hslots.1, hroom⟩
    · rw [hothers q hqp]
      exact hslots
  · have hsame : (item.setLast p ((item.chunks p).lastValue + 1)).positions front =
        item.positions front := positions_congr fun q hq => by
      rw [hothers q (hfront q hq)]
      exact ⟨rfl, rfl⟩
    rw [positions_append, positions_append, hsame, positions_singleton, positions_singleton,
      append_assoc, VcItem.places, VcItem.places, hchunk]
    simp only
    rw [span_last (by omega), Int.add_sub_cancel]
  · intro x _
    rw [VcItem.slotAt, VcItem.slotAt, VcItem.slot, VcItem.slot]
    by_cases hxp : x.1 = p
    · rw [hxp, hchunk]
    · rw [hothers _ hxp]
  · rfl

theorem grown_of_added (h : WellFormed item ps) (hp : p ∉ ps) {nslots : ℤ} (hnslots : 0 < nslots)
    (hadded : Added item item' p nslots) (hchained : Chained item' (ps ++ [p])) :
    Grown item item' ps (ps ++ [p]) p := by
  have hothers : ∀ q ∈ ps, (item'.chunks q).firstValue = (item.chunks q).firstValue ∧
      (item'.chunks q).lastValue = (item.chunks q).lastValue ∧
      (item'.chunks q).slotsNum = (item.chunks q).slotsNum ∧
      (item'.chunks q).slots = (item.chunks q).slots := by
    intro q hq
    have hbody := hadded.others q (ne_of_mem_of_not_mem hq hp)
    simpa only [VcItem.body, Prod.mk.injEq] using hbody
  constructor
  · exact hchained
  · exact hchained.head_eq.trans List.getLast?_concat
  · intro q hq
    obtain hq | hq := mem_append.mp hq
    · rw [(hothers q hq).1, (hothers q hq).2.1]
      exact h.nonempty q hq
    · rw [mem_singleton.mp hq, hadded.first, hadded.last]
  · intro q hq
    obtain hq | hq := mem_append.mp hq
    · rw [(hothers q hq).1, (hothers q hq).2.1, (hothers q hq).2.2.1]
      exact h.slots q hq
    · rw [mem_singleton.mp hq, hadded.first, hadded.last, hadded.slotsNum]
      exact ⟨le_refl 0, hnslots⟩
  · have hsame : item'.positions ps = item.positions ps :=
      positions_congr fun q hq => ⟨(hothers q hq).1, (hothers q hq).2.1⟩
    rw [positions_append, hsame, positions_singleton, VcItem.places, hadded.first, hadded.last,
      span_singleton]
  · intro x hx
    rw [VcItem.slotAt, VcItem.slotAt, VcItem.slot, VcItem.slot,
      (hothers x.1 (mem_positions.mp hx).1).2.2.2]
  · exact hadded.fields

variable (shm : SharedMemory)

theorem growHead_spec (h : WellFormed item ps) :
    ∃ item' ps' p, growHead shm true item = some (item', true) ∧ Grown item item' ps ps' p := by
  have htotal := h.total
  obtain ⟨nslots, hcount, hnslots⟩ := @slotCount_ge item 1 (by omega)
  have hhead := h.head_eq
  rw [growHead]
  split_ifs with hfull
  · obtain ⟨item', hadd, hadded, hchained⟩ := addChunk_head shm h.toChained nslots
    refine ⟨item', _, _, ?_, grown_of_added h (h.malloc_not_mem shm) (by omega) hadded hchained⟩
    rw [hcount]
    exact hadd
  · obtain rfl | ⟨front, p, rfl⟩ := eq_nil_or_concat' ps
    · rw [freeAtHead, hhead] at hfull
      exact absurd rfl hfull
    · have hslots := h.slots p (by simp)
      rw [List.getLast?_concat] at hhead
      rw [freeAtHead, hhead] at hfull
      simp only at hfull
      refine ⟨_, front ++ [p], p, ?_, grown_setLast h (by omega)⟩
      rw [hhead]
      rfl

theorem Grown.wellFormed {ps' : List ℕ} {item'' : VcItem} (h : WellFormed item ps)
    (hgrown : Grown item item' ps ps' p)
    (hshape : SameShape { item' with valuesTotal := item'.valuesTotal + 1 } item'')
    (hsorted : SortedBy recordKey (item''.history ps')) : WellFormed item'' ps' := by
  have hshaped : Shaped { item' with valuesTotal := item'.valuesTotal + 1 } ps' := by
    constructor
    · exact hgrown.chained.of_eq rfl rfl rfl
    · intro q hq
      exact ⟨(hgrown.slots q hq).1, (hgrown.nonempty q hq).trans (Int.le_add_one (le_refl _)),
        (hgrown.slots q hq).2⟩
    · have htotal := h.total
      have hvalues : item'.valuesTotal = item.valuesTotal :=
        congrArg VcItemFields.valuesTotal hgrown.fields
      have hpositions : VcItem.positions { item' with valuesTotal := item'.valuesTotal + 1 } ps' =
        item.positions ps ++ [(p, (item'.chunks p).lastValue)] := hgrown.positions
      rw [history_length_eq, hpositions, length_append, ← history_length_eq]
      simp only [length_singleton]
      omega
    · have htype : item'.valueType = item.valueType := congrArg VcItemFields.valueType hgrown.fields
      have hcacheable := h.type
      rw [← htype] at hcacheable
      exact hcacheable
  exact (hshape.shaped hshaped).wellFormed (hshape.nonempty hgrown.nonempty) hsorted

structure InsertedInto (l : List HistoryRecord) (value : HistoryRecord) (l' : List HistoryRecord) :
    Prop where
  split : ∃ old new, l = old ++ new ∧ l' = old ++ value :: new ∧
    (∀ r ∈ old, recordKey r ≤ recordKey value) ∧ ∀ r ∈ new, recordKey value < recordKey r

theorem InsertedInto.sorted {l l' : List HistoryRecord} (h : InsertedInto l value l')
    (hsorted : SortedBy recordKey l) : SortedBy recordKey l' := by
  obtain ⟨old, new, rfl, rfl, hold, hnew⟩ := h.split
  obtain ⟨hsold, hsnew, hcross⟩ := pairwise_append.mp hsorted
  apply pairwise_append.mpr
  refine ⟨hsold, pairwise_cons.mpr ⟨fun r hr => (hnew r hr).le, hsnew⟩, fun a ha b hb => ?_⟩
  obtain rfl | hb := mem_cons.mp hb
  · exact hold a ha
  · exact hcross a ha b hb

theorem appendValue_spec (h : WellFormed item ps)
    (hlast : ∀ r ∈ item.history ps, recordKey r ≤ recordKey value) :
    ∃ item' ps', appendValue shm true (fun _ => true) item value = some (item', true) ∧
      WellFormed item' ps' ∧ InsertedInto (item.history ps) value (item'.history ps') := by
  obtain ⟨grown, ps', p, hgrow, hgrown⟩ := growHead_spec shm h
  obtain ⟨last, hp⟩ : ∃ last, last = (grown.chunks p).lastValue := ⟨_, rfl⟩
  have hpositions := hgrown.positions
  have hnodup : (grown.positions ps').Nodup := positions_nodup hgrown.chained.nodup
  rw [hpositions, ← hp] at hnodup
  have hnew : (p, last) ∉ item.positions ps := by
    obtain ⟨-, -, hdisjoint⟩ := nodup_append.mp hnodup
    exact fun hmem => hdisjoint _ hmem _ (mem_singleton_self _) rfl
  obtain ⟨counted, hcounted⟩ : ∃ counted : VcItem,
      counted = { grown with valuesTotal := grown.valuesTotal + 1 } := ⟨_, rfl⟩
  have hshape : SameShape counted (counted.setSlot p last value) := setSlot_shape _ _ _ _
  have hslots : counted.slotAt = grown.slotAt := by rw [hcounted]; rfl
  have hhistory : (counted.setSlot p last value).history ps' = item.history ps ++ [value] := by
    have hsame : counted.positions ps' = grown.positions ps' := by rw [hcounted]; rfl
    rw [history_eq_map, hshape.positions, hsame, hpositions, setSlot_slotAt, hslots, ← hp,
      map_append, map_singleton, update_self, history_eq_map]
    congr 1
    apply map_congr_left
    intro x hx
    rw [update_of_ne (ne_of_mem_of_not_mem hx hnew), hgrown.same x hx]
  have hinserted : InsertedInto (item.history ps) value ((counted.setSlot p last value).history ps') :=
    ⟨item.history ps, [], (append_nil _).symm, hhistory, hlast, fun r hr => nomatch hr⟩
  refine ⟨counted.setSlot p last value, ps', ?_, ?_, hinserted⟩
  · rw [appendValue, hgrow, bind_some]
    simp only
    rw [← hcounted, hgrown.head, map_some, copyValue_granted, hp]
  · rw [hcounted] at hshape hinserted ⊢
    exact hgrown.wellFormed h hshape (hinserted.sorted h.sorted)

theorem insertValue_spec (h : WellFormed item (front ++ [p]))
    (hlater : recordKey value < recordKey (item.slot p (item.chunks p).lastValue))
    (hstart : ∃ r ∈ item.history (front ++ [p]), recordKey r ≤ recordKey value) :
    ∃ item' ps', insertValue shm true (fun _ => true) item p value = some (item', true) ∧
      WellFormed item' ps' ∧ InsertedInto (item.history (front ++ [p])) value (item'.history ps') := by
  obtain ⟨grown, ps', q, hgrow, hgrown⟩ := growHead_spec shm h
  obtain ⟨counted, hcounted⟩ : ∃ counted : VcItem,
      counted = { grown with valuesTotal := grown.valuesTotal + 1 } := ⟨_, rfl⟩
  obtain ⟨A, hA⟩ : ∃ A, item.positions (front ++ [p]) = A ++ [(p, (item.chunks p).lastValue)] := by
    have hle := h.nonempty p (by simp)
    refine ⟨item.positions front ++
      span (fun i => (p, i)) (item.chunks p).firstValue ((item.chunks p).lastValue - 1), ?_⟩
    rw [positions_append, positions_singleton, VcItem.places, span_last hle, append_assoc]
  have hslots : counted.slotAt = grown.slotAt := by rw [hcounted]; rfl
  have hsame : ∀ x ∈ item.positions (front ++ [p]), counted.slotAt x = item.slotAt x := by
    rw [hslots]
    exact hgrown.same
  have hpositions : counted.positions ps' =
      A ++ (p, (item.chunks p).lastValue) :: (q, (grown.chunks q).lastValue) :: [] := by
    have heq : counted.positions ps' = grown.positions ps' := by rw [hcounted]; rfl
    rw [heq, hgrown.positions, hA, append_assoc]
    rfl
  have hchained : Chained counted ps' := by
    rw [hcounted]
    exact hgrown.chained.of_eq rfl rfl rfl
  have hnonempty : ∀ q ∈ ps', (counted.chunks q).firstValue ≤ (counted.chunks q).lastValue := by
    rw [hcounted]
    exact hgrown.nonempty
  have hfuel : A.length < counted.valuesTotal.toNat := by
    have htotal := h.total
    have hvalues : grown.valuesTotal = item.valuesTotal := congrArg VcItemFields.valuesTotal hgrown.fields
    rw [history_length_eq, hA, length_append, length_singleton] at htotal
    have hone : counted.valuesTotal = grown.valuesTotal + 1 := by rw [hcounted]
    omega
  have hsource : recordKey value < recordKey (counted.slotAt (p, (item.chunks p).lastValue)) := by
    rw [hsame _ (by rw [hA]; simp)]
    exact hlater
  have hfirst : ∃ x ∈ A, recordKey (counted.slotAt x) ≤ recordKey value := by
    obtain ⟨r, hr, hle⟩ := hstart
    rw [history_eq_map, List.mem_map] at hr
    obtain ⟨x, hx, rfl⟩ := hr
    refine ⟨x, ?_, by rw [hsame x hx]; exact hle⟩
    rw [hA] at hx
    obtain hx | hx := mem_append.mp hx
    · exact hx
    · rw [mem_singleton.mp hx] at hle
      exact absurd hle (not_le.mpr hlater)
  obtain ⟨shifted, hole, old, new, hloop, hshape, hsplit, ⟨last, hlast, hlastle⟩, hnew, hfinal⟩ :=
    shiftLoop_spec _ A counted _ _ _ hchained hnonempty hpositions hfuel hsource hfirst
  have hhistory : item.history (front ++ [p]) = old ++ new := by
    rw [history_eq_map, ← map_congr_left hsame, hA]
    exact hsplit
  have hsorted := h.sorted
  have hinserted : InsertedInto (item.history (front ++ [p])) value
      ((shifted.setSlot hole.1 hole.2 value).history ps') := by
    refine ⟨old, new, hhistory, ?_, fun r hr => ?_, fun r hr => ?_⟩
    · have hone := hfinal value
      rw [map_nil, append_nil] at hone
      rw [history_eq_map, setSlot_slotAt, (hshape.trans (setSlot_shape _ _ _ _)).positions]
      exact hone
    · obtain ⟨older, rfl⟩ := List.getLast?_eq_some_iff.mp hlast
      rw [hhistory] at hsorted
      have hsold := (pairwise_append.mp hsorted).1
      obtain hr | hr := mem_append.mp hr
      · exact ((pairwise_append.mp hsold).2.2 r hr last (mem_singleton_self _)).trans hlastle
      · rw [mem_singleton.mp hr]
        exact hlastle
    · rw [hhistory] at hsorted
      have hsnew : SortedBy recordKey new := (pairwise_append.mp hsorted).2.1
      cases new with
      | nil => exact absurd hr not_mem_nil
      | cons a new => exact (hnew a rfl).trans_le (hsnew.head_le r hr)
  refine ⟨shifted.setSlot hole.1 hole.2 value, ps', ?_, ?_, hinserted⟩
  · have hvalues : counted.valuesTotal = grown.valuesTotal + 1 := by rw [hcounted]
    rw [hvalues] at hloop
    rw [insertValue, hgrow]
    simp only [bind_some]
    rw [← hcounted, hgrown.head, bind_some, hloop, map_some, copyValue_granted]
  · have hall := hshape.trans (setSlot_shape shifted hole.1 hole.2 value)
    rw [hcounted] at hall
    exact hgrown.wellFormed h hall (hinserted.sorted h.sorted)

theorem rejectValue_spec (h : WellFormed item ps) (value : HistoryRecord) :
    ∃ item' ps' ok, rejectValue item value = some (item', ok) ∧ WellFormed item' ps' ∧
      item'.history ps' =
        (item.history ps).filter fun r => value.timestamp.sec + 1 ≤ r.timestamp.sec := by
  obtain ⟨item', ps', hremove, hformed, hhistory⟩ := removeValues_spec h (value.timestamp.sec + 1)
  rw [rejectValue, hremove, map_some]
  split_ifs
  · exact ⟨item', ps', false, rfl, hformed, hhistory⟩
  · exact ⟨_, ps', true, rfl, hformed.of_eq ⟨rfl, rfl⟩ rfl rfl rfl rfl, hhistory⟩
  · exact ⟨item', ps', true, rfl, hformed, hhistory⟩

theorem addValueAtHead_spec (h : WellFormed item ps) (value : HistoryRecord) :
    ∃ item' ps' ok, vchItemAddValueAtHead shm true (fun _ => true) item value = some (item', ok) ∧
      WellFormed item' ps' ∧
      (InsertedInto (item.history ps) value (item'.history ps') ∨
        (∀ r ∈ item.history ps, recordKey value < recordKey r) ∧ item'.history ps' =
          (item.history ps).filter fun r => value.timestamp.sec + 1 ≤ r.timestamp.sec) := by
  have hhead := h.head_eq
  rw [vchItemAddValueAtHead]
  obtain rfl | ⟨front, p, rfl⟩ := eq_nil_or_concat' ps
  · have hnone : ∀ r ∈ item.history [], recordKey r ≤ recordKey value := fun r hr => nomatch hr
    obtain ⟨item', ps', happend, hformed, hinserted⟩ := appendValue_spec shm h hnone
    rw [hhead]
    exact ⟨item', ps', true, happend, hformed, Or.inl hinserted⟩
  · rw [List.getLast?_concat] at hhead
    have hle := h.nonempty p (by simp)
    have hlast : ∀ r ∈ item.history (front ++ [p]),
        recordKey r ≤ recordKey (item.slot p (item.chunks p).lastValue) := by
      have hsorted := h.sorted
      rw [history_append, history_singleton, VcItem.values, span_last hle, ← append_assoc]
        at hsorted ⊢
      intro r hr
      obtain hr | hr := mem_append.mp hr
      · exact (pairwise_append.mp hsorted).2.2 r hr _ (mem_singleton_self _)
      · rw [mem_singleton.mp hr]
        exact le_rfl
    rw [hhead]
    simp only [compareAsc_eq, compare_pos_iff]
    by_cases hlater : timeKey value.timestamp <
        timeKey (item.slot p (item.chunks p).lastValue).timestamp
    · rw [if_pos hlater]
      obtain ⟨tail, back, hps⟩ : ∃ tail back, front ++ [p] = tail :: back :=
        exists_cons_of_ne_nil (by simp)
      have htail : item.tail = some tail := by
        rw [h.tail_eq, hps]
        rfl
      have htaille := h.nonempty tail (by rw [hps]; exact mem_cons_self)
      have hcons : item.history (front ++ [p]) = item.slot tail (item.chunks tail).firstValue ::
          (span (item.chunks tail).slots ((item.chunks tail).firstValue + 1)
            (item.chunks tail).lastValue ++ item.history back) := by
        rw [hps, history_cons, VcItem.values, span_first htaille]
        rfl
      rw [htail, bind_some]
      by_cases hearlier : timeKey value.timestamp <
          timeKey (item.slot tail (item.chunks tail).firstValue).timestamp
      · obtain ⟨item', ps', ok, hreject, hformed, hhistory⟩ := rejectValue_spec h value
        rw [if_pos hearlier]
        refine ⟨item', ps', ok, hreject, hformed, Or.inr ⟨fun r hr => ?_, hhistory⟩⟩
        have hsorted := h.sorted
        rw [hcons] at hsorted hr
        exact hearlier.trans_le (hsorted.head_le r hr)
      · rw [if_neg hearlier]
        obtain ⟨item', ps', hinsert, hformed, hinserted⟩ := insertValue_spec shm h hlater
          ⟨_, by rw [hcons]; exact mem_cons_self, not_lt.mp hearlier⟩
        exact ⟨item', ps', true, hinsert, hformed, Or.inl hinserted⟩
    · rw [if_neg hlater]
      obtain ⟨item', ps', happend, hformed, hinserted⟩ :=
        appendValue_spec shm h fun r hr => (hlast r hr).trans (not_lt.mp hlater)
      exact ⟨item', ps', true, happend, hformed, Or.inl hinserted⟩

end Zabbix.ValueCache
