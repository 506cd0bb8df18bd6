import Zabbix.ValueCache.History

/-!
# Reading from the value cache

`vch_item_get_values_by_time` and `vch_item_get_values_by_time_and_count`: the last value up to a
time is looked up, and values are taken from there towards the tail.
-/

namespace Zabbix.ValueCache

open List

open Zabbix.Preproc (Timespec zbxTimespecCompare)

def findLoop (chunk : VcChunk) (ts : Timespec) : ℕ → ℤ → ℤ → Option ℤ
  | 0, _, _ => none
  | fuel + 1, start, stop =>
    if start = stop then some (-1)
    else
      let middle := start + (stop - start).tdiv 2
      if 0 < zbxTimespecCompare (chunk.slots middle).timestamp ts then
        findLoop chunk ts fuel start middle
      else if zbxTimespecCompare (chunk.slots (middle + 1)).timestamp ts ≤ 0 then
        findLoop chunk ts fuel middle stop
      else some middle

def vchChunkFindLastValueBefore (chunk : VcChunk) (ts : Timespec) : Option ℤ :=
  let start := chunk.firstValue
  let stop := chunk.lastValue
  if zbxTimespecCompare (chunk.slots stop).timestamp ts ≤ 0 then some stop
  else if start = stop then some (-1)
  else findLoop chunk ts (stop - start + 1).toNat start stop

def chunkLoop (item : VcItem) (ts : Timespec) : ℕ → ℕ → Option (Option ℕ)
  | 0, _ => none
  | fuel + 1, p =>
    let chunk := item.chunks p
    if 0 < zbxTimespecCompare (chunk.slots chunk.firstValue).timestamp ts then
      match chunk.prev with
      | none => some none
      | some prev => chunkLoop item ts fuel prev
    else some (some p)

def vchItemGetLastValue (item : VcItem) (ts : Timespec) : Option (Option (ℕ × ℤ)) :=
  match item.head with
  | none => some none
  | some head =>
    let index := (item.chunks head).lastValue
    if 0 < zbxTimespecCompare (item.slot head index).timestamp ts then
      (chunkLoop item ts item.used.length head).bind fun
        | none => some none
        | some p =>
          (vchChunkFindLastValueBefore (item.chunks p) ts).map fun index => some (p, index)
    else some (some (head, index))

/-- `vc_cache_item_update` with `ZBX_VC_UPDATE_RANGE` -/
structure RangeUpdate where
  itemid : ℕ
  seconds : ℤ
  now : ℤ
  deriving DecidableEq

/-- The inner loop of `vch_item_get_values_by_time`; `enough` tells when to stop, and the result
whether it did. -/
def appendSlots (chunk : VcChunk) (start : Timespec) (enough : ℕ → Bool) :
    ℕ → ℤ → List HistoryRecord → List HistoryRecord × Bool
  | 0, _, values => (values, false)
  | fuel + 1, index, values =>
    if chunk.firstValue ≤ index ∧ 0 < zbxTimespecCompare (chunk.slots index).timestamp start then
      let values := values ++ [chunk.slots index]
      if enough values.length then (values, true)
      else appendSlots chunk start enough fuel (index - 1) values
    else (values, false)

def appendChunks (item : VcItem) (start : Timespec) (enough : ℕ → Bool) :
    ℕ → ℕ → ℤ → List HistoryRecord → Option (List HistoryRecord)
  | 0, _, _, _ => none
  | fuel + 1, p, index, values =>
    let chunk := item.chunks p
    if 0 < zbxTimespecCompare (chunk.slots chunk.lastValue).timestamp start then
      match appendSlots chunk start enough (index - chunk.firstValue + 1).toNat index values with
      | (values, true) => some values
      | (values, false) =>
        match chunk.prev with
        | none => some values
        | some prev => appendChunks item start enough fuel prev (item.chunks prev).lastValue values
    else some values

def vchItemGetValuesByTime (item : VcItem) (seconds now : ℤ) (ts : Timespec) :
    Option (List HistoryRecord × RangeUpdate) :=
  let start : Timespec := ⟨ts.sec - seconds, ts.ns⟩
  (vchItemGetLastValue item ts).bind fun found =>
    (match found with
      | none => some []
      | some (chunk, index) =>
        appendChunks item start (fun _ => false) item.used.length chunk index []).map fun values =>
      (values, ⟨item.itemid, seconds + now - ts.sec + 1, now⟩)

/-- `vch_item_get_values_by_time_and_count`, with the update of the range if there is one; undefined
where it looks at the last one of no values. -/
def vchItemGetValuesByTimeAndCount (item : VcItem) (seconds count now : ℤ) (ts : Timespec) :
    Option (List HistoryRecord × Option RangeUpdate) :=
  let start : Timespec := if seconds ≠ 0 then ⟨ts.sec - seconds, ts.ns⟩ else ⟨0, 0⟩
  (vchItemGetLastValue item ts).bind fun found =>
    (match found with
      | none => some []
      | some (chunk, index) =>
        appendChunks item start (fun n => n = count) item.used.length chunk index []).bind
      fun values =>
        if values.length < count then
          if seconds = 0 then some (values, none)
          else some (values, some ⟨item.itemid, now - (ts.sec - seconds), now⟩)
        else
          values.getLast?.map fun (oldest : HistoryRecord) =>
            (values, some ⟨item.itemid, now - (oldest.timestamp.sec - 1), now⟩)

variable {item : VcItem} {chunk : VcChunk} {ts start : Timespec} {ps front back : List ℕ} {p : ℕ}
  {index : ℤ}

theorem slots_le (h : SortedBy recordKey (span chunk.slots chunk.firstValue chunk.lastValue)) {i j : ℤ}
    (hi : chunk.firstValue ≤ i) (hij : i ≤ j) (hj : j ≤ chunk.lastValue) :
    recordKey (chunk.slots i) ≤ recordKey (chunk.slots j) := by
  obtain rfl | hlt := hij.eq_or_lt
  · exact le_rfl
  · rw [SortedBy, span_append (m := i) (by omega) (by omega), pairwise_append] at h
    exact h.2.2 _ (mem_span.mpr ⟨i, hi, le_rfl, rfl⟩) _ (mem_span.mpr ⟨j, by omega, hj, rfl⟩)

def LastUpTo (chunk : VcChunk) (ts : Timespec) (index : ℤ) : Prop :=
  index = -1 ∧ (∀ j, chunk.firstValue ≤ j → j ≤ chunk.lastValue →
      timeKey ts < recordKey (chunk.slots j)) ∨
    chunk.firstValue ≤ index ∧ index ≤ chunk.lastValue ∧ recordKey (chunk.slots index) ≤ timeKey ts ∧
      ∀ j, index < j → j ≤ chunk.lastValue → timeKey ts < recordKey (chunk.slots j)

theorem findLoop_spec (h : SortedBy recordKey (span chunk.slots chunk.firstValue chunk.lastValue)) :
    ∀ (fuel : ℕ) (first stop : ℤ), stop - first < fuel → chunk.firstValue ≤ first → first ≤ stop →
      stop ≤ chunk.lastValue → timeKey ts < recordKey (chunk.slots stop) →
      (first = chunk.firstValue ∨ recordKey (chunk.slots first) ≤ timeKey ts) →
      ∃ index, findLoop chunk ts fuel first stop = some index ∧ LastUpTo chunk ts index := by
  intro fuel
  induction fuel with
  | zero =>
    intro first stop hfuel _ hle _ _ _
    omega
  | succ fuel ih =>
    intro first stop hfuel hfirst hle hlast hlater hstart
    rw [findLoop]
    by_cases heq : first = stop
    · subst heq
      have hall : first = chunk.firstValue := hstart.resolve_right (not_le.mpr hlater)
      refine ⟨-1, if_pos rfl, Or.inl ⟨rfl, fun j hj hj' => ?_⟩⟩
      exact hlater.trans_le (slots_le h hfirst (hall ▸ hj) hj')
    · rw [if_neg heq, Int.tdiv_eq_ediv_of_nonneg (by omega)]
      obtain ⟨middle, hmiddle⟩ : ∃ middle, middle = first + (stop - first) / 2 := ⟨_, rfl⟩
      simp only [← hmiddle, compare_pos_iff, compare_le_iff]
      have hbounds : first ≤ middle ∧ middle < stop := by omega
      by_cases hmid : timeKey ts < timeKey (chunk.slots middle).timestamp
      · rw [if_pos hmid]
        exact ih first middle (by omega) hfirst hbounds.1 (by omega) hmid hstart
      · rw [if_neg hmid]
        by_cases hnext : timeKey (chunk.slots (middle + 1)).timestamp ≤ timeKey ts
        · rw [if_pos hnext]
          -- the middle is not the start, or the next value would be the one at `stop`
          have hmove : first < middle := by
            by_contra hnot
            have hstop : middle + 1 = stop := by omega
            rw [hstop] at hnext
            exact absurd hnext (not_le.mpr hlater)
          exact ih middle stop (by omega) (by omega) hbounds.2.le hlast hlater
            (Or.inr (not_lt.mp hmid))
        · rw [if_neg hnext]
          refine ⟨middle, rfl, Or.inr ⟨by omega, by omega, not_lt.mp hmid, fun j hj hj' => ?_⟩⟩
          exact (not_le.mp hnext).trans_le (slots_le h (by omega) (by omega) hj')

theorem findLastValueBefore_spec (hle : chunk.firstValue ≤ chunk.lastValue)
    (h : SortedBy recordKey (span chunk.slots chunk.firstValue chunk.lastValue)) (ts : Timespec) :
    ∃ index, vchChunkFindLastValueBefore chunk ts = some index ∧ LastUpTo chunk ts index := by
  rw [vchChunkFindLastValueBefore]
  simp only [compare_le_iff]
  by_cases hlast : timeKey (chunk.slots chunk.lastValue).timestamp ≤ timeKey ts
  · rw [if_pos hlast]
    refine ⟨_, rfl, Or.inr ⟨hle, le_rfl, hlast, fun j hj hj' => ?_⟩⟩
    omega
  · have hlater := not_le.mp hlast
    rw [if_neg hlast]
    by_cases hone : chunk.firstValue = chunk.lastValue
    · rw [if_pos hone]
      refine ⟨-1, rfl, Or.inl ⟨rfl, fun j hj hj' => ?_⟩⟩
      obtain rfl : j = chunk.lastValue := by omega
      exact hlater
    · rw [if_neg hone]
      apply findLoop_spec h
      · omega
      · exact le_rfl
      · exact hle
      · exact le_rfl
      · exact hlater
      · exact Or.inl rfl

def VcItem.upTo (item : VcItem) (ps : List ℕ) (ts : Timespec) : List HistoryRecord :=
  (item.history ps).filter fun record => recordKey record ≤ timeKey ts

namespace Ordered

variable (h : Ordered item (front ++ p :: back))

include h

theorem values_sorted : SortedBy recordKey (item.values p) := by
  have hsorted := h.sorted
  rw [history_append, history_cons, SortedBy, pairwise_append, pairwise_append] at hsorted
  exact hsorted.2.1.1

theorem chunk_nonempty : (item.chunks p).firstValue ≤ (item.chunks p).lastValue :=
  h.nonempty p (mem_append_right _ mem_cons_self)

theorem front_le {r r' : HistoryRecord} (hr : r ∈ item.history front) (hr' : r' ∈ item.values p)
    : recordKey r ≤ recordKey r' := by
  have hsorted := h.sorted
  rw [history_append, SortedBy, pairwise_append] at hsorted
  apply hsorted.2.2 r hr r'
  rw [history_cons]
  exact mem_append_left _ hr'

omit h

end Ordered

theorem mem_values {i : ℤ} (hi : (item.chunks p).firstValue ≤ i) (hi' : i ≤ (item.chunks p).lastValue) :
    (item.chunks p).slots i ∈ item.values p :=
  mem_span.mpr ⟨i, hi, hi', rfl⟩

theorem chunkLoop_spec : ∀ (fuel : ℕ) (front : List ℕ) (p : ℕ) (back : List ℕ),
    Ordered item (front ++ p :: back) → front.length < fuel →
      (∀ r ∈ item.history back, timeKey ts < recordKey r) →
      (chunkLoop item ts fuel p = some none ∧
        ∀ r ∈ item.history (front ++ p :: back), timeKey ts < recordKey r) ∨
      ∃ front' q back', front ++ p :: back = front' ++ q :: back' ∧
        chunkLoop item ts fuel p = some (some q) ∧
        recordKey ((item.chunks q).slots (item.chunks q).firstValue) ≤ timeKey ts ∧
        ∀ r ∈ item.history back', timeKey ts < recordKey r := by
  intro fuel
  induction fuel with
  | zero =>
    intro front p back _ hfuel _
    omega
  | succ fuel ih =>
    intro front p back h hfuel hback
    rw [chunkLoop]
    simp only [compare_pos_iff]
    by_cases hlater : timeKey ts <
        timeKey ((item.chunks p).slots (item.chunks p).firstValue).timestamp
    · rw [if_pos hlater, h.prev_eq]
      have hchunk : ∀ r ∈ item.history (p :: back), timeKey ts < recordKey r := by
        intro r hr
        rw [history_cons] at hr
        obtain hr | hr := mem_append.mp hr
        · obtain ⟨i, hi, hi', rfl⟩ := mem_span.mp hr
          exact lt_of_lt_of_le hlater (slots_le h.values_sorted le_rfl hi hi')
        · exact hback r hr
      obtain rfl | ⟨front, prev, rfl⟩ := eq_nil_or_concat' front
      · exact Or.inl ⟨rfl, hchunk⟩
      · rw [getLast?_concat, append_assoc, singleton_append]
        rw [append_assoc, singleton_append] at h
        apply ih front prev (p :: back) h
        · rw [length_append, length_singleton] at hfuel
          omega
        · exact hchunk
    · rw [if_neg hlater]
      exact Or.inr ⟨front, p, back, rfl, rfl, not_lt.mp hlater, hback⟩

theorem upTo_eq (h : Ordered item (front ++ p :: back)) (hfirst : (item.chunks p).firstValue ≤ index)
    (hlast : index ≤ (item.chunks p).lastValue)
    (hle : recordKey ((item.chunks p).slots index) ≤ timeKey ts)
    (hlater : ∀ j, index < j → j ≤ (item.chunks p).lastValue →
      timeKey ts < recordKey ((item.chunks p).slots j))
    (hback : ∀ r ∈ item.history back, timeKey ts < recordKey r) :
    item.upTo (front ++ p :: back) ts =
      item.history front ++ span (item.chunks p).slots (item.chunks p).firstValue index := by
  have hfront : ∀ r ∈ item.history front ++
      span (item.chunks p).slots (item.chunks p).firstValue index,
      decide (recordKey r ≤ timeKey ts) = true := by
    intro r hr
    rw [decide_eq_true_iff]
    obtain hr | hr := mem_append.mp hr
    · exact (h.front_le hr (mem_values hfirst hlast)).trans hle
    · obtain ⟨i, hi, hi', rfl⟩ := mem_span.mp hr
      exact (slots_le h.values_sorted hi hi' hlast).trans hle
  have hrest : ∀ r ∈ span (item.chunks p).slots (index + 1) (item.chunks p).lastValue ++
      item.history back, ¬decide (recordKey r ≤ timeKey ts) = true := by
    intro r hr
    rw [decide_eq_true_iff, not_le]
    obtain hr | hr := mem_append.mp hr
    · obtain ⟨i, hi, hi', rfl⟩ := mem_span.mp hr
      exact hlater i (by omega) hi'
    · exact hback r hr
  rw [VcItem.upTo, history_append, history_cons, VcItem.values,
    span_append (m := index) (by omega) hlast, append_assoc, ← append_assoc,
    filter_append, filter_eq_self.mpr hfront, filter_eq_nil_iff.mpr hrest,
    append_nil]

theorem getLastValue_spec (h : Ordered item ps) (ts : Timespec) :
    (vchItemGetLastValue item ts = some none ∧ item.upTo ps ts = []) ∨
      ∃ front p back index, ps = front ++ p :: back ∧
        vchItemGetLastValue item ts = some (some (p, index)) ∧
        (item.chunks p).firstValue ≤ index ∧ index ≤ (item.chunks p).lastValue ∧
        item.upTo ps ts =
          item.history front ++ span (item.chunks p).slots (item.chunks p).firstValue index := by
  have hhead := h.head_eq
  obtain rfl | ⟨front, p, rfl⟩ := eq_nil_or_concat' ps
  · left
    rw [vchItemGetLastValue, hhead]
    exact ⟨rfl, rfl⟩
  · rw [getLast?_concat] at hhead
    have hnone : ∀ r ∈ item.history [], timeKey ts < recordKey r := fun r hr => nomatch hr
    rw [vchItemGetLastValue, hhead]
    simp only [compare_pos_iff, VcItem.slot]
    by_cases hlater : timeKey ts < timeKey ((item.chunks p).slots (item.chunks p).lastValue).timestamp
    · rw [if_pos hlater]
      have hlength : front.length < item.used.length := by
        rw [h.used.length_eq, length_append, length_singleton]
        exact Nat.lt_succ_self _
      obtain ⟨hloop, hall⟩ | ⟨front', q, back', heq, hloop, hfirst, hback⟩ :=
        chunkLoop_spec item.used.length front p [] h hlength hnone
      · left
        rw [hloop]
        refine ⟨rfl, filter_eq_nil_iff.mpr fun r hr => ?_⟩
        rw [decide_eq_true_iff, not_le]
        exact hall r hr
      · right
        rw [heq] at h ⊢
        obtain ⟨index, hindex, ⟨-, hall⟩ | ⟨hfirst', hlast, hle, hlater'⟩⟩ :=
          findLastValueBefore_spec h.chunk_nonempty h.values_sorted ts
        · exact absurd hfirst (not_le.mpr (hall _ le_rfl h.chunk_nonempty))
        · refine ⟨front', q, back', index, rfl, ?_, hfirst', hlast,
            upTo_eq h hfirst' hlast hle hlater' hback⟩
          rw [hloop, Option.bind_some]
          exact congrArg (Option.map fun index => some (q, index)) hindex
    · rw [if_neg hlater]
      right
      refine ⟨front, p, [], _, rfl, rfl, h.chunk_nonempty, le_rfl, ?_⟩
      apply upTo_eq h h.chunk_nonempty le_rfl (not_lt.mp hlater)
      · intro j hj hj'
        omega
      · exact hnone

def takeUntil (enough : ℕ → Bool) : List HistoryRecord → List HistoryRecord → List HistoryRecord × Bool
  | values, [] => (values, false)
  | values, r :: rest =>
    if enough (values ++ [r]).length then (values ++ [r], true)
    else takeUntil enough (values ++ [r]) rest

variable {enough : ℕ → Bool} {values : List HistoryRecord}

theorem takeUntil_append {l l' : List HistoryRecord} :
    takeUntil enough values (l ++ l') =
      match takeUntil enough values l with
      | (values', true) => (values', true)
      | (values', false) => takeUntil enough values' l' := by
  induction l generalizing values with
  | nil => rfl
  | cons r l ih =>
    rw [cons_append, takeUntil, takeUntil]
    split_ifs
    · rfl
    · exact ih

def newest (start : Timespec) (older : List HistoryRecord) : List HistoryRecord :=
  (older.filter fun record => timeKey start < recordKey record).reverse

theorem newest_append (start : Timespec) (l l' : List HistoryRecord) :
    newest start (l ++ l') = newest start l' ++ newest start l := by
  rw [newest, filter_append, reverse_append]
  rfl

theorem newest_eq_nil {l : List HistoryRecord} (h : ∀ r ∈ l, recordKey r ≤ timeKey start) :
    newest start l = [] := by
  rw [newest, filter_eq_nil_iff.mpr, reverse_nil]
  intro r hr
  rw [decide_eq_true_iff, not_lt]
  exact h r hr

theorem appendSlots_spec (h : SortedBy recordKey (span chunk.slots chunk.firstValue chunk.lastValue)) :
    ∀ (fuel : ℕ) (index : ℤ) (values : List HistoryRecord), index ≤ chunk.lastValue →
      fuel = (index - chunk.firstValue + 1).toNat →
      appendSlots chunk start enough fuel index values =
        takeUntil enough values (newest start (span chunk.slots chunk.firstValue index)) := by
  intro fuel
  induction fuel with
  | zero =>
    intro index values _ hfuel
    rw [span_eq_nil (by omega)]
    rfl
  | succ fuel ih =>
    intro index values hlast hfuel
    have hindex : chunk.firstValue ≤ index := by omega
    rw [appendSlots]
    simp only [compare_pos_iff]
    by_cases hlater : timeKey start < timeKey (chunk.slots index).timestamp
    · have hone : newest start [chunk.slots index] = [chunk.slots index] := by
        rw [newest, filter_eq_self.mpr]
        · rfl
        · intro r hr
          obtain rfl := mem_singleton.mp hr
          exact decide_eq_true hlater
      rw [if_pos ⟨hindex, hlater⟩, span_last hindex, newest_append, hone, singleton_append,
        takeUntil]
      split_ifs
      · rfl
      · exact ih (index - 1) _ (by omega) (by omega)
    · rw [if_neg fun hboth => hlater hboth.2, newest_eq_nil]
      · rfl
      · intro r hr
        obtain ⟨i, hi, hi', rfl⟩ := mem_span.mp hr
        exact (slots_le h hi hi' hlast).trans (not_lt.mp hlater)

theorem appendChunks_spec : ∀ (fuel : ℕ) (front : List ℕ) (p : ℕ) (back : List ℕ) (index : ℤ)
    (values : List HistoryRecord), Ordered item (front ++ p :: back) → front.length < fuel →
      (item.chunks p).firstValue ≤ index → index ≤ (item.chunks p).lastValue →
      appendChunks item start enough fuel p index values =
        some (takeUntil enough values (newest start (item.history front ++
          span (item.chunks p).slots (item.chunks p).firstValue index))).1 := by
  intro fuel
  induction fuel with
  | zero =>
    intro front p back index values _ hfuel _ _
    omega
  | succ fuel ih =>
    intro front p back index values h hfuel hfirst hlast
    rw [appendChunks]
    simp only [compare_pos_iff]
    by_cases hlater : timeKey start < timeKey ((item.chunks p).slots (item.chunks p).lastValue).timestamp
    · rw [if_pos hlater, newest_append, takeUntil_append,
        appendSlots_spec h.values_sorted _ index values hlast rfl, h.prev_eq]
      obtain ⟨taken, done⟩ := takeUntil enough values
        (newest start (span (item.chunks p).slots (item.chunks p).firstValue index))
      cases done with
      | true => rfl
      | false =>
        obtain rfl | ⟨front, prev, rfl⟩ := eq_nil_or_concat' front
        · rfl
        · rw [append_assoc, singleton_append] at h
          rw [getLast?_concat, history_append, history_singleton]
          rw [length_append, length_singleton] at hfuel
          exact ih front prev (p :: back) _ taken h (by omega) h.chunk_nonempty le_rfl
    · rw [if_neg hlater, newest_eq_nil]
      · rfl
      · intro r hr
        have hle : recordKey r ≤ recordKey ((item.chunks p).slots (item.chunks p).lastValue) := by
          obtain hr | hr := mem_append.mp hr
          · exact h.front_le hr (mem_values h.chunk_nonempty le_rfl)
          · obtain ⟨i, hi, hi', rfl⟩ := mem_span.mp hr
            exact slots_le h.values_sorted hi (hi'.trans hlast) le_rfl
        exact hle.trans (not_lt.mp hlater)

theorem takeUntil_never (l : List HistoryRecord) :
    takeUntil (fun _ => false) values l = (values ++ l, false) := by
  induction l generalizing values with
  | nil => rw [takeUntil, append_nil]
  | cons r l ih =>
    rw [takeUntil, if_neg Bool.false_ne_true, ih, append_assoc]
    rfl

theorem takeUntil_count {count : ℕ} (l : List HistoryRecord) (h : values.length < count) :
    (takeUntil (fun n => (n : ℤ) = (count : ℤ)) values l).1 =
      values ++ l.take (count - values.length) := by
  induction l generalizing values with
  | nil => rw [takeUntil, take_nil, append_nil]
  | cons r l ih =>
    have hlength : (values ++ [r]).length = values.length + 1 := length_append
    have hrest : count - values.length = count - (values ++ [r]).length + 1 := by omega
    rw [takeUntil, hrest, take_succ_cons]
    split_ifs with henough
    · have henough : ((values ++ [r]).length : ℤ) = count := of_decide_eq_true henough
      rw [show count - (values ++ [r]).length = 0 by omega, take_zero]
    · have hmore : ¬((values ++ [r]).length : ℤ) = count := by simpa using henough
      rw [ih (by omega), append_assoc]
      rfl

def cachedRange (item : VcItem) (ps : List ℕ) (start ts : Timespec) : List HistoryRecord :=
  newest start (item.upTo ps ts)

theorem append_spec (h : Ordered item ps) (start ts : Timespec) (enough : ℕ → Bool) :
    ∃ found, vchItemGetLastValue item ts = some found ∧
      (match found with
        | none => some []
        | some (chunk, index) => appendChunks item start enough item.used.length chunk index []) =
        some (takeUntil enough [] (cachedRange item ps start ts)).1 := by
  obtain ⟨hlast, hnil⟩ | ⟨front, p, back, index, rfl, hlast, hfirst, hle, hupto⟩ :=
    getLastValue_spec h ts
  · refine ⟨none, hlast, ?_⟩
    rw [cachedRange, hnil]
    rfl
  · refine ⟨some (p, index), hlast, ?_⟩
    rw [cachedRange, hupto]
    apply appendChunks_spec _ front p back index [] h _ hfirst hle
    rw [h.used.length_eq, length_append, length_cons]
    omega

def countStart (seconds : ℤ) (ts : Timespec) : Timespec :=
  if seconds ≠ 0 then ⟨ts.sec - seconds, ts.ns⟩ else ⟨0, 0⟩

/-- The lookups give the cached values of the range, from the newest to the oldest, and the binary
search ends in every chunk with the last value up to the time. -/
theorem lookups_exact (h : Ordered item ps) (seconds now : ℤ) (ts : Timespec) :
    (∃ update, vchItemGetValuesByTime item seconds now ts =
      some (cachedRange item ps ⟨ts.sec - seconds, ts.ns⟩ ts, update)) ∧
    (∀ count : ℕ, 0 < count → ∃ update, vchItemGetValuesByTimeAndCount item seconds count now ts =
      some ((cachedRange item ps (countStart seconds ts) ts).take count, update)) ∧
    ∀ p ∈ ps, ∃ index, vchChunkFindLastValueBefore (item.chunks p) ts = some index ∧
      LastUpTo (item.chunks p) ts index := by
  refine ⟨?_, fun count hcount => ?_, fun p hp => ?_⟩
  · obtain ⟨found, hfound, hvalues⟩ := append_spec h ⟨ts.sec - seconds, ts.ns⟩ ts fun _ => false
    rw [takeUntil_never, nil_append] at hvalues
    refine ⟨⟨item.itemid, seconds + now - ts.sec + 1, now⟩, ?_⟩
    rw [vchItemGetValuesByTime, hfound, Option.bind_some]
    exact congrArg (Option.map _) hvalues
  · obtain ⟨found, hfound, hvalues⟩ :=
      append_spec h (countStart seconds ts) ts fun n => (n : ℤ) = (count : ℤ)
    have htake := @takeUntil_count [] count (cachedRange item ps (countStart seconds ts) ts) hcount
    rw [nil_append, length_nil, Nat.sub_zero] at htake
    rw [htake] at hvalues
    obtain ⟨taken, htaken⟩ : ∃ taken, taken =
        (cachedRange item ps (countStart seconds ts) ts).take count := ⟨_, rfl⟩
    rw [← htaken] at hvalues ⊢
    have hresult : ∃ update, (if (taken.length : ℤ) < (count : ℤ) then
        if seconds = 0 then some (taken, none)
        else some (taken, some (⟨item.itemid, now - (ts.sec - seconds), now⟩ : RangeUpdate))
      else
        taken.getLast?.map fun (oldest : HistoryRecord) =>
          (taken, some (⟨item.itemid, now - (oldest.timestamp.sec - 1), now⟩ : RangeUpdate))) =
        some (taken, update) := by
      split_ifs with hfew hall
      · exact ⟨_, rfl⟩
      · exact ⟨_, rfl⟩
      · -- as many values as were asked for, so that there is a last one
        obtain rfl | ⟨newer, oldest, rfl⟩ := eq_nil_or_concat' taken
        · rw [length_nil] at hfew
          omega
        · rw [getLast?_concat]
          exact ⟨_, rfl⟩
    obtain ⟨update, hupdate⟩ := hresult
    refine ⟨update, ?_⟩
    rw [vchItemGetValuesByTimeAndCount, hfound, Option.bind_some]
    exact (congrArg (fun values => Option.bind values _) hvalues).trans hupdate
  · obtain ⟨front, back, rfl⟩ := append_of_mem hp
    exact findLastValueBefore_spec h.chunk_nonempty h.values_sorted ts

def twoChunks : VcItem where
  itemid := 1
  valueType := .uint64
  status := 0
  valuesTotal := 4
  activeRange := 60
  dailyRange := 60
  dbCachedFrom := 10
  head := some 2
  tail := some 1
  used := [1, 2]
  chunks := fun p =>
    if p = 1 then ⟨none, some 2, 1, 2, 3, fun i => ⟨⟨10, (i - 1) * 5⟩, .ui64 7⟩⟩
    else ⟨some 1, none, 0, 1, 2, fun i => ⟨⟨10 + i, 5⟩, .ui64 8⟩⟩

theorem twoChunks_ordered : Ordered twoChunks [1, 2] := by
  constructor
  · constructor
    · exact ⟨⟨rfl, rfl⟩, ⟨rfl, rfl⟩, rfl, rfl⟩
    · decide
    · exact Perm.refl _
  · decide
  · rw [SortedBy]
    decide

theorem lookups_exact_twoChunks :
    ∃ update, vchItemGetValuesByTimeAndCount twoChunks 0 2 100 ⟨10, 5⟩ =
      some ([⟨⟨10, 5⟩, .ui64 8⟩, ⟨⟨10, 5⟩, .ui64 7⟩], update) := by
  have h := (lookups_exact twoChunks_ordered 0 100 ⟨10, 5⟩).2.1 2 (by decide)
  have hrange : (cachedRange twoChunks [1, 2] (countStart 0 ⟨10, 5⟩) ⟨10, 5⟩).take 2 =
      [⟨⟨10, 5⟩, .ui64 8⟩, ⟨⟨10, 5⟩, .ui64 7⟩] := by decide
  rw [hrange] at h
  exact h

end Zabbix.ValueCache
