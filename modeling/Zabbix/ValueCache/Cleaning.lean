import Zabbix.ValueCache.History

/-!
# Removing old values

`vch_item_remove_values` and `vch_item_clean_cache`, which take chunks and values away at the tail.
-/

namespace Zabbix.ValueCache

open Option Function List

open Zabbix.Preproc (Timespec)

def dropFirst (p : ℕ) (old : HistoryRecord → Prop) [DecidablePred old] : ℕ → VcItem → Option VcItem
  | 0, _ => none
  | fuel + 1, item =>
    let first := (item.chunks p).firstValue
    if old (item.slot p first) then
      (vcItemFreeValues item first first).bind fun item =>
        dropFirst p old fuel (item.setFirst p (first + 1))
    else some item

/-- The bound of `dropFirst` for a chunk. -/
def chunkFuel (chunk : VcChunk) : ℕ := (chunk.lastValue - chunk.firstValue + 1).toNat

def removeLoop (timestamp : ℤ) : ℕ → VcItem → Option ℕ → Option VcItem
  | _, item, none => some item
  | 0, _, some _ => none
  | fuel + 1, item, some p =>
    let chunk := item.chunks p
    if (chunk.slots chunk.firstValue).timestamp.sec < timestamp then
      if timestamp ≤ (chunk.slots chunk.lastValue).timestamp.sec then
        dropFirst p (fun record => record.timestamp.sec < timestamp) (chunkFuel chunk) item
      else (vchItemRemoveChunk item p).bind fun item => removeLoop timestamp fuel item chunk.next
    else some item

def zbxItemStatusCachedAll : ℕ := 1

def vchItemRemoveValues (item : VcItem) (timestamp : ℤ) : Option VcItem :=
  let item := if item.status = zbxItemStatusCachedAll then { item with status := 0 } else item
  removeLoop timestamp item.used.length item item.tail

def outOfRange (item : VcItem) (timestamp : ℤ) (p head : ℕ) : Prop :=
  (item.slot p (item.chunks p).lastValue).timestamp.sec < timestamp ∧
    (item.slot p (item.chunks p).lastValue).timestamp.sec ≠
      (item.slot head (item.chunks head).lastValue).timestamp.sec

instance (item : VcItem) (timestamp : ℤ) (p head : ℕ) : Decidable (outOfRange item timestamp p head) :=
  inferInstanceAs (Decidable (_ ∧ _))

def dropSecond (item : VcItem) (p next : ℕ) : Option VcItem :=
  let chunk := item.chunks next
  let sec := (item.slot p (item.chunks p).lastValue).timestamp.sec
  if (chunk.slots chunk.firstValue).timestamp.sec ≠ (chunk.slots chunk.lastValue).timestamp.sec then
    dropFirst next (fun record => record.timestamp.sec = sec) (chunkFuel chunk) item
  else some item

def cleanLoop (timestamp : ℤ) : ℕ → VcItem → Option ℕ → Option VcItem
  | _, item, none => some item
  | 0, _, some _ => none
  | fuel + 1, item, some p =>
    item.head.bind fun head =>
      if outOfRange item timestamp p head then
        match (item.chunks p).next with
        | none => some item
        | some next =>
          let sec := (item.slot p (item.chunks p).lastValue).timestamp.sec
          (dropSecond item p next).bind fun item =>
            (vchItemRemoveChunk { item with dbCachedFrom := sec + 1 } p).bind fun item =>
              cleanLoop timestamp fuel item (some next)
      else some item

def vchItemCleanCache (item : VcItem) (timestamp : ℤ) : Option VcItem :=
  if item.activeRange ≠ 0 then
    (cleanLoop (timestamp - item.activeRange) item.used.length item item.tail).map fun item' =>
      if item.tail ≠ item'.tail then { item' with status := 0 } else item'
  else some item

variable {item item' : VcItem} {ps front back : List ℕ} {p q : ℕ} {first : ℤ}

theorem history_length (item : VcItem) (p : ℕ) : (item.values p).length =
    ((item.chunks p).lastValue + 1 - (item.chunks p).firstValue).toNat := length_span _ _ _

theorem WellFormed.of_eq (h : WellFormed item ps) (hlinks : item'.next = item.next ∧ item'.prev = item.prev)
    (hused : item'.used = item.used) (hbody : item'.body = item.body)
    (htotal : item'.valuesTotal = item.valuesTotal) (htype : item'.valueType = item.valueType) :
    WellFormed item' ps := by
  have hchunk : ∀ p, (item'.chunks p).firstValue = (item.chunks p).firstValue ∧
      (item'.chunks p).lastValue = (item.chunks p).lastValue ∧
      (item'.chunks p).slotsNum = (item.chunks p).slotsNum := by
    intro p
    have hp := congrFun hbody p
    simp only [VcItem.body, Prod.mk.injEq] at hp
    exact ⟨hp.1, hp.2.1, hp.2.2.1⟩
  have hhistory : item'.history ps = item.history ps := history_congr fun p _ => congrFun hbody p
  constructor
  · constructor
    · exact h.toChained.of_eq hlinks.1 hlinks.2 hused
    · intro p hp
      rw [(hchunk p).1, (hchunk p).2.1]
      exact h.nonempty p hp
    · rw [hhistory]
      exact h.sorted
  · intro p hp
    rw [(hchunk p).1, (hchunk p).2.1, (hchunk p).2.2]
    exact h.slots p hp
  · rw [htotal, hhistory]
    exact h.total
  · rw [htype]
    exact h.type

namespace VcItem

def dropTo (item : VcItem) (p : ℕ) (first : ℤ) : VcItem :=
  { item.setFirst p first with
    valuesTotal := item.valuesTotal - (first - (item.chunks p).firstValue) }

theorem setFirst_self (item : VcItem) (p : ℕ) : item.setFirst p (item.chunks p).firstValue = item := by
  rw [setFirst, modify, update_eq_self]

theorem dropTo_self (item : VcItem) (p : ℕ) : item.dropTo p (item.chunks p).firstValue = item := by
  rw [dropTo, setFirst_self, Int.sub_self, Int.sub_zero]

theorem dropTo_chunk (item : VcItem) (p : ℕ) (first : ℤ) :
    (item.dropTo p first).chunks p = { item.chunks p with firstValue := first } :=
  modify_chunk item p fun chunk => { chunk with firstValue := first }

theorem dropTo_succ (item : VcItem) (p : ℕ) (first : ℤ) :
    ({ item.dropTo p first with
      valuesTotal := (item.dropTo p first).valuesTotal - (first - first + 1) } : VcItem).setFirst p
        (first + 1) = item.dropTo p (first + 1) := by
  simp only [dropTo, setFirst, modify, update_self, update_idem]
  congr 2
  omega

theorem dropTo_of_ne (h : q ≠ p) (first : ℤ) : (item.dropTo p first).chunks q = item.chunks q :=
  @modify_of_ne item p q h fun chunk => { chunk with firstValue := first }

theorem dropTo_links (item : VcItem) (p : ℕ) (first : ℤ) :
    (item.dropTo p first).next = item.next ∧ (item.dropTo p first).prev = item.prev :=
  @modify_links item p (fun chunk => { chunk with firstValue := first }) rfl rfl

theorem dropTo_body (h : q ≠ p) (first : ℤ) : (item.dropTo p first).body q = item.body q := by
  simp only [VcItem.body, dropTo_of_ne h]

end VcItem

theorem dropFirst_spec (item : VcItem) (p : ℕ) (old : HistoryRecord → Prop) [DecidablePred old]
    {stop : ℤ} (hstop : ¬old (item.slot p stop)) : ∀ (fuel : ℕ) (first : ℤ), Cacheable item.valueType →
      first ≤ stop → stop - first < fuel →
      ∃ first', first ≤ first' ∧ first' ≤ stop ∧ (∀ i, first ≤ i → i < first' → old (item.slot p i)) ∧
        ¬old (item.slot p first') ∧
        dropFirst p old fuel (item.dropTo p first) = some (item.dropTo p first') := by
  intro fuel
  induction fuel with
  | zero =>
    intro first _ hle hfuel
    omega
  | succ fuel ih =>
    intro first htype hle hfuel
    have hslot : (item.dropTo p first).slot p first = item.slot p first := by
      rw [VcItem.slot, VcItem.dropTo_chunk]
      rfl
    rw [dropFirst, VcItem.dropTo_chunk]
    simp only [hslot]
    by_cases hold : old (item.slot p first)
    · have hne : first ≠ stop := fun heq => hstop (heq ▸ hold)
      obtain ⟨first', hfirst, hlast, hall, hnot, hdrop⟩ := ih (first + 1) htype (by omega) (by omega)
      refine ⟨first', by omega, hlast, fun i hi hi' => ?_, hnot, ?_⟩
      · obtain rfl | hlt := hi.eq_or_lt
        · exact hold
        · exact hall i (by omega) hi'
      · have htype' : Cacheable (item.dropTo p first).valueType := htype
        rw [if_pos hold, Chained.freeValues_eq first first htype', bind_some, ← hdrop,
          VcItem.dropTo_succ]
    · exact ⟨first, le_refl _, hle, fun i hi hi' => absurd hi' (by omega), hold, if_neg hold⟩

theorem dropTo_values (item : VcItem) (p : ℕ) (hfirst : (item.chunks p).firstValue ≤ first)
    (hlast : first ≤ (item.chunks p).lastValue) :
    item.values p = span (item.chunks p).slots (item.chunks p).firstValue (first - 1) ++
      (item.dropTo p first).values p := by
  rw [VcItem.values, VcItem.values, VcItem.dropTo_chunk,
    span_append (m := first - 1) (by omega) (by omega), Int.sub_add_cancel]

theorem Chained.dropTo_history (h : Chained item (front ++ p :: back)) (first : ℤ) :
    (item.dropTo p first).history (front ++ p :: back) =
      item.history front ++ ((item.dropTo p first).values p ++ item.history back) := by
  obtain ⟨hfront, hback⟩ := h.not_mem
  have hothers : ∀ qs : List ℕ, p ∉ qs → (item.dropTo p first).history qs = item.history qs :=
    fun qs hqs => history_congr fun q hq => VcItem.dropTo_body (ne_of_mem_of_not_mem hq hqs) first
  rw [history_append, history_cons, hothers front hfront, hothers back hback]

theorem WellFormed.dropTo (h : WellFormed item (front ++ p :: back))
    (hfirst : (item.chunks p).firstValue ≤ first) (hlast : first ≤ (item.chunks p).lastValue) :
    WellFormed (item.dropTo p first) (front ++ p :: back) := by
  have hchunk := VcItem.dropTo_chunk item p first
  have hothers : ∀ q, q ≠ p → (item.dropTo p first).chunks q = item.chunks q :=
    fun q hq => VcItem.dropTo_of_ne hq first
  have hsame := h.dropTo_history first
  have hold : item.history (front ++ p :: back) = item.history front ++
      (span (item.chunks p).slots (item.chunks p).firstValue (first - 1) ++
        (item.dropTo p first).values p ++ item.history back) := by
    rw [history_append, history_cons, dropTo_values item p hfirst hlast]
  constructor
  · constructor
    · exact h.toChained.of_eq (VcItem.dropTo_links item p first).1 (VcItem.dropTo_links item p first).2 rfl
    · intro q hq
      by_cases hqp : q = p
      · subst hqp
        rw [hchunk]
        exact hlast
      · rw [hothers q hqp]
        exact h.nonempty q hq
    · have hsorted := h.sorted
      rw [hold] at hsorted
      rw [hsame]
      apply hsorted.sublist
      apply Sublist.append_left
      apply Sublist.append_right
      exact sublist_append_right _ _
  · intro q hq
    by_cases hqp : q = p
    · subst hqp
      rw [hchunk]
      have hslots := h.slots q hq
      exact ⟨by simp only; omega, hslots.2⟩
    · rw [hothers q hqp]
      exact h.slots q hq
  · have htotal := h.total
    have hlength := length_span (item.chunks p).slots (item.chunks p).firstValue (first - 1)
    rw [hold] at htotal
    have hdrop : (item.dropTo p first).valuesTotal =
      item.valuesTotal - (first - (item.chunks p).firstValue) := rfl
    rw [hsame, hdrop]
    simp only [length_append] at htotal ⊢
    omega
  · exact h.type

theorem WellFormed.removeTail (h : WellFormed item (p :: ps)) :
    ∃ item', vchItemRemoveChunk item p = some item' ∧ WellFormed item' ps ∧ item'.body = item.body := by
  obtain ⟨item', hremove, hchained, hbody, hfields⟩ :=
    @Chained.removeChunk item [] ps p h.toChained h.type
  refine ⟨item', hremove, ?_, hbody⟩
  have hhistory : item'.history ps = item.history ps := history_congr fun q _ => congrFun hbody q
  have hchunk : ∀ q, (item'.chunks q).firstValue = (item.chunks q).firstValue ∧
      (item'.chunks q).lastValue = (item.chunks q).lastValue ∧
      (item'.chunks q).slotsNum = (item.chunks q).slotsNum := by
    intro q
    have hq := congrFun hbody q
    simp only [VcItem.body, Prod.mk.injEq] at hq
    exact ⟨hq.1, hq.2.1, hq.2.2.1⟩
  constructor
  · constructor
    · exact hchained
    · intro q hq
      rw [(hchunk q).1, (hchunk q).2.1]
      exact h.nonempty q (mem_cons_of_mem p hq)
    · have hsorted := h.sorted
      rw [history_cons] at hsorted
      rw [hhistory]
      exact hsorted.sublist (sublist_append_right _ _)
  · intro q hq
    rw [(hchunk q).1, (hchunk q).2.1, (hchunk q).2.2]
    exact h.slots q (mem_cons_of_mem p hq)
  · have htotal := h.total
    have hle := h.nonempty p mem_cons_self
    have hlength := history_length item p
    rw [history_cons, length_append] at htotal
    rw [congrArg VcItemFields.valuesTotal hfields, hhistory]
    simp only
    omega
  · rw [congrArg VcItemFields.valueType hfields]
    exact h.type

theorem removeLoop_spec (timestamp : ℤ) : ∀ (fuel : ℕ) (item : VcItem) (ps : List ℕ),
    WellFormed item ps → ps.length ≤ fuel →
      ∃ item' ps', removeLoop timestamp fuel item item.tail = some item' ∧ WellFormed item' ps' ∧
        item'.history ps' = (item.history ps).filter fun r => timestamp ≤ r.timestamp.sec := by
  intro fuel
  induction fuel with
  | zero =>
    intro item ps h hfuel
    obtain rfl : ps = [] := length_eq_zero_iff.mp (Nat.le_zero.mp hfuel)
    exact ⟨item, [], by rw [h.tail_eq]; rfl, h, rfl⟩
  | succ fuel ih =>
    intro item ps h hfuel
    cases ps with
    | nil => exact ⟨item, [], by rw [h.tail_eq]; rfl, h, rfl⟩
    | cons p ps =>
      have hle := h.nonempty p mem_cons_self
      have hkey : ∀ i, (item.chunks p).firstValue ≤ i → i ≤ (item.chunks p).lastValue →
          ∀ r ∈ span (item.chunks p).slots i (item.chunks p).lastValue ++ item.history ps,
            (item.slot p i).timestamp.sec ≤ r.timestamp.sec := by
        intro i hi hi' r hr
        have hsorted := h.sorted
        rw [history_cons, VcItem.values, span_append (m := i - 1) (by omega) (by omega),
          append_assoc, Int.sub_add_cancel] at hsorted
        have hrest := hsorted.sublist (sublist_append_right _ _)
        rw [span_first hi'] at hrest hr
        exact sec_le_of_key (hrest.head_le r hr)
      have hnewer : ∀ l : List HistoryRecord, (∀ r ∈ l, timestamp ≤ r.timestamp.sec) →
          (l.filter fun r => timestamp ≤ r.timestamp.sec) = l :=
        fun l hl => filter_eq_self.mpr fun r hr => decide_eq_true (hl r hr)
      have holder : ∀ l : List HistoryRecord, (∀ r ∈ l, r.timestamp.sec < timestamp) →
          (l.filter fun r => timestamp ≤ r.timestamp.sec) = [] :=
        fun l hl => filter_eq_nil_iff.mpr fun r hr => by simpa using hl r hr
      rw [h.tail_eq, List.head?_cons, removeLoop]
      by_cases hold : ((item.chunks p).slots (item.chunks p).firstValue).timestamp.sec < timestamp
      · rw [if_pos hold]
        by_cases hsome : timestamp ≤ ((item.chunks p).slots (item.chunks p).lastValue).timestamp.sec
        · -- the first value that is kept is in this chunk
          obtain ⟨first, hfirst, hlast, hall, hnot, hdrop⟩ := dropFirst_spec item p
            (fun record => record.timestamp.sec < timestamp) (not_lt.mpr hsome)
            (chunkFuel (item.chunks p)) _ h.type hle (by rw [chunkFuel]; omega)
          have htail : WellFormed item ([] ++ p :: ps) := h
          have hhistory := htail.dropTo_history first
          rw [VcItem.dropTo_self] at hdrop
          rw [if_pos hsome]
          refine ⟨_, p :: ps, hdrop, htail.dropTo hfirst hlast, ?_⟩
          rw [nil_append] at hhistory
          rw [hhistory, history_cons, dropTo_values item p hfirst hlast, append_assoc,
            filter_append, holder, hnewer]
          · rfl
          · intro r hr
            rw [VcItem.values, VcItem.dropTo_chunk] at hr
            exact (not_lt.mp hnot).trans (hkey first hfirst hlast r hr)
          · intro r hr
            obtain ⟨i, hi, hi', rfl⟩ := mem_span.mp hr
            exact hall i hi (by omega)
        · rw [if_neg hsome]
          obtain ⟨item₁, hremove, hformed, hbody⟩ := h.removeTail
          obtain ⟨item', ps', hloop, hformed', hhistory⟩ := ih item₁ ps hformed (by simpa using hfuel)
          refine ⟨item', ps', ?_, hformed', ?_⟩
          · rw [hremove, bind_some, ← hloop, hformed.tail_eq]
            exact congrArg _ (h.tail_next)
          · rw [hhistory, history_congr fun q _ => congrFun hbody q, history_cons, filter_append,
              holder (item.values p), nil_append]
            intro r hr
            obtain ⟨i, hi, hi', rfl⟩ := mem_span.mp hr
            have hlast : (item.slot p i).timestamp.sec ≤
              (item.slot p (item.chunks p).lastValue).timestamp.sec :=
                hkey i hi hi' _ (mem_append_left _ (mem_span.mpr ⟨_, hi', le_refl _, rfl⟩))
            exact lt_of_le_of_lt hlast (not_le.mp hsome)
      · rw [if_neg hold]
        refine ⟨item, p :: ps, rfl, h, (hnewer _ fun r hr => ?_).symm⟩
        rw [history_cons] at hr
        exact (not_lt.mp hold).trans (hkey _ (le_refl _) hle r hr)

theorem dropSecond_spec (h : WellFormed item (p :: q :: ps)) :
    ∃ first, dropSecond item p q = some (item.dropTo q first) ∧
      (item.chunks q).firstValue ≤ first ∧ first ≤ (item.chunks q).lastValue := by
  have hp := h.nonempty p mem_cons_self
  have hq := h.nonempty q (mem_cons_of_mem p mem_cons_self)
  have hkey : (item.slot p (item.chunks p).lastValue).timestamp.sec ≤
      (item.slot q (item.chunks q).firstValue).timestamp.sec := by
    have hsorted := h.sorted
    rw [history_cons, history_cons, VcItem.values, VcItem.values, span_last hp, span_first hq,
      append_assoc, singleton_append] at hsorted
    have hrest := hsorted.sublist (sublist_append_right _ _)
    exact sec_le_of_key (hrest.head_le _ (mem_cons_of_mem _ mem_cons_self))
  have hstay : dropSecond item p q = some item → ∃ first,
      dropSecond item p q = some (item.dropTo q first) ∧
      (item.chunks q).firstValue ≤ first ∧ first ≤ (item.chunks q).lastValue := by
    intro hsame
    refine ⟨_, ?_, le_refl _, hq⟩
    rw [VcItem.dropTo_self, hsame]
  by_cases hone : (item.slot q (item.chunks q).firstValue).timestamp.sec =
      (item.slot q (item.chunks q).lastValue).timestamp.sec
  · exact hstay (if_neg (not_not.mpr hone))
  · have hlater : (item.slot q (item.chunks q).firstValue).timestamp.sec ≤
        (item.slot q (item.chunks q).lastValue).timestamp.sec := by
      have hsorted := h.sorted
      rw [history_cons, history_cons, ← append_assoc] at hsorted
      have hrest := (hsorted.sublist (sublist_append_left _ _)).sublist
        (sublist_append_right _ _)
      rw [VcItem.values, span_first hq] at hrest
      refine sec_le_of_key (hrest.head_le _ ?_)
      rw [← span_first hq]
      exact mem_span.mpr ⟨_, hq, le_refl _, rfl⟩
    have hstop : ¬(item.slot q (item.chunks q).lastValue).timestamp.sec =
        (item.slot p (item.chunks p).lastValue).timestamp.sec := by
      omega
    obtain ⟨first, hfirst, hlast, -, -, hdrop⟩ := dropFirst_spec item q
      (fun record =>
        record.timestamp.sec = (item.slot p (item.chunks p).lastValue).timestamp.sec) hstop
      (chunkFuel (item.chunks q)) _ h.type hq (by rw [chunkFuel]; omega)
    rw [VcItem.dropTo_self] at hdrop
    exact ⟨first, (if_pos hone).trans hdrop, hfirst, hlast⟩

theorem cleanLoop_spec (timestamp : ℤ) : ∀ (fuel : ℕ) (item : VcItem) (ps : List ℕ),
    WellFormed item ps → ps.length ≤ fuel →
      ∃ item' ps', cleanLoop timestamp fuel item item.tail = some item' ∧ WellFormed item' ps' ∧
        item'.history ps' <:+ item.history ps := by
  intro fuel
  induction fuel with
  | zero =>
    intro item ps h hfuel
    obtain rfl : ps = [] := length_eq_zero_iff.mp (Nat.le_zero.mp hfuel)
    exact ⟨item, [], by rw [h.tail_eq]; rfl, h, suffix_rfl⟩
  | succ fuel ih =>
    intro item ps h hfuel
    cases ps with
    | nil => exact ⟨item, [], by rw [h.tail_eq]; rfl, h, suffix_rfl⟩
    | cons p ps =>
      obtain ⟨head, hhead⟩ : ∃ head, item.head = some head := by
        rw [h.head_eq, getLast?_cons]
        exact ⟨_, rfl⟩
      rw [h.tail_eq, List.head?_cons, cleanLoop, hhead, bind_some]
      split_ifs with hout
      · have hnext : (item.chunks p).next = ps.head? := h.tail_next
        cases ps with
        | nil =>
          rw [hnext]
          exact ⟨item, [p], rfl, h, suffix_rfl⟩
        | cons q ps =>
          obtain ⟨first, hdrop, hfirst, hlast⟩ := dropSecond_spec h
          have hsecond : WellFormed item ([p] ++ q :: ps) := h
          have hdropped := hsecond.dropTo hfirst hlast
          have hmoved : WellFormed { item.dropTo q first with
              dbCachedFrom := (item.slot p (item.chunks p).lastValue).timestamp.sec + 1 }
                (p :: q :: ps) := hdropped.of_eq ⟨rfl, rfl⟩ rfl rfl rfl rfl
          obtain ⟨item₁, hremove, hformed, hbody⟩ := hmoved.removeTail
          obtain ⟨item', ps', hloop, hformed', hsuffix⟩ := ih item₁ (q :: ps) hformed (by simpa using hfuel)
          refine ⟨item', ps', ?_, hformed', hsuffix.trans ?_⟩
          · rw [hnext]
            simp only [List.head?_cons, hdrop, bind_some, hremove]
            rw [← hloop, hformed.tail_eq]
            rfl
          · have hq := hsecond.not_mem.2
            have hsame : item₁.history ps = item.history ps := history_congr fun r hr =>
              (congrFun hbody r).trans (VcItem.dropTo_body (ne_of_mem_of_not_mem hr hq) first)
            have hvalues : item₁.values q = (item.dropTo q first).values q :=
              values_congr (congrFun hbody q)
            rw [history_cons, history_cons, history_cons, hsame, hvalues,
              dropTo_values item q hfirst hlast, append_assoc, ← append_assoc]
            exact suffix_append _ _
      · exact ⟨item, p :: ps, rfl, h, suffix_rfl⟩

theorem removeValues_spec (h : WellFormed item ps) (timestamp : ℤ) :
    ∃ item' ps', vchItemRemoveValues item timestamp = some item' ∧ WellFormed item' ps' ∧
      item'.history ps' = (item.history ps).filter fun r => timestamp ≤ r.timestamp.sec := by
  obtain ⟨item₁, hitem₁⟩ : ∃ item₁, item₁ =
      if item.status = zbxItemStatusCachedAll then { item with status := 0 } else item := ⟨_, rfl⟩
  have hformed : WellFormed item₁ ps ∧ item₁.history ps = item.history ps := by
    rw [hitem₁]
    split_ifs
    · exact ⟨h.of_eq ⟨rfl, rfl⟩ rfl rfl rfl rfl, rfl⟩
    · exact ⟨h, rfl⟩
  rw [vchItemRemoveValues, ← hitem₁, ← hformed.2]
  exact removeLoop_spec timestamp _ item₁ ps hformed.1 hformed.1.used.length_eq.ge

theorem cleanCache_spec (h : WellFormed item ps) (timestamp : ℤ) :
    ∃ item' ps', vchItemCleanCache item timestamp = some item' ∧ WellFormed item' ps' ∧
      item'.history ps' <:+ item.history ps := by
  rw [vchItemCleanCache]
  split_ifs with hrange
  · obtain ⟨item', ps', hloop, hformed, hsuffix⟩ :=
      cleanLoop_spec (timestamp - item.activeRange) _ item ps h h.used.length_eq.ge
    rw [hloop, map_some]
    refine ⟨_, ps', rfl, ?_⟩
    split_ifs
    · exact ⟨hformed.of_eq ⟨rfl, rfl⟩ rfl rfl rfl rfl, hsuffix⟩
    · exact ⟨hformed, hsuffix⟩
  · exact ⟨item, ps, rfl, h, suffix_rfl⟩

end Zabbix.ValueCache
