import Zabbix.Foundation.Ring
import Zabbix.Trends.Cache

/-!
# Links of the trend function cache

The links of slots as functions on slots. The slot `noSlot` stands for the ends of the list of least
recently used entries, which is a ring like the lists of values.
-/

namespace Zabbix.Trends

open Function

variable {D : Type} {c c' : Tfc D} {i j root x : ℕ}

namespace Tfc

variable {prev next prev' next' : ℕ → ℕ}

def lruNext (c : Tfc D) (i : ℕ) : ℕ := if i = noSlot then c.lruHead else (c.slots i).next

def lruPrev (c : Tfc D) (i : ℕ) : ℕ := if i = noSlot then c.lruTail else (c.slots i).prev

def valueNext (c : Tfc D) (i : ℕ) : ℕ := (c.slots i).nextValue

def valuePrev (c : Tfc D) (i : ℕ) : ℕ := (c.slots i).prevValue

def data (c : Tfc D) (i : ℕ) : Key × TrendState × D :=
  ((c.slots i).key, (c.slots i).state, (c.slots i).value)

def key (c : Tfc D) (i : ℕ) : Key := (c.slots i).key

theorem key_eq (h : c'.data i = c.data i) : c'.key i = c.key i := congrArg Prod.fst h

structure SameData (c c' : Tfc D) : Prop where
  data : ∀ i, c'.data i = c.data i
  slotsNum : c'.slotsNum = c.slotsNum
  freeSlot : c'.freeSlot = c.freeSlot
  hashSlots : c'.hashSlots = c.hashSlots

theorem SameData.refl (c : Tfc D) : SameData c c := ⟨fun _ => rfl, rfl, rfl, rfl⟩

variable {c'' : Tfc D}

theorem SameData.trans (h : SameData c c') (h' : SameData c' c'') : SameData c c'' :=
  ⟨fun i => (h'.data i).trans (h.data i), h'.slotsNum.trans h.slotsNum,
    h'.freeSlot.trans h.freeSlot, h'.hashSlots.trans h.hashSlots⟩

theorem SameData.key (h : SameData c c') (i : ℕ) : c'.key i = c.key i := key_eq (h.data i)

structure SameIndex (c c' : Tfc D) : Prop extends SameData c c' where
  index : c'.index = c.index
  itemsNum : c'.itemsNum = c.itemsNum
  freeHead : c'.freeHead = c.freeHead

theorem SameIndex.trans (h : SameIndex c c') (h' : SameIndex c' c'') : SameIndex c c'' :=
  ⟨h.toSameData.trans h'.toSameData, h'.index.trans h.index, h'.itemsNum.trans h.itemsNum,
    h'.freeHead.trans h.freeHead⟩

theorem modify_slots (c : Tfc D) (i : ℕ) (f : TfcData D → TfcData D) (j : ℕ) :
    (c.modify i f).slots j = if j = i then f (c.slots i) else c.slots j :=
  update_apply c.slots i (f (c.slots i)) j

theorem setPrev_slots (c : Tfc D) (i v j : ℕ) :
    (c.setPrev i v).slots j = { c.slots j with prev := if j = i then v else (c.slots j).prev } := by
  rw [setPrev, modify_slots]
  by_cases h : j = i <;> simp [h]

theorem setNext_slots (c : Tfc D) (i v j : ℕ) :
    (c.setNext i v).slots j = { c.slots j with next := if j = i then v else (c.slots j).next } := by
  rw [setNext, modify_slots]
  by_cases h : j = i <;> simp [h]

theorem setPrevValue_slots (c : Tfc D) (i v j : ℕ) :
    (c.setPrevValue i v).slots j =
      { c.slots j with prevValue := if j = i then v else (c.slots j).prevValue } := by
  rw [setPrevValue, modify_slots]
  by_cases h : j = i <;> simp [h]

theorem setNextValue_slots (c : Tfc D) (i v j : ℕ) :
    (c.setNextValue i v).slots j =
      { c.slots j with nextValue := if j = i then v else (c.slots j).nextValue } := by
  rw [setNextValue, modify_slots]
  by_cases h : j = i <;> simp [h]

theorem setPrev_sameIndex (c : Tfc D) (i v : ℕ) : SameIndex c (c.setPrev i v) :=
  ⟨⟨fun j => by simp only [Tfc.data, setPrev_slots], rfl, rfl, rfl⟩, rfl, rfl, rfl⟩

theorem setNext_sameIndex (c : Tfc D) (i v : ℕ) : SameIndex c (c.setNext i v) :=
  ⟨⟨fun j => by simp only [Tfc.data, setNext_slots], rfl, rfl, rfl⟩, rfl, rfl, rfl⟩

theorem setPrevValue_sameIndex (c : Tfc D) (i v : ℕ) : SameIndex c (c.setPrevValue i v) :=
  ⟨⟨fun j => by simp only [Tfc.data, setPrevValue_slots], rfl, rfl, rfl⟩, rfl, rfl, rfl⟩

theorem setNextValue_sameIndex (c : Tfc D) (i v : ℕ) : SameIndex c (c.setNextValue i v) :=
  ⟨⟨fun j => by simp only [Tfc.data, setNextValue_slots], rfl, rfl, rfl⟩, rfl, rfl, rfl⟩

/-- A change of the list of least recently used entries: the lists of values stay. -/
structure LruLinks (c c' : Tfc D) (prev next : ℕ → ℕ) : Prop extends SameIndex c c' where
  lruPrev : c'.lruPrev = prev
  lruNext : c'.lruNext = next
  valuePrev : c'.valuePrev = c.valuePrev
  valueNext : c'.valueNext = c.valueNext

structure ValueLinks (c c' : Tfc D) (prev next : ℕ → ℕ) : Prop extends SameIndex c c' where
  lruPrev : c'.lruPrev = c.lruPrev
  lruNext : c'.lruNext = c.lruNext
  valuePrev : c'.valuePrev = prev
  valueNext : c'.valueNext = next

theorem linkNext_links (c : Tfc D) (i v : ℕ) :
    LruLinks c (c.linkNext i v) c.lruPrev (update c.lruNext i v) := by
  unfold linkNext
  split_ifs with h
  · refine ⟨setNext_sameIndex c i v, ?_, ?_, ?_, ?_⟩ <;> funext j
    · simp only [Tfc.lruPrev, setNext_slots]
      rfl
    · simp only [Tfc.lruNext, setNext_slots, update_apply]
      grind [setNext, modify]
    · simp only [Tfc.valuePrev, setNext_slots]
    · simp only [Tfc.valueNext, setNext_slots]
  · obtain rfl := not_not.mp h
    refine ⟨⟨⟨fun _ => rfl, rfl, rfl, rfl⟩, rfl, rfl, rfl⟩, rfl, ?_, rfl, rfl⟩
    funext j
    simp only [Tfc.lruNext, update_apply]
    grind

theorem linkPrev_links (c : Tfc D) (i v : ℕ) :
    LruLinks c (c.linkPrev i v) (update c.lruPrev i v) c.lruNext := by
  unfold linkPrev
  split_ifs with h
  · refine ⟨setPrev_sameIndex c i v, ?_, ?_, ?_, ?_⟩ <;> funext j
    · simp only [Tfc.lruPrev, setPrev_slots, update_apply]
      grind [setPrev, modify]
    · simp only [Tfc.lruNext, setPrev_slots]
      rfl
    · simp only [Tfc.valuePrev, setPrev_slots]
    · simp only [Tfc.valueNext, setPrev_slots]
  · obtain rfl := not_not.mp h
    refine ⟨⟨⟨fun _ => rfl, rfl, rfl, rfl⟩, rfl, rfl, rfl⟩, ?_, rfl, rfl, rfl⟩
    funext j
    simp only [Tfc.lruPrev, update_apply]
    grind

theorem setNext_eq (c : Tfc D) (hi : i ≠ noSlot) (v : ℕ) : c.setNext i v = c.linkNext i v :=
  (if_pos hi).symm

theorem setPrev_eq (c : Tfc D) (hi : i ≠ noSlot) (v : ℕ) : c.setPrev i v = c.linkPrev i v :=
  (if_pos hi).symm

theorem setPrevValue_links (c : Tfc D) (i v : ℕ) :
    ValueLinks c (c.setPrevValue i v) (update c.valuePrev i v) c.valueNext := by
  refine ⟨setPrevValue_sameIndex c i v, ?_, ?_, ?_, ?_⟩ <;> funext j
  · simp only [Tfc.lruPrev, setPrevValue_slots]
    rfl
  · simp only [Tfc.lruNext, setPrevValue_slots]
    rfl
  · simp only [Tfc.valuePrev, setPrevValue_slots, update_apply]
  · simp only [Tfc.valueNext, setPrevValue_slots]

theorem setNextValue_links (c : Tfc D) (i v : ℕ) :
    ValueLinks c (c.setNextValue i v) c.valuePrev (update c.valueNext i v) := by
  refine ⟨setNextValue_sameIndex c i v, ?_, ?_, ?_, ?_⟩ <;> funext j
  · simp only [Tfc.lruPrev, setNextValue_slots]
    rfl
  · simp only [Tfc.lruNext, setNextValue_slots]
    rfl
  · simp only [Tfc.valuePrev, setNextValue_slots]
  · simp only [Tfc.valueNext, setNextValue_slots, update_apply]

theorem LruLinks.trans (h : LruLinks c c' prev next) (h' : LruLinks c' c'' prev' next') :
    LruLinks c c'' prev' next' :=
  ⟨h.toSameIndex.trans h'.toSameIndex, h'.lruPrev, h'.lruNext, h'.valuePrev.trans h.valuePrev,
    h'.valueNext.trans h.valueNext⟩

theorem ValueLinks.trans (h : ValueLinks c c' prev next) (h' : ValueLinks c' c'' prev' next') :
    ValueLinks c c'' prev' next' :=
  ⟨h.toSameIndex.trans h'.toSameIndex, h'.lruPrev.trans h.lruPrev, h'.lruNext.trans h.lruNext,
    h'.valuePrev, h'.valueNext⟩

end Tfc

open Tfc

theorem lruNext_of_ne (hi : i ≠ noSlot) : c.lruNext i = (c.slots i).next := if_neg hi

theorem lruPrev_of_ne (hi : i ≠ noSlot) : c.lruPrev i = (c.slots i).prev := if_neg hi

theorem nextValue_eq (c : Tfc D) (i : ℕ) : (c.slots i).nextValue = c.valueNext i := rfl

theorem prevValue_eq (c : Tfc D) (i : ℕ) : (c.slots i).prevValue = c.valuePrev i := rfl

theorem tfcLruRemove_links (c : Tfc D) (hi : i ≠ noSlot) :
    LruLinks c (tfcLruRemove c i) (update c.lruPrev (c.lruNext i) (c.lruPrev i))
      (update c.lruNext (c.lruPrev i) (c.lruNext i)) := by
  unfold tfcLruRemove
  rw [← lruNext_of_ne hi, ← lruPrev_of_ne hi]
  have hnext := linkNext_links c (c.lruPrev i) (c.lruNext i)
  -- the link that was set is read again, with the value it already had
  have hread : (c.linkNext (c.lruPrev i) (c.lruNext i)).lruNext i = c.lruNext i := by
    rw [hnext.lruNext, update_apply]
    split_ifs <;> rfl
  have hprev := linkPrev_links (c.linkNext (c.lruPrev i) (c.lruNext i)) (c.lruNext i) (c.lruPrev i)
  have hall := hnext.trans hprev
  rw [hnext.lruPrev, hnext.lruNext] at hall
  simp only [← lruNext_of_ne hi, ← lruPrev_of_ne hi, hread, hnext.lruPrev]
  exact hall

theorem tfcLruAppend_links (c : Tfc D) (hi : i ≠ noSlot) :
    LruLinks c (tfcLruAppend c i)
      (update (update c.lruPrev i (c.lruPrev noSlot)) noSlot i)
      (update (update c.lruNext i noSlot) (c.lruPrev noSlot) i) := by
  have htail : c.lruPrev noSlot = c.lruTail := if_pos rfl
  unfold tfcLruAppend
  simp only [setPrev_eq _ hi, setNext_eq _ hi, ← lruPrev_of_ne hi]
  have hprev := linkPrev_links c i c.lruTail
  have hnext := hprev.trans (linkNext_links (c.linkPrev i c.lruTail) i noSlot)
  have hread : ((c.linkPrev i c.lruTail).linkNext i noSlot).lruPrev i = c.lruTail := by
    rw [hnext.lruPrev, hprev.lruPrev, update_self]
  rw [hread, htail]
  have hlink := hnext.trans (linkNext_links ((c.linkPrev i c.lruTail).linkNext i noSlot) c.lruTail i)
  have hend := hlink.trans (linkPrev_links _ noSlot i)
  rw [hlink.lruPrev, hlink.lruNext, hnext.lruPrev, hnext.lruNext, hprev.lruPrev, hprev.lruNext] at hend
  exact hend

theorem tfcValueRemove_links (c : Tfc D) (i : ℕ) :
    ValueLinks c (tfcValueRemove c i) (update c.valuePrev (c.valueNext i) (c.valuePrev i))
      (update c.valueNext (c.valuePrev i) (c.valueNext i)) := by
  have hnext := setNextValue_links c (c.valuePrev i) (c.valueNext i)
  have hread : (c.setNextValue (c.valuePrev i) (c.valueNext i)).valueNext i = c.valueNext i := by
    rw [hnext.valueNext, update_apply]
    split_ifs <;> rfl
  have hread' : (c.setNextValue (c.valuePrev i) (c.valueNext i)).valuePrev i = c.valuePrev i :=
    congrFun hnext.valuePrev i
  have hall := hnext.trans (setPrevValue_links _ (c.valueNext i) (c.valuePrev i))
  rw [hnext.valuePrev, hnext.valueNext] at hall
  unfold tfcValueRemove
  simp only [nextValue_eq, prevValue_eq, hread, hread']
  exact hall

theorem tfcValueAppend_links (c : Tfc D) (hne : i ≠ root) (hnot : c.valuePrev root ≠ i) :
    ValueLinks c (tfcValueAppend c root i)
      (update (update c.valuePrev i (c.valuePrev root)) root i)
      (update (update c.valueNext i root) (c.valuePrev root) i) := by
  have hnext := setNextValue_links c i root
  have hroot : (c.setNextValue i root).valuePrev root = c.valuePrev root :=
    congrFun hnext.valuePrev root
  have hprev := hnext.trans (setPrevValue_links _ i (c.valuePrev root))
  have hback := hprev.trans (setPrevValue_links _ root i)
  have hread : (((c.setNextValue i root).setPrevValue i (c.valuePrev root)).setPrevValue root
      i).valuePrev i = c.valuePrev root := by
    rw [hback.valuePrev, update_of_ne hne, hprev.valuePrev, update_self]
  have hall := hback.trans (setNextValue_links _ (c.valuePrev root) i)
  rw [hback.valuePrev, hback.valueNext, hprev.valuePrev, hprev.valueNext, hnext.valuePrev,
    hnext.valueNext] at hall
  unfold tfcValueAppend
  rw [prevValue_eq, if_neg hnot]
  simp only [prevValue_eq, hroot, hread]
  exact hall

structure Tfc.FreeLinks (c c' : Tfc D) (i : ℕ) : Prop extends SameData c c' where
  itemsNum : c'.itemsNum = c.itemsNum
  freeHead : c'.freeHead = i
  lruPrev : c'.lruPrev = update c.lruPrev i noSlot
  lruNext : c'.lruNext = update c.lruNext i c.freeHead
  valuePrev : c'.valuePrev = c.valuePrev
  valueNext : c'.valueNext = c.valueNext

theorem tfcFreeSlot_links (c : Tfc D) (hi : i ≠ noSlot) :
    FreeLinks c (tfcFreeSlot c i) i ∧ (tfcFreeSlot c i).index = c.index := by
  have hnext := linkNext_links c i c.freeHead
  have hprev := hnext.trans (linkPrev_links (c.linkNext i c.freeHead) i noSlot)
  rw [hnext.lruPrev, hnext.lruNext] at hprev
  unfold tfcFreeSlot
  rw [setNext_eq c hi, setPrev_eq _ hi]
  exact ⟨⟨⟨hprev.data, hprev.slotsNum, hprev.freeSlot, hprev.hashSlots⟩, hprev.itemsNum, rfl,
    hprev.lruPrev, hprev.lruNext, hprev.valuePrev, hprev.valueNext⟩, hprev.index⟩

theorem removeDirect_links (hi : i ≠ noSlot) (hmem : i ∈ c.index) :
    FreeLinks c (c.removeDirect i) i ∧ (c.removeDirect i).index = c.index.erase i := by
  obtain ⟨hfree, hindex⟩ := tfcFreeSlot_links { c with index := c.index.erase i } hi
  rw [removeDirect, if_pos hmem]
  exact ⟨⟨⟨hfree.data, hfree.slotsNum, hfree.freeSlot, hfree.hashSlots⟩, hfree.itemsNum,
    hfree.freeHead, hfree.lruPrev, hfree.lruNext, hfree.valuePrev, hfree.valueNext⟩, hindex⟩

end Zabbix.Trends
