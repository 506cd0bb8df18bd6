import Zabbix.Trends.Freeing

/-!
# Adding entries to the trend function cache
-/

namespace Zabbix.Trends

open List Function Tfc

variable {D : Type} {c c' : Tfc D} {lru free free' : List ℕ} {vals : ℕ → List ℕ} {i j r : ℕ}
variable {dataLocal : TfcData D}

theorem Slots.length_lt (h : Slots c free) (hroom : ¬ c.Full) : c.index.length < c.slotsNum := by
  have hlength := h.length_index
  have hle := h.freeSlot
  have hne := mt h.full_iff.mpr hroom
  omega

structure Allocated (c c' : Tfc D) (i : ℕ) (free' : List ℕ) : Prop where
  slots : ∀ j, j ≠ i → c'.slots j = c.slots j
  index : c'.index = c.index
  slotsNum : c'.slotsNum = c.slotsNum
  hashSlots : c'.hashSlots = c.hashSlots
  itemsNum : c'.itemsNum = c.itemsNum
  lruHead : c'.lruHead = c.lruHead
  lruTail : c'.lruTail = c.lruTail
  freeSlot : c'.freeSlot ≤ c'.slotsNum
  nodup : (i :: (free' ++ c.index)).Nodup
  below : ∀ j, j ∈ i :: (free' ++ c.index) ↔ j < c'.freeSlot
  chain : FreeChain c'.lruNext c'.freeHead free'

theorem tfcAllocSlot_allocated (h : Slots c free) (hroom : ¬ c.Full) :
    ∃ i c' free', tfcAllocSlot c = some (i, c') ∧ Allocated c c' i free' := by
  unfold tfcAllocSlot
  by_cases hslot : c.freeSlot = c.slotsNum
  · -- all slots have been handed out, so that one is in the free list
    cases free with
    | nil => exact absurd ⟨h.freeHead_eq.mpr rfl, hslot.symm⟩ hroom
    | cons i free =>
      obtain ⟨hhead, hchain⟩ := h.chain
      have hne : i ≠ noSlot := h.ne_noSlot mem_cons_self
      simp only [if_neg (not_not.mpr hslot), hhead, if_neg hne]
      refine ⟨i, _, free, rfl, fun _ _ => rfl, rfl, rfl, rfl, rfl, rfl, rfl, h.freeSlot, h.nodup,
        h.below, ?_⟩
      rw [← lruNext_of_ne hne]
      exact hchain
  · have hlt : c.freeSlot < c.slotsNum := lt_of_le_of_ne h.freeSlot hslot
    have hne : c.freeSlot ≠ noSlot := (hlt.trans_le h.slotsNum.2).ne
    have hfresh : c.freeSlot ∉ free ++ c.index := fun hmem => (lt_irrefl _) ((h.below _).mp hmem)
    obtain ⟨hfree, hindex⟩ := tfcFreeSlot_links { c with freeSlot := c.freeSlot + 1 } hne
    have hslots : ∀ j, j ≠ c.freeSlot →
        (tfcFreeSlot { c with freeSlot := c.freeSlot + 1 } c.freeSlot).slots j = c.slots j := by
      intro j hj
      simp only [tfcFreeSlot, setPrev_slots, setNext_slots, if_neg hj]
    simp only [if_pos hslot]
    set c₁ := tfcFreeSlot { c with freeSlot := c.freeSlot + 1 } c.freeSlot
    have hnext : (c₁.slots c.freeSlot).next = c.freeHead := by
      rw [← lruNext_of_ne hne, hfree.lruNext, update_self]
    rw [hfree.freeHead, if_neg hne, hnext]
    refine ⟨c.freeSlot, _, free, rfl, hslots, hindex, hfree.slotsNum, hfree.hashSlots,
      hfree.itemsNum, rfl, rfl, ?_, nodup_cons.mpr ⟨hfresh, h.nodup⟩, fun j => ?_, ?_⟩
    · change c₁.freeSlot ≤ c₁.slotsNum
      rw [hfree.freeSlot, hfree.slotsNum]
      exact hlt
    · change _ ↔ j < c₁.freeSlot
      rw [mem_cons, h.below, hfree.freeSlot]
      exact (Nat.lt_succ_iff_lt_or_eq.trans Or.comm).symm
    · refine h.chain.frame fun x hx => ?_
      change c₁.lruNext x = _
      rw [hfree.lruNext]
      refine update_of_ne ?_ _ _
      rintro rfl
      exact hfresh (mem_append_left _ hx)

structure Inserted (c c' : Tfc D) (i : ℕ) (dataLocal : TfcData D) (free' : List ℕ) : Prop
    extends Slots c' free' where
  fresh : i ∉ c.index
  index : c'.index = i :: c.index
  slots : ∀ j, c'.slots j = if j = i then dataLocal else c.slots j
  itemsNum : c'.itemsNum = c.itemsNum
  lruHead : c'.lruHead = c.lruHead
  lruTail : c'.lruTail = c.lruTail

theorem insert_inserted (h : Slots c free) (hroom : ¬ c.Full)
    (hnone : c.search dataLocal.key = none) :
    ∃ i c' free', c.insert dataLocal = some (some i, c') ∧ Inserted c c' i dataLocal free' := by
  obtain ⟨i, c₁, free', halloc, hc₁⟩ := tfcAllocSlot_allocated h hroom
  have hlength := h.length_lt hroom
  have hcapacity := h.hashSlots
  obtain ⟨hfresh, hnodup⟩ := nodup_cons.mp hc₁.nodup
  unfold Tfc.insert
  rw [hnone]
  dsimp only
  rw [if_neg (by omega), halloc, Option.map_some]
  have hperm : (i :: (free' ++ c.index)).Perm (free' ++ i :: c.index) := perm_middle.symm
  refine ⟨i, _, free', rfl, ⟨?_, hc₁.freeSlot, ?_, ?_, fun j => ?_, ?_⟩, ?_, ?_, fun j => ?_, hc₁.itemsNum,
    hc₁.lruHead, hc₁.lruTail⟩
  · exact hc₁.slotsNum.symm ▸ h.slotsNum
  · change c₁.slotsNum + 2 ≤ c₁.hashSlots * 4 / 5
    rw [hc₁.slotsNum, hc₁.hashSlots]
    exact hcapacity
  · change (free' ++ i :: c₁.index).Nodup
    rw [hc₁.index]
    exact hperm.nodup_iff.mp hc₁.nodup
  · change j ∈ free' ++ i :: c₁.index ↔ j < c₁.freeSlot
    rw [hc₁.index, ← hperm.mem_iff]
    exact hc₁.below j
  · refine hc₁.chain.frame fun x hx => ?_
    have hxi : x ≠ i := by
      rintro rfl
      exact hfresh (mem_append_left _ hx)
    simp only [Tfc.lruNext, modify_slots, if_neg hxi]
    rfl
  · exact fun hmem => hfresh (mem_append_right _ hmem)
  · change i :: c₁.index = i :: c.index
    rw [hc₁.index]
  · change (c₁.modify i fun _ => dataLocal).slots j = _
    rw [modify_slots]
    split_ifs with hj
    · rfl
    · exact hc₁.slots j hj

namespace Inserted

variable (h : Inserted c c' i dataLocal free')

include h

theorem self_ne_noSlot : i ≠ noSlot := by
  refine h.toSlots.ne_noSlot (mem_append_right _ ?_)
  rw [h.index]
  exact mem_cons_self

theorem key_self : c'.key i = dataLocal.key := by rw [Tfc.key, h.slots, if_pos rfl]

theorem data_of_ne (hj : j ≠ i) : c'.data j = c.data j := by
  rw [Tfc.data, h.slots, if_neg hj]
  rfl

theorem not_lru (hwf : Wf c lru free vals) : i ∉ noSlot :: lru :=
  not_mem_cons_of_ne_of_not_mem h.self_ne_noSlot fun hmem => h.fresh (hwf.index_of_lru hmem)

theorem not_values (hwf : Wf c lru free vals) (hr : c.Root r) :
    i ∉ r :: vals r := fun hmem => h.fresh (hwf.item_of_mem hr hmem).1

theorem ring (hwf : Wf c lru free vals) : Ring c'.lruPrev c'.lruNext noSlot lru := by
  refine hwf.ring.frame (fun x hx => ?_) fun x hx => ?_
  all_goals
    have hxi : x ≠ i := by
      rintro rfl
      exact h.not_lru hwf hx
  · rw [lruNext, lruNext, h.slots, if_neg hxi, h.lruHead]
  · rw [lruPrev, lruPrev, h.slots, if_neg hxi, h.lruTail]

theorem values (hwf : Wf c lru free vals) (hr : c.Root r) :
    Ring c'.valuePrev c'.valueNext r (vals r) := by
  refine (hwf.values r hr).frame (fun x hx => ?_) fun x hx => ?_
  all_goals
    have hxi : x ≠ i := by
      rintro rfl
      exact h.not_values hwf hr hx
  · rw [valueNext, valueNext, h.slots, if_neg hxi]
  · rw [valuePrev, valuePrev, h.slots, if_neg hxi]

omit h

end Inserted

structure Added (c c' : Tfc D) (i : ℕ) (k : Key) : Prop where
  fresh : i ∉ c.index
  index : c'.index = i :: c.index
  data : ∀ j, j ≠ i → c'.data j = c.data j
  key : c'.key i = k
  absent : c.search k = none

namespace Added

variable {k : Key}

variable (h : Added c c' i k)

include h

theorem ne_of_index (hj : j ∈ c.index) : j ≠ i := by
  rintro rfl
  exact h.fresh hj

theorem key_of_index (hj : j ∈ c.index) : c'.key j = c.key j := key_eq (h.data j (h.ne_of_index hj))

theorem itemid_of_index (hj : j ∈ c.index) : c'.itemid j = c.itemid j :=
  congrArg Key.itemid (h.key_of_index hj)

theorem mem : j ∈ c'.index ↔ j = i ∨ j ∈ c.index := by rw [h.index, mem_cons]

theorem keys (hwf : Wf c lru free vals) :
    ∀ j ∈ c'.index, ∀ j' ∈ c'.index, c'.key j = c'.key j' → j = j' := by
  intro j hj j' hj' heq
  obtain rfl | hj := h.mem.mp hj
  · obtain rfl | hj' := h.mem.mp hj'
    · rfl
    · rw [h.key, h.key_of_index hj'] at heq
      exact absurd heq.symm (hwf.search_none.mp h.absent j' hj')
  · obtain rfl | hj' := h.mem.mp hj'
    · rw [h.key, h.key_of_index hj] at heq
      exact absurd heq (hwf.search_none.mp h.absent j hj)
    · rw [h.key_of_index hj, h.key_of_index hj'] at heq
      exact hwf.keys j hj j' hj' heq

theorem state_of_index (hj : j ∈ c.index) : (c'.slots j).state = (c.slots j).state :=
  congrArg (fun d => d.2.1) (h.data j (h.ne_of_index hj))

theorem root_iff (hj : j ∈ c.index) : c'.Root j ↔ c.Root j := by
  unfold Tfc.Root
  rw [h.key_of_index hj, h.mem]
  exact and_congr_left fun _ => iff_of_true (.inr hj) hj

theorem root_self : c'.Root i ↔ k.function = .unknown := by
  unfold Tfc.Root
  rw [h.key, h.mem]
  exact and_iff_right (.inl rfl)

theorem countP :
    (c'.index.countP fun j => (c'.key j).function = .unknown) =
      (c.index.countP fun j => (c.key j).function = .unknown) +
        if k.function = .unknown then 1 else 0 := by
  rw [h.index, countP_cons, h.key]
  congr 1
  · exact countP_congr fun j hj => by rw [h.key_of_index hj]
  · simp

omit h

end Added

theorem Wf.addRoot {item : ℕ} (h : Wf c lru free vals) (hadded : Added c c' i (rootKey item))
    (hslots : Slots c' free') (hring : Ring c'.lruPrev c'.lruNext noSlot lru)
    (hself : Ring c'.valuePrev c'.valueNext i [])
    (hvalues : ∀ q, c.Root q → Ring c'.valuePrev c'.valueNext q (vals q))
    (hitems : c'.itemsNum = c.itemsNum + 1) : Wf c' lru free' (update vals i []) := by
  have hroot : ∀ q, c'.Root q → q = i ∨ c.Root q := fun q hq => by
    obtain rfl | hmem := hadded.mem.mp hq.1
    · exact .inl rfl
    · exact .inr ((hadded.root_iff hmem).mp hq)
  have hitem : c'.itemid i = item := congrArg Key.itemid hadded.key
  have hne : ∀ q, c.Root q → q ≠ i := fun q hq => hadded.ne_of_index hq.1
  refine ⟨hslots, hring, h.lruNodup, fun j => ?_, hadded.keys h, fun q hq => ?_, fun q hq => ?_,
    fun q hq => ?_, fun q hq j => ?_, fun j hj => ?_, ?_, fun j hj => ?_⟩
  · rw [h.mem_lru, hadded.mem]
    constructor
    · exact fun hj => ⟨.inr hj.1, mt (hadded.root_iff hj.1).mp hj.2⟩
    · intro hj
      obtain ⟨rfl | hmem, hj⟩ := hj
      · exact absurd (hadded.root_self.mpr rfl) hj
      · exact ⟨hmem, mt (hadded.root_iff hmem).mpr hj⟩
  · obtain rfl | hq := hroot q hq
    · rw [hitem]
      exact hadded.key
    · rw [hadded.key_of_index hq.1, hadded.itemid_of_index hq.1]
      exact h.roots q hq
  · obtain rfl | hq := hroot q hq
    · rw [update_self]
      exact hself
    · rw [update_of_ne (hne q hq)]
      exact hvalues q hq
  · obtain rfl | hq := hroot q hq
    · rw [update_self]
      exact nodup_nil
    · rw [update_of_ne (hne q hq)]
      exact h.valuesNodup q hq
  · obtain rfl | hq := hroot q hq
    · -- there were no values of the item, as they would have had a root
      rw [update_self]
      refine iff_of_false not_mem_nil fun hj => ?_
      obtain ⟨q', hq', hqj⟩ := h.rooted j hj.1
      rw [hadded.itemid_of_index (h.index_of_lru hj.1), ← hqj, hitem] at hj
      exact h.search_none.mp hadded.absent q' hq'.1 (by rw [h.roots q' hq', hj.2])
    · rw [update_of_ne (hne q hq), h.mem_vals q hq, hadded.itemid_of_index hq.1]
      exact and_congr_right fun hj => by rw [hadded.itemid_of_index (h.index_of_lru hj)]
  · obtain ⟨q, hq, hqj⟩ := h.rooted j hj
    refine ⟨q, (hadded.root_iff hq.1).mpr hq, ?_⟩
    rw [hadded.itemid_of_index hq.1, hadded.itemid_of_index (h.index_of_lru hj), hqj]
  · rw [hitems, h.items, hadded.countP]
    rfl
  · rw [hadded.state_of_index (h.index_of_lru hj)]
    exact h.states j hj

theorem Wf.addValue {k : Key} (h : Wf c lru free vals) (hadded : Added c c' i k) (hr : c.Root r)
    (hitem : c.itemid r = k.itemid) (hk : k.function ≠ .unknown) (hslots : Slots c' free')
    (hring : Ring c'.lruPrev c'.lruNext noSlot (lru ++ [i]))
    (hvalues : ∀ q, c.Root q → Ring c'.valuePrev c'.valueNext q (update vals r (vals r ++ [i]) q))
    (hitems : c'.itemsNum = c.itemsNum) (hstate : (c'.slots i).state ≠ .unknown) :
    Wf c' (lru ++ [i]) free' (update vals r (vals r ++ [i])) := by
  have hroot : ∀ q, c'.Root q → c.Root q := fun q hq => by
    obtain rfl | hmem := hadded.mem.mp hq.1
    · exact absurd (hadded.root_self.mp hq) hk
    · exact (hadded.root_iff hmem).mp hq
  have hself : c'.itemid i = c.itemid r := (congrArg Key.itemid hadded.key).trans hitem.symm
  have hlru : i ∉ lru := fun hmem => hadded.fresh (h.index_of_lru hmem)
  refine ⟨hslots, hring, ?_, fun j => ?_, hadded.keys h, fun q hq => ?_,
    fun q hq => hvalues q (hroot q hq), fun q hq => ?_, fun q hq j => ?_, fun j hj => ?_, ?_,
    fun j hj => ?_⟩
  · exact nodup_append.mpr ⟨h.lruNodup, nodup_singleton i, fun x hx y hy heq =>
      hlru (mem_singleton.mp hy ▸ heq ▸ hx)⟩
  · rw [mem_append, mem_singleton, h.mem_lru, hadded.mem]
    constructor
    · intro hj
      obtain hj | rfl := hj
      · exact ⟨.inr hj.1, mt (hadded.root_iff hj.1).mp hj.2⟩
      · exact ⟨.inl rfl, mt hadded.root_self.mp hk⟩
    · intro hj
      obtain ⟨rfl | hmem, hj⟩ := hj
      · exact .inr rfl
      · exact .inl ⟨hmem, mt (hadded.root_iff hmem).mpr hj⟩
  · have hq := hroot q hq
    rw [hadded.key_of_index hq.1, hadded.itemid_of_index hq.1]
    exact h.roots q hq
  · have hq := hroot q hq
    obtain rfl | hne := eq_or_ne q r
    · rw [update_self]
      refine nodup_append.mpr ⟨h.valuesNodup q hq, nodup_singleton i, fun x hx y hy heq => ?_⟩
      exact hlru (mem_singleton.mp hy ▸ heq ▸ ((h.mem_vals q hq x).mp hx).1)
    · rw [update_of_ne hne]
      exact h.valuesNodup q hq
  · have hq := hroot q hq
    have hold : j ∈ vals q ↔ j ∈ lru ∧ c'.itemid j = c'.itemid q := by
      rw [h.mem_vals q hq, hadded.itemid_of_index hq.1]
      exact and_congr_right fun hj => by rw [hadded.itemid_of_index (h.index_of_lru hj)]
    rw [mem_append, mem_singleton]
    obtain rfl | hne := eq_or_ne q r
    · rw [update_self, mem_append, mem_singleton, hold]
      constructor
      · intro hj
        obtain hj | rfl := hj
        · exact ⟨.inl hj.1, hj.2⟩
        · exact ⟨.inr rfl, hself.trans (hadded.itemid_of_index hq.1).symm⟩
      · exact fun hj => hj.1.imp (fun hmem => ⟨hmem, hj.2⟩) id
    · rw [update_of_ne hne, hold]
      refine and_congr_left fun hitem' => ⟨.inl, fun hj => hj.resolve_right ?_⟩
      rintro rfl
      rw [hself, hadded.itemid_of_index hq.1] at hitem'
      exact hne (h.root_unique hq hr hitem'.symm)
  · obtain hj | hj := mem_append.mp hj
    · obtain ⟨q, hq, hqj⟩ := h.rooted j hj
      refine ⟨q, (hadded.root_iff hq.1).mpr hq, ?_⟩
      rw [hadded.itemid_of_index hq.1, hadded.itemid_of_index (h.index_of_lru hj), hqj]
    · obtain rfl := mem_singleton.mp hj
      exact ⟨r, (hadded.root_iff hr.1).mpr hr, (hadded.itemid_of_index hr.1).trans hself.symm⟩
  · rw [hitems, h.items, hadded.countP, if_neg hk]
    rfl
  · obtain hj | hj := mem_append.mp hj
    · rw [hadded.state_of_index (h.index_of_lru hj)]
      exact h.states j hj
    · obtain rfl := mem_singleton.mp hj
      exact hstate

end Zabbix.Trends
