import Zabbix.Trends.Structure

/-!
# Freeing entries of the trend function cache
-/

namespace Zabbix.Trends

open Option List Function Tfc

variable {D : Type} {c c' : Tfc D} {lru free free' : List ℕ} {vals : ℕ → List ℕ} {i j r : ℕ}
variable {q : ℕ} {pending : Option ℕ} {k : Key} {lru' : List ℕ} {vals' : ℕ → List ℕ}

theorem Slots.removeDirect (h : Slots c free) (hi : i ∈ c.index) :
    Slots (c.removeDirect i) (i :: free) := by
  have hmem : i ∈ free ++ c.index := mem_append_right _ hi
  have hne : i ≠ noSlot :=
    (Nat.lt_of_lt_of_le ((h.below i).mp hmem) (h.freeSlot.trans h.slotsNum.2)).ne
  obtain ⟨hfree, hindex⟩ := removeDirect_links hne hi
  have hperm : (i :: free ++ (c.removeDirect i).index).Perm (free ++ c.index) := by
    rw [hindex]
    exact perm_middle.symm.trans ((perm_cons_erase hi).symm.append_left free)
  refine ⟨?_, ?_, ?_, hperm.nodup_iff.mpr h.nodup, fun j => ?_, ?_⟩
  · rw [hfree.slotsNum]
    exact h.slotsNum
  · rw [hfree.slotsNum, hfree.freeSlot]
    exact h.freeSlot
  · rw [hfree.slotsNum, hfree.hashSlots]
    exact h.hashSlots
  · rw [hperm.mem_iff, hfree.freeSlot]
    exact h.below j
  · rw [hfree.freeHead, hfree.lruNext]
    refine ⟨rfl, ?_⟩
    rw [update_self]
    refine h.chain.frame fun x hx => update_of_ne ?_ _ _
    rintro rfl
    exact (nodup_append.mp h.nodup).2.2 x hx x hi rfl

theorem Slots.sameIndex (h : Slots c free) (hsame : SameIndex c c')
    (hnext : ∀ x ∈ free, c'.lruNext x = c.lruNext x) : Slots c' free := by
  refine ⟨?_, ?_, ?_, ?_, ?_, ?_⟩
  · rw [hsame.slotsNum]
    exact h.slotsNum
  · rw [hsame.slotsNum, hsame.freeSlot]
    exact h.freeSlot
  · rw [hsame.slotsNum, hsame.hashSlots]
    exact h.hashSlots
  · rw [hsame.index]
    exact h.nodup
  · rw [hsame.index, hsame.freeSlot]
    exact h.below
  · rw [hsame.freeHead]
    exact h.chain.frame hnext

theorem Tfc.FreeLinks.ring {l : List ℕ} (h : FreeLinks c c' i)
    (hring : Ring c.lruPrev c.lruNext r l) (hi : i ∉ r :: l) : Ring c'.lruPrev c'.lruNext r l := by
  rw [h.lruPrev, h.lruNext]
  refine hring.frame (fun x hx => ?_) fun x hx => ?_
  all_goals
    refine update_of_ne ?_ _ _
    rintro rfl
    exact hi hx

namespace Wf

variable (h : Wf c lru free vals)

include h

theorem free_not_cycle (hi : i ∈ free) : i ∉ noSlot :: lru := fun hmem => by
  obtain hend | hmem := mem_cons.mp hmem
  · exact h.ne_noSlot (mem_append_left _ hi) hend
  · exact h.free_not_index hi (h.index_of_lru hmem)

theorem lruRemove (hi : i ∈ lru) :
    Ring (tfcLruRemove c i).lruPrev (tfcLruRemove c i).lruNext noSlot (lru.erase i) ∧
      Slots (tfcLruRemove c i) free := by
  have hlinks := tfcLruRemove_links c (h.lru_ne_noSlot hi)
  constructor
  · rw [hlinks.lruPrev, hlinks.lruNext]
    obtain ⟨pre, post, rfl⟩ := append_of_mem hi
    obtain ⟨hpre, -⟩ := nodup_middle.mp h.lruNodup |> nodup_cons.mp
    rw [erase_append_right _ fun hmem => hpre (mem_append_left _ hmem), erase_cons_head]
    exact h.ring.remove h.lruCycle
  · refine h.toSlots.sameIndex hlinks.toSameIndex fun x hx => ?_
    rw [hlinks.lruNext]
    refine update_of_ne ?_ _ _
    rintro rfl
    exact h.free_not_cycle hx (h.ring.prev_mem (mem_cons_of_mem noSlot hi))

theorem valueRemove (hi : i ∈ vals r) (hr : c.Root r) (hq : c.Root q) :
    Ring (update c.valuePrev (c.valueNext i) (c.valuePrev i))
      (update c.valueNext (c.valuePrev i) (c.valueNext i)) q
      (update vals r ((vals r).erase i) q) := by
  have hring := h.values r hr
  have hcycle := h.valueCycle hr
  obtain rfl | hne := eq_or_ne q r
  · rw [update_self]
    obtain ⟨pre, post, hvals⟩ := append_of_mem hi
    rw [hvals] at hring hcycle ⊢
    obtain ⟨-, hnodup⟩ := nodup_cons.mp hcycle
    obtain ⟨hpre, -⟩ := nodup_middle.mp hnodup |> nodup_cons.mp
    rw [erase_append_right _ fun hmem => hpre (mem_append_left _ hmem), erase_cons_head]
    exact hring.remove hcycle
  · rw [update_of_ne hne]
    have hi' : i ∈ r :: vals r := mem_cons_of_mem r hi
    refine (h.values q hq).frame (fun x hx => ?_) fun x hx => ?_
    · refine update_of_ne ?_ _ _
      rintro rfl
      exact h.rings_apart hr hq hne (hring.prev_mem hi') hx
    · refine update_of_ne ?_ _ _
      rintro rfl
      exact h.rings_apart hr hq hne (hring.next_mem hi') hx

theorem last_iff (hi : i ∈ vals r) (hr : c.Root r) :
    c.valuePrev i = c.valueNext i ↔ vals r = [i] := by
  have hring := h.values r hr
  have hcycle := h.valueCycle hr
  obtain ⟨pre, post, hvals⟩ := append_of_mem hi
  rw [hvals] at hring hcycle ⊢
  rw [hring.prev_eq_next_iff hcycle]
  constructor
  · intro hnil
    obtain ⟨rfl, rfl⟩ := append_eq_nil_iff.mp hnil
    rfl
  · intro hone
    have hlength := congrArg List.length hone
    simp only [length_append, length_cons, length_nil] at hlength
    rw [← length_eq_zero_iff, length_append]
    omega

theorem prev_of_last (hr : c.Root r) (hlast : vals r = [i]) : c.valuePrev i = r := by
  have hring := h.values r hr
  rw [hlast] at hring
  have hring : Ring c.valuePrev c.valueNext r ([] ++ i :: []) := hring
  exact hring.prev_eq

omit h

structure Removed (c c' : Tfc D) (vals : ℕ → List ℕ) (i r : ℕ) : Prop extends SameData c c' where
  mem : ∀ j, j ∈ c'.index ↔ j ∈ c.index ∧ j ≠ i ∧ (vals r = [i] → j ≠ r)

theorem Removed.root (h : Removed c c' vals i r) (hq : c'.Root q) : c.Root q :=
  ⟨((h.mem q).mp hq.1).1, h.key q ▸ hq.2⟩

theorem Removed.itemid (h : Removed c c' vals i r) (j : ℕ) : c'.itemid j = c.itemid j :=
  congrArg Key.itemid (h.key j)

theorem removed (h : Wf c lru free vals) (hi : i ∈ vals r) (hr : c.Root r)
    (hremoved : Removed c c' vals i r) (hslots : Slots c' free')
    (hring : Ring c'.lruPrev c'.lruNext noSlot (lru.erase i))
    (hvalues : ∀ q, c.Root q →
      Ring c'.valuePrev c'.valueNext q (update vals r ((vals r).erase i) q))
    (hitems : c'.itemsNum = c'.index.countP fun j => (c'.key j).function = .unknown) :
    Wf c' (lru.erase i) free' (update vals r ((vals r).erase i)) := by
  obtain ⟨hlru, hitem⟩ := (h.mem_vals r hr i).mp hi
  have hmem : ∀ j, j ∈ lru.erase i ↔ j ≠ i ∧ j ∈ lru := fun j => h.lruNodup.mem_erase_iff
  refine ⟨hslots, hring, h.lruNodup.erase i, ?_, ?_, ?_, ?_, ?_, ?_, ?_, hitems, ?_⟩
  · intro j
    rw [hmem, h.mem_lru, hremoved.mem]
    constructor
    · intro hj
      obtain ⟨hne, hindex, hroot⟩ := hj
      refine ⟨⟨hindex, hne, fun _ heq => hroot (heq ▸ hr)⟩, fun hroot' => ?_⟩
      exact hroot (hremoved.root hroot')
    · intro hj
      obtain ⟨⟨hindex, hne, hlast⟩, hroot⟩ := hj
      refine ⟨hne, hindex, fun hroot' => hroot ?_⟩
      exact ⟨(hremoved.mem j).mpr ⟨hindex, hne, hlast⟩, (hremoved.key j).symm ▸ hroot'.2⟩
  · intro j hj j' hj' hkey
    rw [hremoved.key, hremoved.key] at hkey
    exact h.keys j ((hremoved.mem j).mp hj).1 j' ((hremoved.mem j').mp hj').1 hkey
  · intro q hq
    rw [hremoved.key, hremoved.itemid]
    exact h.roots q (hremoved.root hq)
  · exact fun q hq => hvalues q (hremoved.root hq)
  · intro q hq
    obtain rfl | hne := eq_or_ne q r
    · rw [update_self]
      exact (h.valuesNodup q hr).erase i
    · rw [update_of_ne hne]
      exact h.valuesNodup q (hremoved.root hq)
  · intro q hq j
    have hq := hremoved.root hq
    rw [hmem, hremoved.itemid, hremoved.itemid]
    obtain rfl | hne := eq_or_ne q r
    · rw [update_self, (h.valuesNodup q hr).mem_erase_iff, h.mem_vals q hr, and_assoc]
    · rw [update_of_ne hne, h.mem_vals q hq]
      constructor
      · intro hj
        refine ⟨⟨?_, hj.1⟩, hj.2⟩
        rintro rfl
        exact hne (h.root_unique hq hr (hj.2.symm.trans hitem))
      · exact fun hj => ⟨hj.1.2, hj.2⟩
  · intro j hj
    obtain ⟨hne, hj⟩ := (hmem j).mp hj
    obtain ⟨q, hq, hqj⟩ := h.rooted j hj
    have hqi : q ≠ i := by
      rintro rfl
      exact h.root_ne_lru hq hlru
    refine ⟨q, ⟨(hremoved.mem q).mpr ⟨hq.1, hqi, fun hlast hqr => ?_⟩, ?_⟩, ?_⟩
    · have hj : j ∈ vals r := (h.mem_vals r hr j).mpr ⟨hj, by rw [← hqj, hqr]⟩
      rw [hlast] at hj
      exact hne (mem_singleton.mp hj)
    · rw [hremoved.key]
      exact hq.2
    · rw [hremoved.itemid, hremoved.itemid, hqj]
  · intro j hj
    have hstate : (c'.slots j).state = (c.slots j).state :=
      congrArg (fun d => d.2.1) (hremoved.data j)
    rw [hstate]
    exact h.states j ((hmem j).mp hj).2

theorem Removed.settled (hremoved : Removed c c' vals i r) (hi : i ∈ vals r)
    (hsettled : Settled c vals pending) :
    Settled c' (update vals r ((vals r).erase i)) pending := by
  intro q hq hnil
  obtain rfl | hne := eq_or_ne q r
  · rw [update_self] at hnil
    have hlast : vals q = [i] := by
      have hperm := perm_cons_erase hi
      rw [hnil] at hperm
      exact perm_singleton.mp hperm
    exact absurd rfl (((hremoved.mem q).mp hq.1).2.2 hlast)
  · rw [update_of_ne hne] at hnil
    exact hsettled q (hremoved.root hq) hnil

structure Unlinked (c c' : Tfc D) (lru free : List ℕ) (vals : ℕ → List ℕ) (i r : ℕ) : Prop
    extends SameIndex c c' where
  slots : Slots c' free
  ring : Ring c'.lruPrev c'.lruNext noSlot (lru.erase i)
  values : ∀ q, c.Root q →
    Ring c'.valuePrev c'.valueNext q (update vals r ((vals r).erase i) q)
  valuePrev : c'.valuePrev i = c.valuePrev i
  valueNext : c'.valueNext i = c.valueNext i

variable (h : Wf c lru free vals)

include h

variable (hi : i ∈ vals r)

include hi

theorem unlinked (hr : c.Root r) :
    Unlinked c (tfcValueRemove (tfcLruRemove c i) i) lru free vals i r := by
  have hlru := ((h.mem_vals r hr i).mp hi).1
  have hlinks := tfcLruRemove_links c (h.lru_ne_noSlot hlru)
  have hvalues := tfcValueRemove_links (tfcLruRemove c i) i
  obtain ⟨hring, hslots⟩ := h.lruRemove hlru
  refine ⟨hlinks.toSameIndex.trans hvalues.toSameIndex,
    hslots.sameIndex hvalues.toSameIndex fun x _ => congrFun hvalues.lruNext x, ?_, fun q hq => ?_,
    ?_, ?_⟩
  · rw [hvalues.lruPrev, hvalues.lruNext]
    exact hring
  · rw [hvalues.valuePrev, hvalues.valueNext, hlinks.valuePrev, hlinks.valueNext]
    exact h.valueRemove hi hr hq
  · rw [hvalues.valuePrev, hlinks.valuePrev, update_apply]
    split_ifs <;> rfl
  · rw [hvalues.valueNext, hlinks.valueNext, update_apply]
    split_ifs <;> rfl

theorem not_mem_erase (hr : c.Root r) {x : ℕ} (hx : x = i ∨ x = r) : x ∉ noSlot :: lru.erase i := by
  have hlru := ((h.mem_vals r hr i).mp hi).1
  have hindex : x ∈ c.index := by
    obtain rfl | rfl := hx
    · exact h.index_of_lru hlru
    · exact hr.1
  refine not_mem_cons_of_ne_of_not_mem (h.ne_noSlot (mem_append_right _ hindex)) ?_
  intro hmem
  obtain ⟨hne, hmem⟩ := h.lruNodup.mem_erase_iff.mp hmem
  obtain rfl | rfl := hx
  · exact hne rfl
  · exact h.root_ne_lru hr hmem

theorem root_ne (hr : c.Root r) : r ≠ i := fun heq =>
  h.root_ne_lru hr (heq ▸ ((h.mem_vals r hr i).mp hi).1)

theorem not_root_of_vals (hr : c.Root r) : ¬ c.Root i :=
  ((h.mem_lru i).mp ((h.mem_vals r hr i).mp hi).1).2

theorem freeOne (hr : c.Root r) (hlast : vals r ≠ [i]) (hc' : Unlinked c c' lru free vals i r) :
    Removed c (c'.removeDirect i) vals i r ∧
      Wf (c'.removeDirect i) (lru.erase i) (i :: free) (update vals r ((vals r).erase i)) := by
  have hlru := ((h.mem_vals r hr i).mp hi).1
  have hindex : i ∈ c.index := h.index_of_lru hlru
  have hindex' : i ∈ c'.index := hc'.index ▸ hindex
  obtain ⟨hfree, herase⟩ := removeDirect_links (h.lru_ne_noSlot hlru) hindex'
  have hdata := hc'.toSameData.trans hfree.toSameData
  rw [hc'.index] at herase
  have hremoved : Removed c (c'.removeDirect i) vals i r := by
    refine ⟨hdata, fun j => ?_⟩
    rw [herase, h.indexNodup.mem_erase_iff]
    constructor
    · exact fun hj => ⟨hj.2, hj.1, fun heq => absurd heq hlast⟩
    · exact fun hj => ⟨hj.2.1, hj.1⟩
  refine ⟨hremoved, h.removed hi hr hremoved (hc'.slots.removeDirect hindex') ?_ ?_ ?_⟩
  · exact hfree.ring hc'.ring (h.not_mem_erase hi hr (.inl rfl))
  · intro q hq
    rw [hfree.valuePrev, hfree.valueNext]
    exact hc'.values q hq
  · have hkey : ¬ (c.key i).function = .unknown := fun heq => h.not_root_of_vals hi hr ⟨hindex, heq⟩
    simp only [hdata.key]
    rw [hfree.itemsNum, hc'.itemsNum, herase, h.items, countP_erase]
    simp [hkey]

theorem freeLast (hr : c.Root r) (hlast : vals r = [i]) (hc' : Unlinked c c' lru free vals i r)
    {c₂ : Tfc D} (hfree : FreeLinks c' c₂ r) (herase : c₂.index = c'.index.erase r)
    (hslots : Slots c₂ (r :: free)) :
    Removed c (({ c₂ with itemsNum := c₂.itemsNum - 1 } : Tfc D).removeDirect i) vals i r ∧
      Wf (({ c₂ with itemsNum := c₂.itemsNum - 1 } : Tfc D).removeDirect i) (lru.erase i)
        (i :: r :: free) (update vals r ((vals r).erase i)) := by
  have hlru := ((h.mem_vals r hr i).mp hi).1
  have hindex : i ∈ c.index := h.index_of_lru hlru
  rw [hc'.index] at herase
  set c₁ : Tfc D := { c₂ with itemsNum := c₂.itemsNum - 1 } with hc₁
  have hindex' : i ∈ c₁.index := by
    rw [hc₁]
    exact herase ▸ h.indexNodup.mem_erase_iff.mpr ⟨(h.root_ne hi hr).symm, hindex⟩
  have hslots' : Slots c₁ (r :: free) := ⟨hslots.slotsNum, hslots.freeSlot, hslots.hashSlots,
    hslots.nodup, hslots.below, hslots.chain⟩
  obtain ⟨hfree', herase'⟩ := removeDirect_links (h.lru_ne_noSlot hlru) hindex'
  have hdata₁ : SameData c₂ c₁ := ⟨fun _ => rfl, rfl, rfl, rfl⟩
  have hdata : SameData c (c₁.removeDirect i) :=
    ((hc'.toSameData.trans hfree.toSameData).trans hdata₁).trans hfree'.toSameData
  have herase'' : (c₁.removeDirect i).index = (c.index.erase r).erase i := by rw [herase', ← herase]
  have hremoved : Removed c (c₁.removeDirect i) vals i r := by
    refine ⟨hdata, fun j => ?_⟩
    rw [herase'', (h.indexNodup.erase r).mem_erase_iff, h.indexNodup.mem_erase_iff]
    constructor
    · exact fun hj => ⟨hj.2.2, hj.1, fun _ => hj.2.1⟩
    · exact fun hj => ⟨hj.2.1, hj.2.2 hlast, hj.1⟩
  refine ⟨hremoved, h.removed hi hr hremoved (hslots'.removeDirect hindex') ?_ ?_ ?_⟩
  · exact hfree'.ring (hfree.ring hc'.ring (h.not_mem_erase hi hr (.inr rfl)))
      (h.not_mem_erase hi hr (.inl rfl))
  · intro q hq
    rw [hfree'.valuePrev, hfree'.valueNext]
    change Ring c₂.valuePrev c₂.valueNext q _
    rw [hfree.valuePrev, hfree.valueNext]
    exact hc'.values q hq
  · have hkey : ¬ (c.key i).function = .unknown := fun heq => h.not_root_of_vals hi hr ⟨hindex, heq⟩
    simp only [hdata.key]
    rw [hfree'.itemsNum, herase'', countP_erase, countP_erase]
    simp [hkey, hr.1, hr.2, hc₁, hfree.itemsNum, hc'.itemsNum, h.items]

omit hi

omit h

end Wf

theorem tfcFreeData_wf (h : Wf c lru free vals) (hi : i ∈ vals r) (hr : c.Root r) :
    Wf.Removed c (tfcFreeData c i) vals i r ∧
      ∃ free', Wf (tfcFreeData c i) (lru.erase i) (i :: free')
        (update vals r ((vals r).erase i)) := by
  have hc' := h.unlinked hi hr
  unfold tfcFreeData
  simp only [prevValue_eq, nextValue_eq, hc'.valuePrev, hc'.valueNext, h.last_iff hi hr]
  split_ifs with hlast
  · rw [h.prev_of_last hr hlast]
    have hroot' : r ∈ (tfcValueRemove (tfcLruRemove c i) i).index := hc'.index ▸ hr.1
    obtain ⟨hfree, herase⟩ := removeDirect_links (h.ne_noSlot (mem_append_right _ hr.1)) hroot'
    obtain ⟨hremoved, hwf⟩ :=
      h.freeLast hi hr hlast hc' hfree herase (hc'.slots.removeDirect hroot')
    exact ⟨hremoved, _, hwf⟩
  · obtain ⟨hremoved, hwf⟩ := h.freeOne hi hr hlast hc'
    exact ⟨hremoved, _, hwf⟩

def Tfc.cached (c : Tfc D) (k : Key) : Option (D × TrendState) :=
  (c.search k).map fun i => ((c.slots i).value, (c.slots i).state)

def Tfc.victim (c : Tfc D) : Option Key := if c.Full then some (c.key c.lruHead) else none

variable (h : Wf c lru free vals)

include h

theorem Wf.cached_of_key (hi : i ∈ c.index) :
    c.cached (c.key i) = some ((c.slots i).value, (c.slots i).state) := by
  rw [cached, h.search_iff.mpr ⟨hi, rfl⟩, map_some]

theorem Wf.cached_none (hk : ∀ i ∈ c.index, c.key i ≠ k) : c.cached k = none := by
  rw [cached, h.search_none.mpr hk, map_none]

theorem Wf.cached_congr (h' : Wf c' lru' free' vals')
    (hdata : ∀ i ∈ c.index, c.key i = k → c'.data i = c.data i)
    (hold : ∀ i ∈ c.index, c.key i = k → i ∈ c'.index)
    (hnew : ∀ i ∈ c'.index, c'.key i = k → i ∈ c.index ∧ c.key i = k) :
    c'.cached k = c.cached k := by
  by_cases hex : ∃ i ∈ c.index, c.key i = k
  · obtain ⟨i, hi, rfl⟩ := hex
    have hdata := hdata i hi rfl
    rw [h.cached_of_key hi, ← key_eq hdata, h'.cached_of_key (hold i hi rfl)]
    have hstate : (c'.slots i).state = (c.slots i).state := congrArg (fun d => d.2.1) hdata
    have hvalue : (c'.slots i).value = (c.slots i).value := congrArg (fun d => d.2.2) hdata
    rw [hstate, hvalue]
  · push Not at hex
    rw [h.cached_none hex, h'.cached_none]
    intro i hi hkey
    obtain ⟨hi, hkey⟩ := hnew i hi hkey
    exact hex i hi hkey

theorem Wf.cached_removed (h' : Wf c' lru' free' vals') (hi : i ∈ c.index) (hr : c.Root r)
    (hremoved : Wf.Removed c c' vals i r) (hk : k.function ≠ .unknown) :
    c'.cached k = if c.key i = k then none else c.cached k := by
  split_ifs with hki
  · refine h'.cached_none fun j hj hkj => ?_
    obtain ⟨hj, hne, -⟩ := (hremoved.mem j).mp hj
    rw [hremoved.key, ← hki] at hkj
    exact hne (h.keys j hj i hi hkj)
  · refine h.cached_congr h' (fun j _ _ => hremoved.data j) (fun j hj hkj => ?_) fun j hj hkj => ?_
    · refine (hremoved.mem j).mpr ⟨hj, fun heq => hki (heq ▸ hkj), fun _ heq => hk ?_⟩
      rw [← hkj, heq]
      exact hr.2
    · rw [hremoved.key] at hkj
      exact ⟨((hremoved.mem j).mp hj).1, hkj⟩

omit h

structure Reserved (c c' : Tfc D) (vals : ℕ → List ℕ) (pending : Option ℕ) (lru' free' : List ℕ)
    (vals' : ℕ → List ℕ) : Prop extends SameData c c' where
  wf : Wf c' lru' free' vals'
  settled : Settled c' vals' pending
  room : ¬ c'.Full
  cached : ∀ k : Key, k.function ≠ .unknown →
    c'.cached k = if c.victim = some k then none else c.cached k
  keeps : ∀ r, c.Root r → vals r = [] → c'.Root r ∧ vals' r = []

theorem tfcReserveSlot_wf (h : Wf c lru free vals) (hsettled : Settled c vals pending) :
    ∃ c', tfcReserveSlot c = some c' ∧
      ∃ lru' free' vals', Reserved c c' vals pending lru' free' vals' := by
  unfold tfcReserveSlot
  split_ifs with hfull hhead
  · -- a full cache has an entry that can make room
    cases lru with
    | nil => exact absurd rfl (h.lru_ne_nil hsettled hfull)
    | cons i lru =>
      have hi : c.lruHead = i := (if_pos rfl).symm.trans h.ring.next_root
      exact absurd (hi.symm.trans hhead) (h.lru_ne_noSlot mem_cons_self)
  · cases lru with
    | nil => exact absurd rfl (h.lru_ne_nil hsettled hfull)
    | cons i lru =>
      have hhead : c.lruHead = i := (if_pos rfl).symm.trans h.ring.next_root
      have hmem : i ∈ i :: lru := mem_cons_self
      obtain ⟨r, hr, hitem⟩ := h.rooted i hmem
      have hi : i ∈ vals r := (h.mem_vals r hr i).mpr ⟨hmem, hitem.symm⟩
      obtain ⟨hremoved, free', hwf⟩ := tfcFreeData_wf h hi hr
      rw [hhead]
      refine ⟨_, rfl, _, _, _, hremoved.toSameData, hwf, hremoved.settled hi hsettled, ?_,
        fun k hk => ?_, fun q hq hnil => ?_⟩
      · intro hfull'
        exact absurd (hwf.freeHead_eq.mp hfull'.1) (cons_ne_nil _ _)
      · have hvictim : c.victim = some (c.key i) := by rw [victim, if_pos hfull, hhead]
        rw [h.cached_removed hwf (h.index_of_lru hmem) hr hremoved hk, hvictim]
        simp only [some_inj]
      · have hqr : q ≠ r := by
          rintro rfl
          rw [hnil] at hi
          exact absurd hi not_mem_nil
        have hqi : q ≠ i := by
          rintro rfl
          exact h.root_ne_lru hq hmem
        refine ⟨⟨(hremoved.mem q).mpr ⟨hq.1, hqi, fun _ => hqr⟩, ?_⟩, ?_⟩
        · rw [hremoved.key]
          exact hq.2
        · rw [update_of_ne hqr, hnil]
  · refine ⟨c, rfl, lru, free, vals, SameData.refl c, h, hsettled, hfull, fun k _ => ?_,
      fun q hq hnil => ⟨hq, hnil⟩⟩
    rw [victim, if_neg hfull, if_neg (some_ne_none k).symm]

end Zabbix.Trends
