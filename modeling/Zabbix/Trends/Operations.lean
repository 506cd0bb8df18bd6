import Zabbix.Trends.Insertion

/-!
# The operations of the trend function cache

Each operation keeps the structure, and what is cached after it is said in terms of what was
cached before.
-/

namespace Zabbix.Trends

open List Option Function Tfc

variable {D : Type} {c c' : Tfc D} {lru lru' free free' : List ℕ} {vals : ℕ → List ℕ} {i r : ℕ}
variable {k : Key} {dataLocal : TfcData D} {result : Result D}
variable {vals' : ℕ → List ℕ} {item : ℕ}

def Structured (c : Tfc D) : Prop := ∃ lru free vals, Wf c lru free vals ∧ Settled c vals none

theorem Settled.weaken (h : Settled c vals none) (pending : Option ℕ) : Settled c vals pending :=
  fun r hr hnil => absurd (h r hr hnil) (some_ne_none r).symm

namespace Wf

theorem rebuild (h : Wf c lru free vals) (hkeys : ∀ i, c'.key i = c.key i)
    (hindex : c'.index = c.index) (hitems : c'.itemsNum = c.itemsNum) (hslots : Slots c' free)
    (hring : Ring c'.lruPrev c'.lruNext noSlot lru') (hperm : lru'.Perm lru)
    (hprev : c'.valuePrev = c.valuePrev) (hnext : c'.valueNext = c.valueNext)
    (hstates : ∀ j ∈ lru, (c'.slots j).state ≠ .unknown) : Wf c' lru' free vals := by
  have hkey : c'.key = c.key := funext hkeys
  have hitemid : c'.itemid = c.itemid := funext fun i => congrArg Key.itemid (hkeys i)
  have hroot : c'.Root = c.Root := by
    funext q
    rw [Tfc.Root, Tfc.Root, hindex, hkey]
  refine ⟨hslots, hring, hperm.nodup_iff.mpr h.lruNodup, fun j => ?_, ?_, ?_, ?_, ?_, ?_, ?_, ?_,
    fun j hj => hstates j (hperm.mem_iff.mp hj)⟩
  · rw [hperm.mem_iff, hindex, hroot]
    exact h.mem_lru j
  · rw [hindex, hkey]
    exact h.keys
  · rw [hroot, hkey, hitemid]
    exact h.roots
  · rw [hroot, hprev, hnext]
    exact h.values
  · rw [hroot]
    exact h.valuesNodup
  · rw [hroot, hitemid]
    exact fun q hq j => (h.mem_vals q hq j).trans (and_congr_left fun _ => hperm.mem_iff.symm)
  · rw [hroot, hitemid]
    exact fun j hj => h.rooted j (hperm.mem_iff.mp hj)
  · rw [hitems, hindex, hkey]
    exact h.items

theorem relink (h : Wf c lru free vals) (hsame : SameIndex c c') (hslots : Slots c' free)
    (hring : Ring c'.lruPrev c'.lruNext noSlot lru') (hperm : lru'.Perm lru)
    (hprev : c'.valuePrev = c.valuePrev) (hnext : c'.valueNext = c.valueNext) :
    Wf c' lru' free vals := by
  refine h.rebuild hsame.key hsame.index hsame.itemsNum hslots hring hperm hprev hnext fun j hj => ?_
  have hstate : (c'.slots j).state = (c.slots j).state := congrArg (fun d => d.2.1) (hsame.data j)
  rw [hstate]
  exact h.states j hj

theorem settled_relink (hsame : SameIndex c c') {pending : Option ℕ} (h : Settled c vals pending) :
    Settled c' vals pending := by
  intro q hq hnil
  refine h q ⟨hsame.index ▸ hq.1, ?_⟩ hnil
  rw [← hsame.key]
  exact hq.2

variable (h : Wf c lru free vals)

include h

theorem cached_relink (h' : Wf c' lru' free' vals') (hsame : SameIndex c c') (k : Key)
    : c'.cached k = c.cached k := by
  refine h.cached_congr h' (fun j _ _ => hsame.data j) (fun j hj _ => hsame.index ▸ hj) ?_
  intro j hj hkey
  exact ⟨hsame.index ▸ hj, hsame.key j ▸ hkey⟩

theorem lru_of_known (hi : i ∈ c.index) (hknown : (c.key i).function ≠ .unknown) : i ∈ lru :=
  (h.mem_lru i).mpr ⟨hi, fun hroot => hknown hroot.2⟩

theorem touch (hi : i ∈ lru) :
    SameIndex c (tfcLruAppend (tfcLruRemove c i) i) ∧
      Wf (tfcLruAppend (tfcLruRemove c i) i) (lru.erase i ++ [i]) free vals := by
  have hne := h.lru_ne_noSlot hi
  have hremove := tfcLruRemove_links c hne
  have happend := tfcLruAppend_links (tfcLruRemove c i) hne
  have hsame := hremove.toSameIndex.trans happend.toSameIndex
  obtain ⟨hring, hslots⟩ := h.lruRemove hi
  have hnot : i ∉ noSlot :: lru.erase i :=
    not_mem_cons_of_ne_of_not_mem hne h.lruNodup.not_mem_erase
  have hcycle : (noSlot :: lru.erase i).Nodup :=
    h.lruCycle.sublist ((erase_sublist).cons_cons noSlot)
  have hlast : (tfcLruRemove c i).lruPrev noSlot ∈ noSlot :: lru.erase i :=
    hring.prev_mem mem_cons_self
  refine ⟨hsame, h.relink hsame (hslots.sameIndex happend.toSameIndex fun x hx => ?_) ?_ ?_ ?_ ?_⟩
  · rw [happend.lruNext]
    have hfree := h.free_not_cycle hx
    rw [update_of_ne, update_of_ne]
    · rintro rfl
      exact hfree (mem_cons_of_mem noSlot hi)
    · rintro rfl
      exact hfree (((erase_sublist).cons_cons noSlot).subset hlast)
  · rw [happend.lruPrev, happend.lruNext]
    exact hring.append hnot hcycle
  · exact (perm_append_singleton i _).trans (perm_cons_erase hi).symm
  · rw [happend.valuePrev, hremove.valuePrev]
  · rw [happend.valueNext, hremove.valueNext]

theorem counters (hits misses : ℕ) : Wf { c with hits, misses } lru free vals := by
  have hsame : SameIndex c { c with hits, misses } := ⟨⟨fun _ => rfl, rfl, rfl, rfl⟩, rfl, rfl, rfl⟩
  have hslots := h.toSlots.sameIndex hsame fun _ _ => rfl
  exact h.relink hsame hslots h.ring (Perm.refl lru) rfl rfl

omit h

end Wf

theorem zbxTfcGetValue_structured (h : Structured c) (r : Request) :
    (zbxTfcGetValue c r).1 = c.cached r.key ∧ Structured (zbxTfcGetValue c r).2 ∧
      ∀ k, (zbxTfcGetValue c r).2.cached k = c.cached k := by
  obtain ⟨lru, free, vals, hwf, hsettled⟩ := h
  unfold zbxTfcGetValue
  cases hsearch : c.search r.key with
  | none =>
    refine ⟨?_, ⟨lru, free, vals, hwf.counters c.hits (c.misses + 1), hsettled⟩, fun _ => rfl⟩
    rw [cached, hsearch, map_none]
  | some i =>
    obtain ⟨hi, hkey⟩ := hwf.search_iff.mp hsearch
    have hknown : (c.key i).function ≠ .unknown := hkey ▸ r.known
    obtain ⟨hsame, htouch⟩ := hwf.touch (hwf.lru_of_known hi hknown)
    have hcached := hwf.cached_relink htouch hsame
    dsimp only
    set c₁ := tfcLruAppend (tfcLruRemove c i) i
    have hwf' := htouch.counters (c₁.hits + 1) c₁.misses
    refine ⟨?_, ⟨_, _, _, hwf', Wf.settled_relink hsame hsettled⟩, hcached⟩
    rw [← hcached, ← hkey, ← hsame.key i, htouch.cached_of_key (hsame.index.symm ▸ hi)]

theorem tfcIndexAdd_of_search (h : c.search dataLocal.key = some i) :
    tfcIndexAdd c dataLocal = some (i, c) := by
  rw [tfcIndexAdd, Tfc.insert, h]
  rfl

theorem tfcIndexAdd_inserted (h : Slots c free) (hroom : ¬ c.Full)
    (hnone : c.search dataLocal.key = none) :
    ∃ i c' free', tfcIndexAdd c dataLocal = some (i, c') ∧ Inserted c c' i dataLocal free' := by
  obtain ⟨i, c', free', hinsert, hinserted⟩ := insert_inserted h hroom hnone
  refine ⟨i, c', free', ?_, hinserted⟩
  rw [tfcIndexAdd, hinsert]
  rfl

def Tfc.rootVictim (c : Tfc D) (dataLocal : TfcData D) : Option Key :=
  match c.search dataLocal.key with
  | some _ => none
  | none => (tfcIndexAdd c dataLocal).bind fun (_, c) => c.victim

theorem victim_congr (hdata : SameData c c') (hfree : c'.freeHead = c.freeHead)
    (hhead : c'.lruHead = c.lruHead) : c'.victim = c.victim := by
  have hfull : c'.Full ↔ c.Full := by rw [Tfc.Full, Tfc.Full, hfree, hdata.slotsNum, hdata.freeSlot]
  unfold victim
  simp only [hfull, hhead, hdata.key]

structure Tfc.SelfLinked (c c' : Tfc D) (i : ℕ) : Prop extends SameData c c' where
  index : c'.index = c.index
  freeHead : c'.freeHead = c.freeHead
  lruHead : c'.lruHead = c.lruHead
  lruPrev : c'.lruPrev = c.lruPrev
  lruNext : c'.lruNext = c.lruNext
  valuePrev : c'.valuePrev = update c.valuePrev i i
  valueNext : c'.valueNext = update c.valueNext i i
  itemsNum : c'.itemsNum = c.itemsNum

theorem selfLinked (c : Tfc D) (i : ℕ) :
    SelfLinked c ((c.setPrevValue i i).setNextValue i ((c.setPrevValue i i).slots i).prevValue) i := by
  have hprev := setPrevValue_links c i i
  have hread : ((c.setPrevValue i i).slots i).prevValue = i := by
    rw [prevValue_eq, hprev.valuePrev, update_self]
  have hall := hprev.trans (setNextValue_links (c.setPrevValue i i) i i)
  rw [hread]
  refine ⟨hall.toSameData, hall.index, hall.freeHead, rfl, hall.lruPrev, hall.lruNext, ?_, ?_,
    hall.itemsNum⟩
  · rw [hall.valuePrev, hprev.valuePrev]
  · rw [hall.valueNext, hprev.valueNext]

variable {c₁ : Tfc D}

theorem Inserted.added (h : Inserted c c₁ i dataLocal free') (hnone : c.search dataLocal.key = none)
    (hindex : c'.index = c₁.index) (hdata : ∀ j, j ≠ i → c'.data j = c₁.data j)
    (hkey : c'.key i = c₁.key i) :
    Added c c' i dataLocal.key :=
  ⟨h.fresh, hindex.trans h.index, fun j hj => (hdata j hj).trans (h.data_of_ne hj),
    hkey.trans h.key_self, hnone⟩

theorem Added.cached_of_ne {k' : Key} (hadded : Added c c' i k) (h : Wf c lru free vals)
    (h' : Wf c' lru' free' vals') (hne : k' ≠ k) :
    c'.cached k' = c.cached k' := by
  refine h.cached_congr h' (fun j hj _ => hadded.data j (hadded.ne_of_index hj)) ?_ ?_
  · exact fun j hj _ => hadded.mem.mpr (.inr hj)
  · intro j hj hkey
    obtain rfl | hj := hadded.mem.mp hj
    · exact absurd (hkey.symm.trans hadded.key) hne
    · exact ⟨hj, hadded.key_of_index hj ▸ hkey⟩

structure Rooted (c : Tfc D) (r item : ℕ) (lru free : List ℕ) (vals : ℕ → List ℕ) : Prop where
  wf : Wf c lru free vals
  root : c.Root r
  itemid : c.itemid r = item
  settled : Settled c vals (some r)
  room : ¬ c.Full

theorem tfcRoot_rooted (h : Wf c lru free vals) (hsettled : Settled c vals none) (hroom : ¬ c.Full)
    (hkey : dataLocal.key = rootKey item) :
    ∃ r c', tfcRoot c dataLocal = some (r, c') ∧
      (∃ lru' free' vals', Rooted c' r item lru' free' vals') ∧
      ∀ k : Key, k.function ≠ .unknown →
        c'.cached k = if c.rootVictim dataLocal = some k then none else c.cached k := by
  unfold tfcRoot Tfc.rootVictim
  cases hsearch : c.search dataLocal.key with
  | some r =>
    obtain ⟨hr, hrkey⟩ := h.search_iff.mp hsearch
    rw [hkey] at hrkey
    refine ⟨r, c, rfl, ⟨lru, free, vals, h, ⟨hr, ?_⟩, ?_, hsettled.weaken (some r), hroom⟩, ?_⟩
    · rw [hrkey, rootKey]
    · rw [Tfc.itemid, hrkey, rootKey]
    · exact fun k _ => (if_neg (some_ne_none k).symm).symm
  | none =>
    obtain ⟨i, c₁, free₁, hadd, hinserted⟩ := tfcIndexAdd_inserted h.toSlots hroom hsearch
    have hself := selfLinked c₁ i
    simp only [hadd, bind_some]
    set c₂ := (c₁.setPrevValue i i).setNextValue i ((c₁.setPrevValue i i).slots i).prevValue
    set c₃ : Tfc D := { c₂ with itemsNum := c₂.itemsNum + 1 } with hc₃
    have hadded : Added c c₃ i (rootKey item) :=
      hkey ▸ hinserted.added hsearch hself.index (fun j _ => hself.data j) (hself.key i)
    have hslots : Slots c₃ free₁ := by
      have hslots₁ := hinserted.toSlots
      refine ⟨?_, ?_, ?_, ?_, ?_, ?_⟩
      · exact hself.slotsNum.symm ▸ hslots₁.slotsNum
      · exact (hself.freeSlot.trans_le hslots₁.freeSlot).trans hself.slotsNum.ge
      · exact hself.slotsNum.symm ▸ hself.hashSlots.symm ▸ hslots₁.hashSlots
      · exact hself.index.symm ▸ hslots₁.nodup
      · exact hself.index.symm ▸ hself.freeSlot.symm ▸ hslots₁.below
      · exact hself.lruNext.symm ▸ hself.freeHead.symm ▸ hslots₁.chain
    have hvalue : ∀ q, q ≠ i → c₃.valuePrev q = c₁.valuePrev q ∧ c₃.valueNext q = c₁.valueNext q := by
      intro q hq
      exact ⟨(congrFun hself.valuePrev q).trans (update_of_ne hq _ _),
        (congrFun hself.valueNext q).trans (update_of_ne hq _ _)⟩
    have hwf : Wf c₃ lru free₁ (update vals i []) := by
      refine h.addRoot hadded hslots ?_ (Ring.nil ?_ ?_) (fun q hq => ?_) ?_
      · have hring := hinserted.ring h
        rw [← hself.lruPrev, ← hself.lruNext] at hring
        exact hring
      · exact (congrFun hself.valueNext i).trans (update_self ..)
      · exact (congrFun hself.valuePrev i).trans (update_self ..)
      · have hnot := hinserted.not_values h hq
        refine (hinserted.values h hq).frame (fun x hx => ?_) fun x hx => ?_
        all_goals
          have hxi : x ≠ i := by
            rintro rfl
            exact hnot hx
        · exact (hvalue x hxi).2
        · exact (hvalue x hxi).1
      · exact congrArg (· + 1) (hself.itemsNum.trans hinserted.itemsNum)
    have hsettled' : Settled c₃ (update vals i []) (some i) := by
      intro q hq hnil
      obtain rfl | hmem := hadded.mem.mp hq.1
      · rfl
      · rw [update_of_ne (hadded.ne_of_index hmem)] at hnil
        exact absurd (hsettled q ((hadded.root_iff hmem).mp hq) hnil) (some_ne_none q).symm
    have hroot : c₃.Root i := hadded.root_self.mpr rfl
    obtain ⟨c', hreserve, lru', free', vals', hc'⟩ := tfcReserveSlot_wf hwf hsettled'
    obtain ⟨hroot', -⟩ := hc'.keeps i hroot (update_self ..)
    have hitem : c'.itemid i = item := congrArg Key.itemid ((hc'.key i).trans hadded.key)
    refine ⟨i, c', ?_, ⟨lru', free', vals', hc'.wf, hroot', hitem, hc'.settled, hc'.room⟩, ?_⟩
    · rw [hreserve, map_some]
    · intro k hk
      have hdata : SameData c₁ c₃ := ⟨hself.data, hself.slotsNum, hself.freeSlot, hself.hashSlots⟩
      have hne : k ≠ rootKey item := fun heq => hk (congrArg Key.function heq)
      rw [hc'.cached k hk, hadded.cached_of_ne h hwf hne,
        victim_congr hdata hself.freeHead hself.lruHead]

def Tfc.assign (c : Tfc D) (i : ℕ) (result : Result D) : Tfc D :=
  c.modify i fun d => { d with value := result.value, state := result.state }

theorem assign_slots (c : Tfc D) (i : ℕ) (result : Result D) (j : ℕ) :
    (c.assign i result).slots j =
      { c.slots j with
        value := if j = i then result.value else (c.slots j).value
        state := if j = i then result.state else (c.slots j).state } := by
  rw [assign, modify_slots]
  by_cases h : j = i <;> simp [h]

structure Tfc.SameLinks (c c' : Tfc D) : Prop where
  key : ∀ i, c'.key i = c.key i
  lruPrev : c'.lruPrev = c.lruPrev
  lruNext : c'.lruNext = c.lruNext
  valuePrev : c'.valuePrev = c.valuePrev
  valueNext : c'.valueNext = c.valueNext

theorem assign_sameLinks (c : Tfc D) (i : ℕ) (result : Result D) :
    SameLinks c (c.assign i result) := by
  refine ⟨fun j => ?_, funext fun j => ?_, funext fun j => ?_, funext fun j => ?_,
    funext fun j => ?_⟩
  · rw [Tfc.key, assign_slots]
    rfl
  · rw [Tfc.lruPrev, assign_slots]
    rfl
  · rw [Tfc.lruNext, assign_slots]
    rfl
  · rw [Tfc.valuePrev, assign_slots]
    rfl
  · rw [Tfc.valueNext, assign_slots]
    rfl

theorem assign_data_of_ne (c : Tfc D) (result : Result D) {j : ℕ} (hj : j ≠ i) :
    (c.assign i result).data j = c.data j := by
  rw [Tfc.data, assign_slots, if_neg hj, if_neg hj]
  rfl

theorem Wf.cached_assign (h : Wf (c.assign i result) lru free vals) (hi : i ∈ c.index) :
    (c.assign i result).cached (c.key i) = some (result.value, result.state) := by
  rw [← (assign_sameLinks c i result).key i, h.cached_of_key hi, assign_slots, if_pos rfl, if_pos rfl]

theorem Rooted.assign (h : Rooted c r item lru free vals) (result : Result D) (hi : i ∈ c.index)
    (hkey : c.key i = k) (hitem : k.itemid = item) (hknown : k.function ≠ .unknown) :
    Structured (c.assign i result) ∧ ∀ k' : Key,
      (c.assign i result).cached k' =
        if k' = k then some (result.value, result.state) else c.cached k' := by
  have hwf := h.wf
  have hlinks := assign_sameLinks c i result
  have hlru : i ∈ lru := hwf.lru_of_known hi (hkey ▸ hknown)
  have hvals : i ∈ vals r :=
    (hwf.mem_vals r h.root i).mpr ⟨hlru, by rw [h.itemid, Tfc.itemid, hkey, hitem]⟩
  have hslots : Slots (c.assign i result) free := ⟨hwf.slotsNum, hwf.freeSlot, hwf.hashSlots,
    hwf.nodup, hwf.below, hlinks.lruNext.symm ▸ hwf.chain⟩
  have hwf' : Wf (c.assign i result) lru free vals := by
    refine hwf.rebuild hlinks.key rfl rfl hslots ?_ (Perm.refl lru) hlinks.valuePrev
      hlinks.valueNext fun j hj => ?_
    · rw [hlinks.lruPrev, hlinks.lruNext]
      exact hwf.ring
    · rw [assign_slots]
      dsimp only
      split_ifs
      · exact result.known
      · exact hwf.states j hj
  refine ⟨⟨lru, free, vals, hwf', fun q hq hnil => ?_⟩, fun k' => ?_⟩
  · have hqr := h.settled q ⟨hq.1, hlinks.key q ▸ hq.2⟩ hnil
    rw [← some_inj.mp hqr] at hnil
    rw [hnil] at hvals
    exact absurd hvals not_mem_nil
  · split_ifs with heq
    · rw [heq, ← hkey]
      exact hwf'.cached_assign hi
    · refine hwf.cached_congr hwf' (fun j _ hj => ?_) (fun j hj _ => hj) fun j hj hj' =>
        ⟨hj, hlinks.key j ▸ hj'⟩
      refine assign_data_of_ne c result ?_
      rintro rfl
      exact heq (hj.symm.trans hkey)

theorem Inserted.append (hwf : Wf c lru free vals) (hr : c.Root r)
    (h : Inserted c c₁ i dataLocal free') :
    SameIndex c₁ (tfcValueAppend (tfcLruAppend c₁ i) r i) ∧
      Slots (tfcValueAppend (tfcLruAppend c₁ i) r i) free' ∧
      Ring (tfcValueAppend (tfcLruAppend c₁ i) r i).lruPrev
        (tfcValueAppend (tfcLruAppend c₁ i) r i).lruNext noSlot (lru ++ [i]) ∧
      ∀ q, c.Root q → Ring (tfcValueAppend (tfcLruAppend c₁ i) r i).valuePrev
        (tfcValueAppend (tfcLruAppend c₁ i) r i).valueNext q
        (update vals r (vals r ++ [i]) q) := by
  have hri : i ≠ r := fun heq => h.fresh (heq ▸ hr.1)
  have hlru := tfcLruAppend_links c₁ h.self_ne_noSlot
  have hlruring := h.ring hwf
  have hlast : c₁.lruPrev noSlot ∈ noSlot :: lru := hlruring.prev_mem mem_cons_self
  have hvalring := h.values hwf hr
  have hvallast : c₁.valuePrev r ∈ r :: vals r := hvalring.prev_mem mem_cons_self
  have hnot := h.not_values hwf hr
  have hprev : (tfcLruAppend c₁ i).valuePrev r ≠ i := by
    rw [hlru.valuePrev]
    rintro heq
    exact hnot (heq ▸ hvallast)
  have hvalue := tfcValueAppend_links (tfcLruAppend c₁ i) hri hprev
  have hsame := hlru.toSameIndex.trans hvalue.toSameIndex
  have hnodup := nodup_append.mp h.nodup
  refine ⟨hsame, h.toSlots.sameIndex hsame fun x hx => ?_, ?_, fun q hq => ?_⟩
  · have hxindex : ∀ y ∈ c₁.index, x ≠ y := hnodup.2.2 x hx
    rw [hvalue.lruNext, hlru.lruNext, update_of_ne, update_of_ne]
    · exact hxindex i (h.index ▸ mem_cons_self)
    · rintro rfl
      obtain hend | hmem := mem_cons.mp hlast
      · exact h.toSlots.ne_noSlot (mem_append_left _ hx) hend
      · exact hxindex _ (h.index ▸ mem_cons_of_mem i (hwf.index_of_lru hmem)) rfl
  · rw [hvalue.lruPrev, hvalue.lruNext, hlru.lruPrev, hlru.lruNext]
    exact hlruring.append (h.not_lru hwf) hwf.lruCycle
  · rw [hvalue.valuePrev, hvalue.valueNext, hlru.valuePrev, hlru.valueNext]
    obtain rfl | hne := eq_or_ne q r
    · rw [update_self]
      exact hvalring.append hnot (hwf.valueCycle hr)
    · rw [update_of_ne hne]
      have hapart : ∀ x ∈ q :: vals q, x ≠ i ∧ x ≠ r ∧ x ≠ c₁.valuePrev r := by
        intro x hx
        refine ⟨?_, ?_, ?_⟩ <;> rintro rfl
        · exact h.not_values hwf hq hx
        · exact hwf.rings_apart hr hq hne mem_cons_self hx
        · exact hwf.rings_apart hr hq hne hvallast hx
      refine (h.values hwf hq).frame (fun x hx => ?_) fun x hx => ?_
      · obtain ⟨hi, -, hlast⟩ := hapart x hx
        rw [update_of_ne hlast, update_of_ne hi]
      · obtain ⟨hi, hroot, -⟩ := hapart x hx
        rw [update_of_ne hroot, update_of_ne hi]

theorem Rooted.append (h : Rooted c r item lru free vals)
    (hinserted : Inserted c c₁ i dataLocal free') (hnone : c.search dataLocal.key = none)
    (result : Result D) (hitem : dataLocal.key.itemid = item)
    (hknown : dataLocal.key.function ≠ .unknown) :
    Structured ((tfcValueAppend (tfcLruAppend c₁ i) r i).assign i result) ∧ ∀ k' : Key,
      ((tfcValueAppend (tfcLruAppend c₁ i) r i).assign i result).cached k' =
        if k' = dataLocal.key then some (result.value, result.state) else c.cached k' := by
  have hwf := h.wf
  obtain ⟨hsame, hslots, hlru, hvalues⟩ := hinserted.append hwf h.root
  set c₂ := tfcValueAppend (tfcLruAppend c₁ i) r i
  have hlinks := assign_sameLinks c₂ i result
  have hadded : Added c (c₂.assign i result) i dataLocal.key :=
    hinserted.added hnone hsame.index
      (fun j hj => (assign_data_of_ne c₂ result hj).trans (hsame.data j))
      ((hlinks.key i).trans (hsame.key i))
  have hslots' : Slots (c₂.assign i result) free' := ⟨hslots.slotsNum, hslots.freeSlot,
    hslots.hashSlots, hslots.nodup, hslots.below, hlinks.lruNext.symm ▸ hslots.chain⟩
  have hwf' : Wf (c₂.assign i result) (lru ++ [i]) free'
      (update vals r (vals r ++ [i])) := by
    refine hwf.addValue hadded h.root (h.itemid.trans hitem.symm) hknown hslots' ?_ ?_ ?_ ?_
    · rw [hlinks.lruPrev, hlinks.lruNext]
      exact hlru
    · rw [hlinks.valuePrev, hlinks.valueNext]
      exact hvalues
    · exact hsame.itemsNum.trans hinserted.itemsNum
    · rw [assign_slots]
      dsimp only
      rw [if_pos rfl]
      exact result.known
  refine ⟨⟨_, _, _, hwf', fun q hq hnil => ?_⟩, fun k' => ?_⟩
  · -- the only root without values has one now
    obtain rfl | hne := eq_or_ne q r
    · rw [update_self] at hnil
      exact absurd hnil (append_ne_nil_of_right_ne_nil _ (cons_ne_nil _ _))
    · rw [update_of_ne hne] at hnil
      obtain rfl | hmem := hadded.mem.mp hq.1
      · exact absurd (hadded.root_self.mp hq) hknown
      · have hqr := h.settled q ((hadded.root_iff hmem).mp hq) hnil
        exact absurd (some_inj.mp hqr).symm hne
  · split_ifs with heq
    · rw [heq, ← hadded.key, hlinks.key]
      exact hwf'.cached_assign (hsame.index ▸ hinserted.index ▸ mem_cons_self)
    · exact hadded.cached_of_ne hwf hwf' heq

def Tfc.victims (c : Tfc D) (dataLocal : TfcData D) (r : Request) : List Key :=
  c.victim.toList ++
    ((tfcReserveSlot c).bind fun c =>
      c.rootVictim { dataLocal with key := rootKey r.itemid }).toList

theorem zbxTfcPutValue_structured (h : Structured c) (dataLocal : TfcData D) (r : Request)
    (result : Result D) :
    ∃ c', zbxTfcPutValue c dataLocal r result = some c' ∧ Structured c' ∧
      ∀ k : Key, k.function ≠ .unknown →
        c'.cached k =
          if k = r.key then some (result.value, result.state)
          else if k ∈ c.victims dataLocal r then none
          else c.cached k := by
  obtain ⟨lru, free, vals, hwf, hsettled⟩ := h
  obtain ⟨c₁, hreserve, lru₁, free₁, vals₁, hc₁⟩ := tfcReserveSlot_wf hwf hsettled
  have hrootKey : ({ dataLocal with key := rootKey r.itemid } : TfcData D).key = rootKey r.itemid := rfl
  obtain ⟨root, c₂, hroot, ⟨lru₂, free₂, vals₂, hc₂⟩, hcached₂⟩ :=
    tfcRoot_rooted hc₁.wf hc₁.settled hc₁.room hrootKey
  have hvictims : ∀ k : Key, k.function ≠ .unknown →
      c₂.cached k = if k ∈ c.victims dataLocal r then none else c.cached k := by
    intro k hk
    rw [hcached₂ k hk, hc₁.cached k hk, victims, hreserve, bind_some]
    simp only [mem_append, mem_toList]
    split_ifs <;> tauto
  have hknown : r.key.function ≠ .unknown := r.known
  unfold zbxTfcPutValue
  rw [hreserve, bind_some, hroot, bind_some]
  dsimp only
  cases hsearch : c₂.search r.key with
  | some i =>
    obtain ⟨hi, hkey⟩ := hc₂.wf.search_iff.mp hsearch
    have hstate := hc₂.wf.states i (hc₂.wf.lru_of_known hi (hkey ▸ hknown))
    obtain ⟨hstructured, hcached⟩ := hc₂.assign result hi hkey rfl hknown
    rw [tfcIndexAdd_of_search hsearch, map_some]
    dsimp only
    rw [if_neg hstate]
    refine ⟨_, rfl, hstructured, fun k hk => ?_⟩
    exact (hcached k).trans (by rw [hvictims k hk])
  | none =>
    have hnone : c₂.search ({ dataLocal with key := r.key, state := .unknown } : TfcData D).key = none :=
      hsearch
    obtain ⟨i, c₃, free₃, hadd, hinserted⟩ := tfcIndexAdd_inserted hc₂.wf.toSlots hc₂.room hnone
    obtain ⟨hstructured, hcached⟩ := hc₂.append hinserted hsearch result rfl hknown
    have hstate : (c₃.slots i).state = .unknown := by rw [hinserted.slots, if_pos rfl]
    rw [hadd, map_some]
    dsimp only
    rw [if_pos hstate]
    refine ⟨_, rfl, hstructured, fun k hk => ?_⟩
    exact (hcached k).trans (by rw [hvictims k hk])

end Zabbix.Trends
