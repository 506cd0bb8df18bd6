import Zabbix.Algo.BinaryHeap
import Zabbix.Foundation.Transition

/-!
# Order and index of binary heaps

Sifting keeps the elements and ends with a heap in order, and every swap puts right the indexes
of both elements.
-/

namespace Zabbix.Algo

open Option List HeapOrder

variable {δ : Type*} {hashFunc : UInt64 → UInt32} {compareFunc : Elem δ → Elem δ → ℤ}
  {heap heap' : BinaryHeap δ} {elems : List (Elem δ)} {elem : Elem δ} {index i j k : ℕ}
  {off : ℕ → Prop} {find : UInt64 → Option ℕ}
variable {off' : ℕ → Prop} {key : UInt64}

/-- The positions of keys, right for all but the positions in `off`. -/
structure IndexedOff (find : UInt64 → Option ℕ) (elems : List (Elem δ)) (off : ℕ → Prop) :
    Prop where
  keys : (elems.map Elem.key).Nodup
  mapped : ∀ i e, elems[i]? = some e → ¬off i → find e.key = some i
  only : ∀ k i, find k = some i → ∃ e ∈ elems, e.key = k

namespace IndexedOff

theorem mono (h : IndexedOff find elems off) (hoff : ∀ i, off i → off' i) :
    IndexedOff find elems off' :=
  ⟨h.keys, fun i e he hi => h.mapped i e he fun hoffi => hi (hoff i hoffi), h.only⟩

theorem eq_of_key (h : IndexedOff find elems off) {x y : Elem δ} (hx : elems[i]? = some x)
    (hy : elems[j]? = some y) (hkey : x.key = y.key) : i = j := by
  have hi : (elems.map Elem.key)[i]? = some x.key := by rw [List.getElem?_map, hx]; rfl
  have hj : (elems.map Elem.key)[j]? = some x.key := by rw [List.getElem?_map, hy, hkey]; rfl
  exact (List.getElem?_inj (List.getElem?_eq_some_iff.mp hi).1 h.keys).mp (hi.trans hj.symm)

theorem find_eq_some_iff (h : IndexedOff find elems fun _ => False) (k : UInt64) (i : ℕ) :
    find k = some i ↔ ∃ e, elems[i]? = some e ∧ e.key = k := by
  constructor
  · intro hfind
    obtain ⟨e, he, rfl⟩ := h.only k i hfind
    obtain ⟨p, hp⟩ := mem_iff_getElem?.mp he
    have hpos := h.mapped p e hp id
    obtain rfl : p = i := Option.some.inj (hpos.symm.trans hfind)
    exact ⟨e, hp, rfl⟩
  · rintro ⟨e, he, rfl⟩
    exact h.mapped i e he id

theorem setIndex (h : IndexedOff find elems off) (helem : elems[index]? = some elem) :
    IndexedOff (fun k => if k = elem.key then some index else find k) elems
      fun i => off i ∧ i ≠ index := by
  refine ⟨h.keys, fun i e he hi => ?_, fun k i hk => ?_⟩
  · by_cases hkey : e.key = elem.key
    · obtain rfl := h.eq_of_key he helem hkey
      exact if_pos hkey
    · have hne : i ≠ index := by
        rintro rfl
        exact hkey (congrArg Elem.key (Option.some.inj (he.symm.trans helem)))
      exact (if_neg hkey).trans (h.mapped i e he fun hoff => hi ⟨hoff, hne⟩)
  · split_ifs at hk with hkey
    · exact ⟨elem, mem_of_getElem? helem, hkey.symm⟩
    · exact h.only k i hk

theorem swapAt (h : IndexedOff find elems off) (hi : i < elems.length) (hj : j < elems.length) :
    IndexedOff find (swapAt elems i j) fun k => off k ∨ k = i ∨ k = j := by
  have hperm := swapAt_perm hi hj
  refine ⟨(hperm.map Elem.key).nodup_iff.mpr h.keys, fun k e he hk => ?_, fun k p hp => ?_⟩
  · rw [not_or, not_or] at hk
    rw [getElem?_swapAt hi hj, Equiv.swap_apply_of_ne_of_ne hk.2.1 hk.2.2] at he
    exact h.mapped k e he hk.1
  · obtain ⟨e, he, hkey⟩ := h.only k p hp
    exact ⟨e, hperm.mem_iff.mpr he, hkey⟩

end IndexedOff

def BinaryHeap.Indexed (hashFunc : UInt64 → UInt32) (heap : BinaryHeap δ) (off : ℕ → Prop) : Prop :=
  ∀ hm ∈ heap.keyIndex, hm.WellFormed hashFunc ∧
    IndexedOff (zbxHashmapGet hashFunc hm) heap.elems off

theorem BinaryHeap.Indexed.mono (h : heap.Indexed hashFunc off) (hoff : ∀ i, off i → off' i) :
    heap.Indexed hashFunc off' :=
  fun hm hhm => ⟨(h hm hhm).1, (h hm hhm).2.mono hoff⟩

@[simp]
theorem setIndex_elems : (heap.setIndex hashFunc index).elems = heap.elems := by
  unfold BinaryHeap.setIndex
  split <;> rfl

theorem setIndex_isSome :
    (heap.setIndex hashFunc index).keyIndex.isSome = heap.keyIndex.isSome := by
  unfold BinaryHeap.setIndex
  split <;> simp

variable (index) in
theorem setIndex_indexed (h : heap.Indexed hashFunc off) (hlt : index < heap.elems.length) :
    (heap.setIndex hashFunc index).Indexed hashFunc fun i => off i ∧ i ≠ index := by
  have helem := List.getElem?_eq_getElem hlt
  unfold BinaryHeap.setIndex
  rw [helem]
  intro hm' hhm'
  obtain ⟨hm, hhm, rfl⟩ := map_eq_some_iff.mp hhm'
  obtain ⟨hwf, hindex⟩ := h hm hhm
  refine ⟨(hwf.set_spec _ _).1, ?_⟩
  have hget : zbxHashmapGet hashFunc (zbxHashmapSet hashFunc hm heap.elems[index].key index) =
      fun k => if k = heap.elems[index].key then some index else zbxHashmapGet hashFunc hm k :=
    funext (hwf.get_set heap.elems[index].key index)
  show IndexedOff _ heap.elems _
  rw [hget]
  exact hindex.setIndex helem

@[simp]
theorem swap_elems : (swap hashFunc heap i j).elems = swapAt heap.elems i j := by simp [swap]

theorem swap_isSome : (swap hashFunc heap i j).keyIndex.isSome = heap.keyIndex.isSome := by
  rw [swap, setIndex_isSome, setIndex_isSome]

theorem swap_indexed (h : heap.Indexed hashFunc off) (hi : i < heap.elems.length)
    (hj : j < heap.elems.length) :
    (swap hashFunc heap i j).Indexed hashFunc fun k => off k ∧ k ≠ i ∧ k ≠ j := by
  have hswap : BinaryHeap.Indexed hashFunc { heap with elems := swapAt heap.elems i j }
      fun k => off k ∨ k = i ∨ k = j :=
    fun hm hhm => ⟨(h hm hhm).1, (h hm hhm).2.swapAt hi hj⟩
  have hset := setIndex_indexed j (setIndex_indexed i hswap (by simpa [length_swapAt]))
    (by simpa [length_swapAt])
  refine hset.mono ?_
  rintro k ⟨⟨hoff | rfl | rfl, hki⟩, hkj⟩
  · exact ⟨hoff, hki, hkj⟩
  · exact absurd rfl hki
  · exact absurd rfl hkj

def NotAfter (compareFunc : Elem δ → Elem δ → ℤ) (x y : Elem δ) : Prop := compareFunc x y ≤ 0

theorem leAt_of_not_after (h : heap.after compareFunc i j = false) :
    LeAt (NotAfter compareFunc) heap.elems i j := by
  intro x hx y hy
  unfold BinaryHeap.after at h
  rw [show heap.elems[i]? = some x from hx, show heap.elems[j]? = some y from hy] at h
  exact not_lt.mp (of_decide_eq_false h)

theorem leAt_of_after (hcmp : OrdersElems compareFunc) (h : heap.after compareFunc i j = true) :
    LeAt (NotAfter compareFunc) heap.elems j i := by
  intro y hy x hx
  unfold BinaryHeap.after at h
  rw [show heap.elems[i]? = some x from hx, show heap.elems[j]? = some y from hy] at h
  exact (hcmp.total x y).resolve_left (not_le.mpr (of_decide_eq_true h))

theorem leAt_refl (hcmp : OrdersElems compareFunc) (i : ℕ) :
    LeAt (NotAfter compareFunc) elems i i := by
  intro x hx y hy
  obtain rfl := mem_unique hx hy
  exact (hcmp.total x x).elim id id

structure Sifted (hashFunc : UInt64 → UInt32) (heap : BinaryHeap δ) (index : ℕ)
    (result : BinaryHeap δ × ℕ) : Prop where
  perm : result.1.elems.Perm heap.elems
  direct : result.1.keyIndex.isSome = heap.keyIndex.isSome
  same : result.2 = index → result.1 = heap
  indexed : result.2 ≠ index → heap.Indexed hashFunc (· = index) →
    result.1.Indexed hashFunc fun _ => False

theorem Sifted.refl (heap : BinaryHeap δ) (index : ℕ) : Sifted hashFunc heap index (heap, index) :=
  ⟨.refl _, rfl, fun _ => rfl, fun hne => absurd rfl hne⟩

variable {result : BinaryHeap δ × ℕ}

theorem Sifted.swap (hi : i < heap.elems.length) (hj : j < heap.elems.length)
    (hindex : index = i ∨ index = j) (hother : k ≠ index) (hres : result.2 ≠ index)
    (h : Sifted hashFunc (Algo.swap hashFunc heap i j) k result) :
    Sifted hashFunc heap index result := by
  have hswapped : heap.Indexed hashFunc (· = index) →
      (Algo.swap hashFunc heap i j).Indexed hashFunc fun _ => False := by
    intro hidx
    refine (swap_indexed hidx hi hj).mono ?_
    rintro p ⟨rfl, hpi, hpj⟩
    exact hindex.elim hpi hpj
  refine ⟨?_, h.direct.trans swap_isSome, fun hsame => absurd hsame hres, fun _ hidx => ?_⟩
  · have hperm := h.perm
    rw [swap_elems] at hperm
    exact hperm.trans (swapAt_perm hi hj)
  · by_cases hk : result.2 = k
    · rw [h.same hk]
      exact hswapped hidx
    · exact h.indexed hk ((hswapped hidx).mono fun _ hfalse => hfalse.elim)

variable (hashFunc heap index) in
theorem bubbleUp_spec (hcmp : OrdersElems compareFunc) (fuel : ℕ) (hfuel : index < fuel)
    (hlt : index < heap.elems.length) :
    Sifted hashFunc heap index (bubbleUp hashFunc compareFunc fuel heap index) ∧
    (bubbleUp hashFunc compareFunc fuel heap index).2 ≤ index ∧
    (HoleOrder (NotAfter compareFunc) heap.elems index →
      if (bubbleUp hashFunc compareFunc fuel heap index).2 = index
      then DownOrder (NotAfter compareFunc) heap.elems index
      else Ordered (NotAfter compareFunc) (bubbleUp hashFunc compareFunc fuel heap index).1.elems) ∧
    (UpOrder (NotAfter compareFunc) heap.elems index →
      Ordered (NotAfter compareFunc)
        (bubbleUp hashFunc compareFunc fuel heap index).1.elems) := by
  induction fuel generalizing heap index with
  | zero => omega
  | succ fuel ih =>
    rw [bubbleUp]
    by_cases hzero : index = 0
    · rw [if_pos hzero]
      refine ⟨.refl heap index, le_refl index, fun hhole => ?_, fun hup => ?_⟩
      · rw [if_pos rfl]
        exact ⟨hhole, fun hpos => absurd hzero (by omega)⟩
      · exact hup.ordered fun hpos => absurd hzero (by omega)
    rw [if_neg hzero]
    cases hafter : heap.after compareFunc ((index - 1) / 2) index with
    | false =>
      have hle := leAt_of_not_after hafter
      refine ⟨.refl heap index, le_refl index, fun hhole => ?_, fun hup => ?_⟩
      · exact (if_pos rfl).mpr ⟨hhole, fun _ => hle⟩
      · exact hup.ordered fun _ => hle
    | true =>
      have hle := leAt_of_after hcmp hafter
      have hp : (index - 1) / 2 < heap.elems.length := by omega
      obtain ⟨hsifted, hbound, -, hordered⟩ :=
        ih (swap hashFunc heap ((index - 1) / 2) index) ((index - 1) / 2)
          (by omega) (by rw [swap_elems, length_swapAt]; omega)
      have hmoved : (bubbleUp hashFunc compareFunc fuel
          (swap hashFunc heap ((index - 1) / 2) index) ((index - 1) / 2)).2 ≠ index := by omega
      rw [swap_elems] at hordered
      refine ⟨hsifted.swap hp hlt (.inr rfl) (by omega) hmoved, hbound.trans (by omega),
        fun hhole => ?_, fun hup => ?_⟩
      · exact (if_neg hmoved).mpr (hordered (hhole.up hcmp.trans (by omega) hlt hle))
      · exact hordered (hup.around.up hcmp.trans (by omega) hlt hle)

variable (hashFunc heap index) in
theorem bubbleDown_spec (hcmp : OrdersElems compareFunc) (fuel : ℕ)
    (hfuel : heap.elems.length ≤ index + fuel) (hlt : index < heap.elems.length) :
    Sifted hashFunc heap index (bubbleDown hashFunc compareFunc fuel heap index) ∧
    index ≤ (bubbleDown hashFunc compareFunc fuel heap index).2 ∧
    (DownOrder (NotAfter compareFunc) heap.elems index →
      Ordered (NotAfter compareFunc)
        (bubbleDown hashFunc compareFunc fuel heap index).1.elems) := by
  induction fuel generalizing heap index with
  | zero => omega
  | succ fuel ih =>
    -- the element goes down to a child that is not after its sibling
    have hloop {c : ℕ} (hc : c = 2 * index + 1 ∨ c = 2 * index + 2)
        (hclt : c < heap.elems.length) (hafter : heap.after compareFunc index c = true)
        (hleft : LeAt (NotAfter compareFunc) heap.elems c (2 * index + 1))
        (hright : LeAt (NotAfter compareFunc) heap.elems c (2 * index + 2)) :
        Sifted hashFunc heap index
            (bubbleDown hashFunc compareFunc fuel (swap hashFunc heap index c) c) ∧
          index ≤ (bubbleDown hashFunc compareFunc fuel (swap hashFunc heap index c) c).2 ∧
          (DownOrder (NotAfter compareFunc) heap.elems index →
            Ordered (NotAfter compareFunc)
              (bubbleDown hashFunc compareFunc fuel (swap hashFunc heap index c) c).1.elems) := by
      have hlength : (swap hashFunc heap index c).elems.length = heap.elems.length := by
        rw [swap_elems, length_swapAt]
      obtain ⟨hsifted, hbound, hordered⟩ := ih (swap hashFunc heap index c) c
        (by omega) (by omega)
      refine ⟨hsifted.swap hlt hclt (.inl rfl) (by omega) (by omega), by omega,
        fun hdown => hordered ?_⟩
      rw [swap_elems]
      exact hdown.toChild hc hclt (leAt_of_after hcmp hafter) hleft hright
    rw [bubbleDown]
    by_cases hleft : 2 * index + 1 ≥ heap.elems.length
    · rw [if_pos hleft]
      exact ⟨.refl heap index, le_refl index, fun hdown =>
        hdown.stop (leAt_of_length_le hleft) (leAt_of_length_le (by omega))⟩
    rw [if_neg hleft]
    by_cases hright : 2 * index + 2 ≥ heap.elems.length
    · rw [if_pos hright]
      cases hafter : heap.after compareFunc index (2 * index + 1) with
      | false =>
        exact ⟨.refl heap index, le_refl index, fun hdown =>
          hdown.stop (leAt_of_not_after hafter) (leAt_of_length_le hright)⟩
      | true =>
        have hlt' : 2 * index + 1 < heap.elems.length := by omega
        refine ⟨.swap hlt hlt' (.inl rfl) (by omega) (show 2 * index + 1 ≠ index by omega)
          (.refl _ (2 * index + 1)), show index ≤ 2 * index + 1 by omega, fun hdown => ?_⟩
        have hend := hdown.toChild (.inl rfl) hlt' (leAt_of_after hcmp hafter)
          (leAt_refl hcmp _) (leAt_of_length_le hright)
        show Ordered _ (swap hashFunc heap index (2 * index + 1)).elems
        rw [swap_elems]
        exact hend.stop (leAt_of_length_le (by rw [length_swapAt]; omega))
          (leAt_of_length_le (by rw [length_swapAt]; omega))
    rw [if_neg hright]
    cases hchildren : heap.after compareFunc (2 * index + 1) (2 * index + 2) with
    | false =>
      have hle := leAt_of_not_after hchildren
      cases hafter : heap.after compareFunc index (2 * index + 1) with
      | false =>
        have hstay := leAt_of_not_after hafter
        exact ⟨.refl heap index, le_refl index, fun hdown =>
          hdown.stop hstay (hstay.trans hcmp.trans hle (by omega))⟩
      | true => exact hloop (.inl rfl) (by omega) hafter (leAt_refl hcmp _) hle
    | true =>
      have hle := leAt_of_after hcmp hchildren
      cases hafter : heap.after compareFunc index (2 * index + 2) with
      | false =>
        have hstay := leAt_of_not_after hafter
        exact ⟨.refl heap index, le_refl index, fun hdown =>
          hdown.stop (hstay.trans hcmp.trans hle (by omega)) hstay⟩
      | true => exact hloop (.inr rfl) (by omega) hafter hle (leAt_refl hcmp _)

structure BinaryHeap.WellFormed (hashFunc : UInt64 → UInt32)
    (compareFunc : Elem δ → Elem δ → ℤ) (heap : BinaryHeap δ) : Prop where
  ordered : Ordered (NotAfter compareFunc) heap.elems
  indexed : heap.Indexed hashFunc fun _ => False

theorem perm_set (h : elems[index]? = some elem) :
    ∃ rest, elems.Perm (elem :: rest) ∧ ∀ e, (elems.set index e).Perm (e :: rest) := by
  obtain ⟨hlt, rfl⟩ := List.getElem?_eq_some_iff.mp h
  exact ⟨elems.eraseIdx index, (getElem_cons_eraseIdx_perm hlt).symm,
    fun e => set_perm_cons_eraseIdx hlt e⟩

variable {last : Elem δ}

theorem perm_replace (h : elems[index]? = some elem) (hlast : elems.getLast? = some last) :
    elems.Perm (elem :: elems.dropLast.set index last) := by
  have hsplit := perm_append_singleton last elems.dropLast
  rw [dropLast_append_getLast? last hlast] at hsplit
  have hlt := (List.getElem?_eq_some_iff.mp h).1
  by_cases hindex : index = elems.length - 1
  · rw [getLast?_eq_getElem?, ← hindex, h] at hlast
    obtain rfl := Option.some.inj hlast
    rw [set_eq_of_length_le (by rw [length_dropLast]; omega)]
    exact hsplit
  · have h' : elems.dropLast[index]? = some elem := by
      rw [List.getElem?_dropLast, if_pos (by omega), h]
    obtain ⟨rest, hrest, hset⟩ := perm_set h'
    exact hsplit.trans ((hrest.cons last).trans
      ((Perm.swap _ _ _).trans ((hset last).symm.cons elem)))

theorem Sifted.finish (h : Sifted hashFunc heap index result)
    (hindexed : heap.Indexed hashFunc (· = index)) (hlt : index < heap.elems.length) :
    (if index = result.2 then result.1.setIndex hashFunc index else result.1).Indexed hashFunc
      fun _ => False := by
  split_ifs with hsame
  · rw [h.same hsame.symm]
    exact (setIndex_indexed _ hindexed hlt).mono fun i hi => hi.2 hi.1
  · exact h.indexed (Ne.symm hsame) hindexed

theorem setIndex_if_elems :
    (if index = result.2 then result.1.setIndex hashFunc index else result.1).elems =
      result.1.elems := by
  split_ifs
  · exact setIndex_elems
  · rfl

theorem setIndex_if_isSome :
    (if index = result.2 then result.1.setIndex hashFunc index
      else result.1).keyIndex.isSome = result.1.keyIndex.isSome := by
  split_ifs
  · exact setIndex_isSome
  · rfl

variable (elem) in
theorem append_indexed (h : heap.Indexed hashFunc fun _ => False)
    (hnew : heap.find hashFunc elem.key = none) :
    BinaryHeap.Indexed hashFunc { heap with elems := heap.elems ++ [elem] }
      (· = heap.elems.length) := by
  intro hm hhm
  obtain ⟨hwf, hidx⟩ := h hm hhm
  rw [BinaryHeap.find, show heap.keyIndex = some hm from hhm, bind_some] at hnew
  refine ⟨hwf, ?_, fun i e he hi => ?_, fun k i hk => ?_⟩
  · rw [map_append, nodup_append]
    refine ⟨hidx.keys, nodup_singleton _, fun k hk k' hk' => ?_⟩
    rw [mem_singleton.mp hk']
    rintro rfl
    obtain ⟨e, he, hkey⟩ := List.mem_map.mp hk
    obtain ⟨i, hi⟩ := mem_iff_getElem?.mp he
    have hsome := hidx.mapped i e hi id
    rw [hkey, hnew] at hsome
    cases hsome
  · have hlt := (List.getElem?_eq_some_iff.mp he).1
    simp only [length_append, length_singleton] at hlt
    rw [List.getElem?_append_left (by omega)] at he
    exact hidx.mapped i e he id
  · obtain ⟨e, he, hkey⟩ := hidx.only k i hk
    exact ⟨e, mem_append_left _ he, hkey⟩

variable {old : Elem δ}

theorem set_indexed (h : heap.Indexed hashFunc fun _ => False)
    (hold : heap.elems[index]? = some old) (hkey : old.key = elem.key) :
    BinaryHeap.Indexed hashFunc { heap with elems := heap.elems.set index elem }
      fun _ => False := by
  have hkeys : (heap.elems.set index elem).map Elem.key = heap.elems.map Elem.key := by
    obtain ⟨hlt, rfl⟩ := List.getElem?_eq_some_iff.mp hold
    rw [map_set, ← hkey]
    apply ext_getElem?
    intro i
    rw [List.getElem?_set, List.getElem?_map]
    split_ifs with hi hlen
    · subst hi
      rw [List.getElem?_eq_getElem hlt]
      rfl
    · exact absurd (by simpa using hlt) hlen
    · rfl
  intro hm hhm
  obtain ⟨hwf, hidx⟩ := h hm hhm
  have hmapped {i : ℕ} {e : Elem δ} (he : (heap.elems.set index elem)[i]? = some e) :
      ∃ e' ∈ heap.elems[i]?, e'.key = e.key := by
    have hk : (heap.elems.map Elem.key)[i]? = some e.key := by
      rw [← hkeys, List.getElem?_map, he]
      rfl
    rw [List.getElem?_map] at hk
    exact map_eq_some_iff.mp hk
  refine ⟨hwf, by rw [hkeys]; exact hidx.keys, fun i e he hi => ?_, fun k i hk => ?_⟩
  · obtain ⟨e', he', hsame⟩ := hmapped he
    rw [← hsame]
    exact hidx.mapped i e' he' hi
  · have hk' : k ∈ (heap.elems.set index elem).map Elem.key := by
      rw [hkeys]
      exact List.mem_map.mpr (hidx.only k i hk)
    exact List.mem_map.mp hk'

theorem replace_indexed (h : heap.Indexed hashFunc fun _ => False)
    (hold : heap.elems[index]? = some old) (hlast : heap.elems.getLast? = some last) :
    BinaryHeap.Indexed hashFunc ⟨heap.elems.dropLast.set index last,
      (heap.removeKey hashFunc old.key).keyIndex⟩ (· = index) := by
  intro hm' hhm'
  obtain ⟨hm, hhm, rfl⟩ := map_eq_some_iff.mp hhm'
  obtain ⟨hwf, hidx⟩ := h hm hhm
  have hperm := perm_replace hold hlast
  have hkeys := (hperm.map Elem.key).nodup_iff.mp hidx.keys
  refine ⟨(hwf.remove_spec _).1, (nodup_cons.mp hkeys).2, fun i e he hi => ?_, fun k i hk => ?_⟩
  · have hmem := mem_of_getElem? he
    have hne : e.key ≠ old.key := fun heq =>
      (nodup_cons.mp hkeys).1 (List.mem_map.mpr ⟨e, hmem, heq⟩)
    rw [hwf.get_remove, if_neg hne]
    rw [List.getElem?_set_ne (Ne.symm hi), List.getElem?_dropLast] at he
    split at he
    · exact hidx.mapped i e he id
    · cases he
  · rw [hwf.get_remove] at hk
    split_ifs at hk with hkey
    obtain ⟨e, he, rfl⟩ := hidx.only k i hk
    rcases mem_cons.mp (hperm.mem_iff.mp he) with rfl | he
    · exact absurd rfl hkey
    · exact ⟨e, he, rfl⟩

variable (hashFunc) in
theorem replaceByLast_eq (hlt : index < heap.elems.length) (key : UInt64) :
    ∃ last, heap.elems.getLast? = some last ∧
      (heap.removeKey hashFunc key).replaceByLast index =
        ⟨heap.elems.dropLast.set index last, (heap.removeKey hashFunc key).keyIndex⟩ := by
  have hne : heap.elems ≠ [] := ne_nil_of_length_pos (by omega)
  refine ⟨heap.elems.getLast hne, getLast?_eq_some_getLast hne, ?_⟩
  rw [BinaryHeap.replaceByLast, show (heap.removeKey hashFunc key).elems = heap.elems from rfl,
    getLast?_eq_some_getLast hne]

theorem coe_of_perm {rest : List (Elem δ)} (h : elems.Perm (elem :: rest)) :
    (elems : Multiset (Elem δ)) = elem ::ₘ (rest : Multiset (Elem δ)) :=
  Multiset.coe_eq_coe.mpr h

theorem perm_taken (hold : heap.elems[index]? = some old) (hlast : heap.elems.getLast? = some last)
    (hperm : heap'.elems.Perm (heap.elems.dropLast.set index last)) :
    heap.elems.Perm (old :: heap'.elems) :=
  (perm_replace hold hlast).trans (hperm.symm.cons old)

namespace BinaryHeap.WellFormed

variable (h : heap.WellFormed hashFunc compareFunc)

include h

theorem find_eq_some (hfind : heap.find hashFunc key = some index) :
    ∃ old, heap.elems[index]? = some old ∧ old.key = key := by
  obtain ⟨hm, hhm, hget⟩ := bind_eq_some_iff.mp hfind
  exact ((h.indexed hm hhm).2.find_eq_some_iff _ _).mp hget

theorem insert_spec (hcmp : OrdersElems compareFunc)
    (hinsert : zbxBinaryHeapInsert hashFunc compareFunc heap elem = some heap') :
    heap'.WellFormed hashFunc compareFunc ∧ heap'.elems.Perm (elem :: heap.elems) ∧
      heap'.keyIndex.isSome = heap.keyIndex.isSome := by
  unfold zbxBinaryHeapInsert at hinsert
  split at hinsert
  · cases hinsert
  · next hfind =>
    have hlt : heap.elems.length < (heap.elems ++ [elem]).length := by simp
    have hstart := append_indexed elem h.indexed (by simpa using hfind)
    obtain ⟨hsifted, -, -, hordered⟩ := bubbleUp_spec hashFunc
      { heap with elems := heap.elems ++ [elem] } heap.elems.length hcmp (heap.elems.length + 1)
      (Nat.lt_succ_self _) hlt
    unfold BinaryHeap.bubbleUp at hinsert
    generalize Algo.bubbleUp hashFunc compareFunc (heap.elems.length + 1)
      { heap with elems := heap.elems ++ [elem] } heap.elems.length = result
      at hinsert hsifted hordered
    have hperm := hsifted.perm.trans (perm_append_singleton elem heap.elems)
    have hlast : result.1.elems.length - 1 = heap.elems.length := by
      rw [hperm.length_eq]
      rfl
    dsimp only at hinsert
    rw [hlast] at hinsert
    have hresult : heap' = if heap.elems.length = result.2
        then result.1.setIndex hashFunc heap.elems.length else result.1 := by
      split_ifs at hinsert ⊢ with hsame hsame' hsame'
      · rw [← Option.some.inj hinsert, hsame]
      · exact absurd hsame.symm hsame'
      · exact absurd hsame'.symm hsame
      · exact (Option.some.inj hinsert).symm
    rw [hresult]
    have hord := hordered (h.ordered.append elem)
    refine ⟨⟨?_, hsifted.finish hstart hlt⟩, ?_, ?_⟩
    · rw [setIndex_if_elems]
      exact hord
    · rw [setIndex_if_elems]
      exact hperm
    · rw [setIndex_if_isSome]
      exact hsifted.direct

theorem updateDirect_spec (hcmp : OrdersElems compareFunc)
    (hupdate : zbxBinaryHeapUpdateDirect hashFunc compareFunc heap elem = some heap') :
    heap'.WellFormed hashFunc compareFunc ∧ heap'.keyIndex.isSome = heap.keyIndex.isSome ∧
      ∃ old rest, old.key = elem.key ∧ heap.elems.Perm (old :: rest) ∧
        heap'.elems.Perm (elem :: rest) := by
  obtain ⟨index, hfind, hresult⟩ := map_eq_some_iff.mp hupdate
  obtain ⟨old, hold, hkey⟩ := h.find_eq_some hfind
  have hlt := (List.getElem?_eq_some_iff.mp hold).1
  have hlt' : index < (heap.elems.set index elem).length := by rwa [length_set]
  obtain ⟨rest, hrest, hset⟩ := perm_set hold
  have hstart := set_indexed h.indexed hold hkey
  have hhole := h.ordered.set (x := elem) hcmp.trans hlt
  obtain ⟨hsifted, -, hup, -⟩ := bubbleUp_spec hashFunc
    { heap with elems := heap.elems.set index elem } index hcmp (index + 1)
    (Nat.lt_succ_self _) hlt'
  unfold BinaryHeap.bubbleUp at hresult
  generalize Algo.bubbleUp hashFunc compareFunc (index + 1)
    { heap with elems := heap.elems.set index elem } index = result at hresult hsifted hup
  have horder := hup hhole
  dsimp only at hresult
  by_cases hsame : index = result.2
  · rw [if_pos hsame] at hresult
    rw [if_pos hsame.symm] at horder
    rw [hsifted.same hsame.symm] at hresult
    obtain ⟨hdown, -, hordered⟩ := bubbleDown_spec hashFunc
      { heap with elems := heap.elems.set index elem } index hcmp
      (heap.elems.set index elem).length (by dsimp only; omega) hlt'
    unfold BinaryHeap.bubbleDown at hresult
    generalize Algo.bubbleDown hashFunc compareFunc (heap.elems.set index elem).length
      { heap with elems := heap.elems.set index elem } index = moved
      at hresult hdown hordered
    rw [← hresult]
    refine ⟨⟨hordered horder, ?_⟩, hdown.direct, old, rest, hkey, hrest,
      hdown.perm.trans (hset elem)⟩
    by_cases hmoved : moved.2 = index
    · rw [hdown.same hmoved]
      exact hstart
    · exact hdown.indexed hmoved (hstart.mono fun _ hfalse => hfalse.elim)
  · rw [if_neg hsame] at hresult
    rw [if_neg (Ne.symm hsame)] at horder
    rw [← hresult]
    exact ⟨⟨horder, hsifted.indexed (Ne.symm hsame) (hstart.mono fun _ hfalse => hfalse.elim)⟩,
      hsifted.direct, old, rest, hkey, hrest, hsifted.perm.trans (hset elem)⟩

theorem replaced_hole (hcmp : OrdersElems compareFunc) (last : Elem δ)
    (hlt : index < heap.elems.dropLast.length) :
    HoleOrder (NotAfter compareFunc) (heap.elems.dropLast.set index last) index :=
  h.ordered.dropLast.set hcmp.trans hlt

theorem dropLast_wellFormed (hold : heap.elems[index]? = some old)
    (hindex : index = heap.elems.length - 1) :
    BinaryHeap.WellFormed hashFunc compareFunc
        ⟨heap.elems.dropLast, (heap.removeKey hashFunc old.key).keyIndex⟩ ∧
      heap.elems.Perm (old :: heap.elems.dropLast) := by
  have hlast : heap.elems.getLast? = some old := by rw [getLast?_eq_getElem?, ← hindex, hold]
  have hset : heap.elems.dropLast.set index old = heap.elems.dropLast :=
    set_eq_of_length_le (by rw [length_dropLast]; omega)
  have hindexed := replace_indexed h.indexed hold hlast
  have hperm := perm_replace hold hlast
  rw [hset] at hindexed hperm
  refine ⟨⟨h.ordered.dropLast, fun hm hhm => ⟨(hindexed hm hhm).1, (hindexed hm hhm).2.keys,
    fun i e he _ => (hindexed hm hhm).2.mapped i e he ?_, (hindexed hm hhm).2.only⟩⟩, hperm⟩
  have hlt := (List.getElem?_eq_some_iff.mp he).1
  simp only [length_dropLast] at hlt
  omega

theorem removeMin_spec (hcmp : OrdersElems compareFunc)
    (hremove : zbxBinaryHeapRemoveMin hashFunc compareFunc heap = some heap') :
    heap'.WellFormed hashFunc compareFunc ∧ heap'.keyIndex.isSome = heap.keyIndex.isSome ∧
      ∃ min, heap.elems.Perm (min :: heap'.elems) ∧ ∀ x ∈ heap.elems, compareFunc min x ≤ 0 := by
  obtain ⟨min, hmin, hresult⟩ := map_eq_some_iff.mp hremove
  have hfirst : ∀ x ∈ heap.elems, compareFunc min x ≤ 0 := by
    intro x hx
    obtain ⟨i, hi⟩ := mem_iff_getElem?.mp hx
    exact h.ordered.leAt hcmp.trans (fun a => (hcmp.total a a).elim id id) i min hmin x hi
  have hlt := (List.getElem?_eq_some_iff.mp hmin).1
  have hlength : (heap.removeKey hashFunc min.key).elems.length = heap.elems.length := rfl
  dsimp only at hresult
  rw [hlength] at hresult
  by_cases hone : heap.elems.length - 1 ≠ 0
  · rw [if_pos hone] at hresult
    obtain ⟨last, hlast, hreplace⟩ := replaceByLast_eq hashFunc hlt min.key
    have hlt' : 0 < heap.elems.dropLast.length := by rw [length_dropLast]; omega
    have hstart := replace_indexed h.indexed hmin hlast
    obtain ⟨hsifted, -, hordered⟩ := bubbleDown_spec hashFunc
      ⟨heap.elems.dropLast.set 0 last, (heap.removeKey hashFunc min.key).keyIndex⟩ 0 hcmp
      (heap.elems.dropLast.set 0 last).length (by dsimp only; omega) (by rwa [length_set])
    rw [hreplace] at hresult
    unfold BinaryHeap.bubbleDown at hresult
    generalize Algo.bubbleDown hashFunc compareFunc _ _ 0 = result at hresult hsifted hordered
    have hend : heap' = if 0 = result.2 then result.1.setIndex hashFunc 0 else result.1 := by
      rw [← hresult]
      split_ifs with hsame hsame' hsame'
      · rw [hsame]
      · exact absurd hsame.symm hsame'
      · exact absurd hsame'.symm hsame
      · rfl
    rw [hend]
    refine ⟨⟨?_, hsifted.finish hstart (by rwa [length_set])⟩, ?_, min, ?_, hfirst⟩
    · rw [setIndex_if_elems]
      exact hordered ⟨h.replaced_hole hcmp last hlt', fun hpos => absurd hpos (lt_irrefl 0)⟩
    · rw [setIndex_if_isSome, hsifted.direct]
      simp [BinaryHeap.removeKey]
    · refine perm_taken hmin hlast ?_
      rw [setIndex_if_elems]
      exact hsifted.perm
  · rw [if_neg hone] at hresult
    obtain ⟨hwf, hperm⟩ := h.dropLast_wellFormed hmin (by omega)
    rw [← hresult]
    exact ⟨hwf, by simp [BinaryHeap.removeKey], min, hperm, hfirst⟩

theorem removeDirect_spec (hcmp : OrdersElems compareFunc)
    (hremove : zbxBinaryHeapRemoveDirect hashFunc compareFunc heap key = some heap') :
    heap'.WellFormed hashFunc compareFunc ∧ heap'.keyIndex.isSome = heap.keyIndex.isSome ∧
      ∃ old, old.key = key ∧ heap.elems.Perm (old :: heap'.elems) := by
  obtain ⟨index, hfind, hresult⟩ := map_eq_some_iff.mp hremove
  obtain ⟨old, hold, rfl⟩ := h.find_eq_some hfind
  have hlt := (List.getElem?_eq_some_iff.mp hold).1
  have hlength : (heap.removeKey hashFunc old.key).elems.length = heap.elems.length := rfl
  have hdirect : (heap.removeKey hashFunc old.key).keyIndex.isSome = heap.keyIndex.isSome := by
    simp [BinaryHeap.removeKey]
  dsimp only at hresult
  rw [hlength] at hresult
  by_cases hindex : index ≠ heap.elems.length - 1
  · rw [if_pos hindex] at hresult
    obtain ⟨last, hlast, hreplace⟩ := replaceByLast_eq hashFunc hlt old.key
    have hlt' : index < heap.elems.dropLast.length := by rw [length_dropLast]; omega
    have hlt'' : index < (heap.elems.dropLast.set index last).length := by rwa [length_set]
    have hstart := replace_indexed h.indexed hold hlast
    have hhole := h.replaced_hole hcmp last hlt'
    obtain ⟨hsifted, -, hup, -⟩ := bubbleUp_spec hashFunc
      ⟨heap.elems.dropLast.set index last, (heap.removeKey hashFunc old.key).keyIndex⟩ index
      hcmp (index + 1) (Nat.lt_succ_self _) hlt''
    rw [hreplace] at hresult
    unfold BinaryHeap.bubbleUp at hresult
    generalize Algo.bubbleUp hashFunc compareFunc _ _ _ = result at hresult hsifted hup
    have horder := hup hhole
    by_cases hsame : index = result.2
    · rw [if_pos hsame, hsifted.same hsame.symm] at hresult
      rw [if_pos hsame.symm] at horder
      obtain ⟨hdown, -, hordered⟩ := bubbleDown_spec hashFunc
        ⟨heap.elems.dropLast.set index last,
          (heap.removeKey hashFunc old.key).keyIndex⟩ index hcmp
        (heap.elems.dropLast.set index last).length (by dsimp only; omega) hlt''
      unfold BinaryHeap.bubbleDown at hresult
      generalize Algo.bubbleDown hashFunc compareFunc _ _ _ = moved at hresult hdown hordered
      rw [← hresult]
      refine ⟨⟨?_, hdown.finish hstart hlt''⟩, ?_, old, rfl, ?_⟩
      · rw [setIndex_if_elems]
        exact hordered horder
      · rw [setIndex_if_isSome]
        exact hdown.direct.trans hdirect
      · refine perm_taken hold hlast ?_
        rw [setIndex_if_elems]
        exact hdown.perm
    · rw [if_neg hsame] at hresult
      rw [if_neg (Ne.symm hsame)] at horder
      rw [← hresult]
      exact ⟨⟨horder, hsifted.indexed (Ne.symm hsame) hstart⟩, hsifted.direct.trans hdirect, old,
        rfl, perm_taken hold hlast hsifted.perm⟩
  · rw [if_neg hindex] at hresult
    obtain ⟨hwf, hperm⟩ := h.dropLast_wellFormed hold (by omega)
    rw [← hresult]
    exact ⟨hwf, hdirect, old, rfl, hperm⟩

theorem clear_spec : (zbxBinaryHeapClear heap).WellFormed hashFunc compareFunc := by
  refine ⟨fun i _ => leAt_of_length_le (Nat.zero_le _), fun hm' hhm' => ?_⟩
  obtain ⟨hm, hhm, rfl⟩ := map_eq_some_iff.mp hhm'
  obtain ⟨hwf, -⟩ := h.indexed hm hhm
  refine ⟨hwf.clear_wellFormed, nodup_nil, fun i e he => ?_, fun k i hk => ?_⟩
  · rw [zbxBinaryHeapClear, List.getElem?_nil] at he
    cases he
  · rw [get_clear hwf] at hk
    cases hk

theorem apply_spec (hcmp : OrdersElems compareFunc) {op : HeapOperation δ}
    (happly : op.apply hashFunc compareFunc heap = some heap') :
    heap'.WellFormed hashFunc compareFunc ∧ heap'.keyIndex.isSome = heap.keyIndex.isSome ∧
      MultisetStep compareFunc heap.contents op heap'.contents := by
  unfold BinaryHeap.contents
  cases op with
  | insert elem =>
    obtain ⟨hwf, hperm, hdirect⟩ := h.insert_spec hcmp happly
    rw [coe_of_perm hperm]
    exact ⟨hwf, hdirect, .insert⟩
  | updateDirect elem =>
    obtain ⟨hwf, hdirect, old, rest, hkey, hold, hnew⟩ := h.updateDirect_spec hcmp happly
    rw [coe_of_perm hold, coe_of_perm hnew]
    exact ⟨hwf, hdirect, .updateDirect hkey⟩
  | removeMin =>
    obtain ⟨hwf, hdirect, min, hperm, hmin⟩ := h.removeMin_spec hcmp happly
    rw [coe_of_perm hperm]
    exact ⟨hwf, hdirect, .removeMin fun x hx => hmin x (hperm.mem_iff.mpr (mem_cons_of_mem min hx))⟩
  | removeDirect key =>
    obtain ⟨hwf, hdirect, old, rfl, hperm⟩ := h.removeDirect_spec hcmp happly
    rw [coe_of_perm hperm]
    exact ⟨hwf, hdirect, .removeDirect⟩
  | clear =>
    obtain rfl := Option.some.inj happly
    exact ⟨h.clear_spec, by simp [zbxBinaryHeapClear], .clear⟩

theorem apply_eq_none_iff (hdirect : heap.keyIndex.isSome) (op : HeapOperation δ) :
    op.apply hashFunc compareFunc heap = none ↔ op.Ends heap.contents := by
  obtain ⟨hm, hhm⟩ := isSome_iff_exists.mp hdirect
  have hfind (key : UInt64) :
      (∃ e ∈ heap.contents, e.key = key) ↔ (heap.find hashFunc key).isSome = true := by
    rw [isSome_iff_exists, BinaryHeap.find, hhm]
    constructor
    · rintro ⟨e, he, hkey⟩
      obtain ⟨i, hi⟩ := mem_iff_getElem?.mp he
      exact ⟨i, ((h.indexed hm hhm).2.find_eq_some_iff key i).mpr ⟨e, hi, hkey⟩⟩
    · rintro ⟨i, hi⟩
      obtain ⟨e, he, hkey⟩ := ((h.indexed hm hhm).2.find_eq_some_iff key i).mp hi
      exact ⟨e, mem_of_getElem? he, hkey⟩
  cases op with
  | insert elem =>
    rw [HeapOperation.apply, HeapOperation.Ends, hfind, zbxBinaryHeapInsert]
    by_cases hsome : (heap.find hashFunc elem.key).isSome = true
    · rw [if_pos hsome]
      exact ⟨fun _ => hsome, fun _ => rfl⟩
    · rw [if_neg hsome]
      dsimp only
      split_ifs <;> simp [hsome]
  | updateDirect elem =>
    rw [HeapOperation.apply, HeapOperation.Ends, hfind, zbxBinaryHeapUpdateDirect, map_eq_none_iff]
    simp
  | removeMin =>
    rw [HeapOperation.apply, HeapOperation.Ends, zbxBinaryHeapRemoveMin, map_eq_none_iff,
      BinaryHeap.contents]
    simp
  | removeDirect key =>
    rw [HeapOperation.apply, HeapOperation.Ends, hfind, zbxBinaryHeapRemoveDirect, map_eq_none_iff]
    simp
  | clear => simp [HeapOperation.apply, HeapOperation.Ends]

end BinaryHeap.WellFormed

theorem create_wellFormed (direct : Bool) :
    (zbxBinaryHeapCreate direct : BinaryHeap δ).WellFormed hashFunc compareFunc := by
  refine ⟨fun i _ => leAt_of_length_le (Nat.zero_le _), fun hm hhm => ?_⟩
  obtain ⟨numSlots, hinit, -⟩ := initMap_eq 512
  have hnew : hm = zbxHashmapInitSlots 512 := by
    unfold zbxBinaryHeapCreate at hhm
    split_ifs at hhm
    · exact (Option.some.inj hhm).symm
    · cases hhm
  rw [hnew, hinit]
  refine ⟨emptyMap_wellFormed numSlots 0, nodup_nil, fun i e he => ?_, fun k i hk => ?_⟩
  · rw [zbxBinaryHeapCreate, List.getElem?_nil] at he
    cases he
  · rw [get_emptyMap] at hk
    cases hk

theorem run_wellFormed (hcmp : OrdersElems compareFunc) {ops : List (HeapOperation δ)}
    (h : heap.WellFormed hashFunc compareFunc)
    (hrun : Transition.run (HeapOperation.apply hashFunc compareFunc) heap ops = some heap') :
    heap'.WellFormed hashFunc compareFunc ∧ heap'.keyIndex.isSome = heap.keyIndex.isSome ∧
      MultisetRun compareFunc heap.contents ops heap'.contents := by
  induction ops generalizing heap with
  | nil =>
    obtain rfl := Option.some.inj hrun
    exact ⟨h, rfl, .nil⟩
  | cons op ops ih =>
    obtain ⟨heap₁, happly, hrest⟩ := bind_eq_some_iff.mp hrun
    obtain ⟨h₁, hdirect₁, hstep⟩ := h.apply_spec hcmp happly
    obtain ⟨h', hdirect, hsteps⟩ := ih h₁ hrest
    exact ⟨h', hdirect.trans hdirect₁, .cons hstep hsteps⟩

/-- After any operations a heap with the direct option is in order and holds what was inserted
and not removed, and its key index gives exactly the positions of its keys. -/
theorem directHeap_run (hcmp : OrdersElems compareFunc) {ops : List (HeapOperation δ)}
    (hrun : Transition.run (HeapOperation.apply hashFunc compareFunc)
      (zbxBinaryHeapCreate true) ops = some heap) :
    MultisetRun compareFunc 0 ops heap.contents ∧
      (∀ i x y, 0 < i → heap.elems[(i - 1) / 2]? = some x → heap.elems[i]? = some y →
        compareFunc x y ≤ 0) ∧
      (∃ hm, heap.keyIndex = some hm ∧ ∀ k i, zbxHashmapGet hashFunc hm k = some i ↔
        ∃ e, heap.elems[i]? = some e ∧ e.key = k) ∧
      (heap.contents ≠ 0 → ∃ min ∈ heap.contents, zbxBinaryHeapFindMin heap = some min ∧
        ∀ x ∈ heap.contents, compareFunc min x ≤ 0) := by
  obtain ⟨h, hdirect, hsteps⟩ := run_wellFormed hcmp (create_wellFormed true) hrun
  refine ⟨hsteps, fun i x y hi hx hy => h.ordered i hi x hx y hy, ?_, fun hne => ?_⟩
  · obtain ⟨hm, hhm⟩ := isSome_iff_exists.mp hdirect
    exact ⟨hm, hhm, (h.indexed hm hhm).2.find_eq_some_iff⟩
  · have hpos : 0 < heap.elems.length :=
      length_pos_iff.mpr fun hnil => hne (by rw [BinaryHeap.contents, hnil]; rfl)
    have hmin := List.getElem?_eq_getElem hpos
    refine ⟨heap.elems[0], getElem_mem hpos, hmin, fun x hx => ?_⟩
    obtain ⟨i, hi⟩ := mem_iff_getElem?.mp hx
    exact h.ordered.leAt hcmp.trans (fun a => (hcmp.total a a).elim id id) i _ hmin x hi

def compareData (x y : Elem ℤ) : ℤ := x.data - y.data

theorem compareData_orders : OrdersElems compareData := by
  refine ⟨fun x y => ?_, fun x y z hxy hyz => ?_⟩ <;> unfold compareData at * <;> omega

def dataOperations : List (HeapOperation ℤ) :=
  [.insert ⟨1, 5⟩, .insert ⟨2, 3⟩, .insert ⟨3, 4⟩, .updateDirect ⟨2, 9⟩, .insert ⟨4, 1⟩,
    .removeDirect 3, .removeMin]

theorem directHeap_run_dataOperations :
    ∃ heap, Transition.run (HeapOperation.apply UInt64.toUInt32 compareData)
        (zbxBinaryHeapCreate true) dataOperations = some heap ∧
      MultisetRun compareData 0 dataOperations heap.contents := by
  obtain ⟨heap, hheap⟩ := isSome_iff_exists.mp
    (show (Transition.run (HeapOperation.apply UInt64.toUInt32 compareData)
      (zbxBinaryHeapCreate true) dataOperations).isSome = true by decide)
  exact ⟨heap, hheap, (directHeap_run compareData_orders hheap).1⟩

/-- After any operations a heap with the direct option ends the process exactly on an operation
that `HeapOperation.Ends` names. -/
theorem directHeap_ends (hcmp : OrdersElems compareFunc) (ops : List (HeapOperation δ))
    (hrun : Transition.run (HeapOperation.apply hashFunc compareFunc)
      (zbxBinaryHeapCreate true) ops = some heap) (op : HeapOperation δ) :
    op.apply hashFunc compareFunc heap = none ↔ op.Ends heap.contents := by
  obtain ⟨h, hdirect, -⟩ := run_wellFormed hcmp (create_wellFormed true) hrun
  exact h.apply_eq_none_iff hdirect op

theorem directHeap_ends_dataOperations :
    ∃ heap, Transition.run (HeapOperation.apply UInt64.toUInt32 compareData)
        (zbxBinaryHeapCreate true) dataOperations = some heap ∧
      ∀ op : HeapOperation ℤ, op.apply UInt64.toUInt32 compareData heap = none ↔
        op.Ends heap.contents := by
  obtain ⟨heap, hheap⟩ := isSome_iff_exists.mp
    (show (Transition.run (HeapOperation.apply UInt64.toUInt32 compareData)
      (zbxBinaryHeapCreate true) dataOperations).isSome = true by decide)
  exact ⟨heap, hheap, directHeap_ends compareData_orders dataOperations hheap⟩

end Zabbix.Algo
