import Zabbix.Trends.Operations

/-!
# Invalidation in the trend function cache

The loop over the values of an item frees entries of the ring it walks.
-/

namespace Zabbix.Trends

open List Tfc

variable {D : Type} {c c' : Tfc D} {lru free : List ℕ} {vals : ℕ → List ℕ} {i root item : ℕ}
variable {rest : List ℕ} {clock : ℤ}

def Key.Covers (k : Key) (trend : DcTrend) : Prop :=
  k.itemid = trend.itemid ∧ k.start ≤ trend.clock ∧ trend.clock ≤ k.finish

instance (k : Key) (trend : DcTrend) : Decidable (k.Covers trend) :=
  inferInstanceAs (Decidable (_ ∧ _ ∧ _))

theorem covers_eq_true_iff (c : Tfc D) (i : ℕ) (clock : ℤ) :
    (c.slots i).covers clock = true ↔ (c.key i).Covers ⟨c.itemid i, clock⟩ := by
  unfold TfcData.covers Key.Covers
  rw [Bool.and_eq_true, decide_eq_true_iff, decide_eq_true_iff]
  exact (and_iff_right rfl).symm

structure Ahead (c : Tfc D) (root item : ℕ) (clock : ℤ) (rest lru : List ℕ) (vals : ℕ → List ℕ) :
    Prop where
  done : ∀ i ∈ lru, c.itemid i = item → i ∈ rest ∨ ¬ (c.key i).Covers ⟨item, clock⟩
  root : rest ≠ [] → c.Root root ∧ c.itemid root = item ∧ ∃ kept, vals root = kept ++ rest

theorem Ahead.skip (h : Ahead c root item clock (i :: rest) lru vals)
    (hkeep : ¬ (c.key i).Covers ⟨item, clock⟩) : Ahead c root item clock rest lru vals := by
  refine ⟨fun j hj hitem => ?_, fun _ => ?_⟩
  · obtain hmem | hkeep' := h.done j hj hitem
    · obtain rfl | hmem := mem_cons.mp hmem
      · exact .inr hkeep
      · exact .inl hmem
    · exact .inr hkeep'
  · obtain ⟨hroot, hitem, kept, hvals⟩ := h.root (cons_ne_nil i rest)
    exact ⟨hroot, hitem, kept ++ [i], by rw [hvals, append_assoc, singleton_append]⟩

theorem Ahead.freed (hwf : Wf c lru free vals) (h : Ahead c root item clock (i :: rest) lru vals)
    (hremoved : Wf.Removed c c' vals i root) :
    Ahead c' root item clock rest (lru.erase i)
      (Function.update vals root ((vals root).erase i)) := by
  obtain ⟨hroot, hitem, kept, hvals⟩ := h.root (cons_ne_nil i rest)
  refine ⟨fun j hj hj' => ?_, fun hrest => ?_⟩
  · obtain ⟨hne, hj⟩ := hwf.lruNodup.mem_erase_iff.mp hj
    rw [hremoved.itemid] at hj'
    rw [hremoved.key]
    exact (h.done j hj hj').imp_left fun hmem => (mem_cons.mp hmem).resolve_left hne
  · have hlast : vals root ≠ [i] := fun hone => by
      have hlength := congrArg List.length (hvals.symm.trans hone)
      have hpos := length_pos_iff.mpr hrest
      simp only [length_append, length_cons, length_nil] at hlength
      omega
    have hnodup := hwf.valuesNodup root hroot
    have hi : i ∈ vals root := hvals ▸ mem_append_right kept mem_cons_self
    refine ⟨⟨(hremoved.mem root).mpr ⟨hroot.1, hwf.root_ne hi hroot, fun hone => absurd hone hlast⟩,
      hremoved.key root ▸ hroot.2⟩, (hremoved.itemid root).trans hitem, kept, ?_⟩
    have hkept : i ∉ kept := fun hmem =>
      (nodup_append.mp (hvals ▸ hnodup)).2.2 i hmem i mem_cons_self rfl
    rw [Function.update_self, hvals, erase_append_right _ hkept, erase_cons_head]

theorem invalidateLoop_structured (rest : List ℕ) {fuel : ℕ} (hfuel : rest.length < fuel) :
    ∀ {c : Tfc D} {lru free : List ℕ} {vals : ℕ → List ℕ}, Wf c lru free vals →
      Settled c vals none → Ahead c root item clock rest lru vals →
      ∃ c', invalidateLoop root clock fuel c (rest.headD root) = some c' ∧ Structured c' ∧
        ∀ k : Key, k.function ≠ .unknown →
          c'.cached k = if k.Covers ⟨item, clock⟩ then none else c.cached k := by
  induction rest generalizing fuel with
  | nil =>
    intro c lru free vals hwf hsettled hahead
    obtain ⟨fuel, rfl⟩ := Nat.exists_eq_succ_of_ne_zero (Nat.ne_zero_of_lt hfuel)
    refine ⟨c, if_pos rfl, ⟨lru, free, vals, hwf, hsettled⟩, fun k hk => ?_⟩
    split_ifs with hcovers
    · refine hwf.cached_none ?_
      rintro i hi rfl
      obtain hmem | hkeep := hahead.done i (hwf.lru_of_known hi hk) hcovers.1
      · exact absurd hmem not_mem_nil
      · exact hkeep hcovers
    · rfl
  | cons i rest ih =>
    intro c lru free vals hwf hsettled hahead
    obtain ⟨fuel, rfl⟩ := Nat.exists_eq_succ_of_ne_zero (Nat.ne_zero_of_lt hfuel)
    have hfuel := Nat.lt_of_succ_lt_succ hfuel
    obtain ⟨hroot, hitem, kept, hvals⟩ := hahead.root (cons_ne_nil i rest)
    have hi : i ∈ vals root := hvals ▸ mem_append_right kept mem_cons_self
    obtain ⟨hlru, hsame⟩ := (hwf.mem_vals root hroot i).mp hi
    have hnext : (c.slots i).nextValue = rest.headD root := by
      have hring := hwf.values root hroot
      rw [hvals] at hring
      exact hring.next_eq
    have hne : i ≠ root := (hwf.root_ne hi hroot).symm
    rw [headD_cons, invalidateLoop, if_neg hne, hnext]
    have hcovers : (c.slots i).covers clock = true ↔ (c.key i).Covers ⟨item, clock⟩ := by
      rw [covers_eq_true_iff, hsame, hitem]
    split_ifs with hcover
    · obtain ⟨hremoved, free', hwf'⟩ := tfcFreeData_wf hwf hi hroot
      obtain ⟨c', hloop, hstructured, hcached⟩ :=
        ih hfuel hwf' (hremoved.settled hi hsettled) (hahead.freed hwf hremoved)
      refine ⟨c', hloop, hstructured, fun k hk => ?_⟩
      rw [hcached k hk, hwf.cached_removed hwf' (hwf.index_of_lru hlru) hroot hremoved hk]
      split_ifs with hk' hki
      · rfl
      · exact absurd (hki ▸ hcovers.mp hcover) hk'
      · rfl
    · exact ih hfuel hwf hsettled (hahead.skip (mt hcovers.mpr hcover))

theorem invalidateTrend_structured (h : Structured c) (trend : DcTrend) :
    ∃ c', invalidateTrend c trend = some c' ∧ Structured c' ∧
      ∀ k : Key, k.function ≠ .unknown →
        c'.cached k = if k.Covers trend then none else c.cached k := by
  obtain ⟨lru, free, vals, hwf, hsettled⟩ := h
  unfold invalidateTrend
  cases hsearch : c.search (rootKey trend.itemid) with
  | none =>
    refine ⟨c, rfl, ⟨lru, free, vals, hwf, hsettled⟩, fun k hk => ?_⟩
    split_ifs with hcovers
    · -- without a root the item has no values
      refine hwf.cached_none ?_
      rintro i hi rfl
      obtain ⟨root, hroot, hitem⟩ := hwf.rooted i (hwf.lru_of_known hi hk)
      refine hwf.search_none.mp hsearch root hroot.1 ?_
      rw [hwf.roots root hroot, hitem, Tfc.itemid, hcovers.1]
    · rfl
  | some root =>
    obtain ⟨hindex, hkey⟩ := hwf.search_iff.mp hsearch
    have hroot : c.Root root := ⟨hindex, by rw [hkey, rootKey]⟩
    have hitem : c.itemid root = trend.itemid := by rw [Tfc.itemid, hkey, rootKey]
    have hfuel : (vals root).length < c.slotsNum + 1 := by
      have hsubset : vals root ⊆ c.index := fun i hi => (hwf.item_of_mem hroot (.tail _ hi)).1
      have hle := ((hwf.valuesNodup root hroot).subperm hsubset).length_le
      have hlength := hwf.length_index
      have hslots := hwf.freeSlot
      omega
    have hahead : Ahead c root trend.itemid trend.clock (vals root) lru vals := by
      refine ⟨fun i hi hitem' => .inl ?_, fun _ => ⟨hroot, hitem, [], rfl⟩⟩
      exact (hwf.mem_vals root hroot i).mpr ⟨hi, hitem'.trans hitem.symm⟩
    have hnext : (c.slots root).nextValue = (vals root).headD root := (hwf.values root hroot).next_root
    dsimp only
    rw [hnext]
    exact invalidateLoop_structured (vals root) hfuel hwf hsettled hahead

theorem zbxTfcInvalidateTrends_structured (trends : List DcTrend) :
    ∀ {c : Tfc D}, Structured c →
      ∃ c', zbxTfcInvalidateTrends c trends = some c' ∧ Structured c' ∧
        ∀ k : Key, k.function ≠ .unknown →
          c'.cached k = if ∃ trend ∈ trends, k.Covers trend then none else c.cached k := by
  induction trends with
  | nil =>
    intro c h
    exact ⟨c, rfl, h, fun k _ => (if_neg (by simp)).symm⟩
  | cons trend trends ih =>
    intro c h
    obtain ⟨c₁, hone, hstructured, hcached₁⟩ := invalidateTrend_structured h trend
    obtain ⟨c₂, hrest, hstructured₂, hcached₂⟩ := ih hstructured
    refine ⟨c₂, by rw [zbxTfcInvalidateTrends, hone, Option.bind_some, hrest], hstructured₂,
      fun k hk => ?_⟩
    rw [hcached₂ k hk, hcached₁ k hk]
    by_cases hhead : k.Covers trend
    · by_cases htail : ∃ trend ∈ trends, k.Covers trend <;> simp [hhead, htail]
    · simp only [hhead, exists_mem_cons_iff, false_or, if_false]

end Zabbix.Trends
