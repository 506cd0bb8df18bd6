import Zabbix.ValueCache.Cleaning

/-!
# Places of values

The slots in use, one chunk after the other, and what holds of the chunks whatever is in the slots.
-/

namespace Zabbix.ValueCache

open List Function

namespace VcItem

def places (item : VcItem) (p : ℕ) : List (ℕ × ℤ) :=
  span (fun i => (p, i)) (item.chunks p).firstValue (item.chunks p).lastValue

def positions (item : VcItem) (ps : List ℕ) : List (ℕ × ℤ) := ps.flatMap item.places

def slotAt (item : VcItem) (x : ℕ × ℤ) : HistoryRecord := item.slot x.1 x.2

def before (item : VcItem) (x : ℕ × ℤ) : Option (ℕ × ℤ) :=
  if x.2 - 1 < (item.chunks x.1).firstValue then
    (item.chunks x.1).prev.map fun prev => (prev, (item.chunks prev).lastValue)
  else some (x.1, x.2 - 1)

end VcItem

/-- Chunks whose counters are right; one of them may be empty while it is filled. -/
structure Shaped (item : VcItem) (ps : List ℕ) : Prop extends Chained item ps where
  slots : ∀ p ∈ ps, 0 ≤ (item.chunks p).firstValue ∧
    (item.chunks p).firstValue ≤ (item.chunks p).lastValue + 1 ∧
    (item.chunks p).lastValue < (item.chunks p).slotsNum
  total : item.valuesTotal = (item.history ps).length
  type : Cacheable item.valueType

variable {item item' : VcItem} {ps front back : List ℕ} {p q : ℕ}

theorem positions_append (item : VcItem) (ps qs : List ℕ) :
    item.positions (ps ++ qs) = item.positions ps ++ item.positions qs := flatMap_append

theorem positions_cons (item : VcItem) (p : ℕ) (ps : List ℕ) :
    item.positions (p :: ps) = item.places p ++ item.positions ps := flatMap_cons

theorem positions_singleton (item : VcItem) (p : ℕ) : item.positions [p] = item.places p := by
  rw [positions_cons]
  exact append_nil _

theorem history_eq_map (item : VcItem) (ps : List ℕ) :
    item.history ps = (item.positions ps).map item.slotAt := by
  induction ps with
  | nil => rfl
  | cons p ps ih =>
    rw [history_cons, positions_cons, map_append, ← ih, VcItem.values, VcItem.places, span_map]
    rfl

theorem mem_places {x : ℕ × ℤ} : x ∈ item.places p ↔
    x.1 = p ∧ (item.chunks p).firstValue ≤ x.2 ∧ x.2 ≤ (item.chunks p).lastValue := by
  obtain ⟨r, i⟩ := x
  rw [VcItem.places, mem_span]
  constructor
  · intro h
    obtain ⟨j, hj, hj', heq⟩ := h
    obtain ⟨rfl, rfl⟩ := Prod.mk.inj heq
    exact ⟨rfl, hj, hj'⟩
  · intro h
    obtain ⟨rfl, hi, hi'⟩ := h
    exact ⟨i, hi, hi', rfl⟩

theorem mem_positions {x : ℕ × ℤ} : x ∈ item.positions ps ↔
    x.1 ∈ ps ∧ (item.chunks x.1).firstValue ≤ x.2 ∧ x.2 ≤ (item.chunks x.1).lastValue := by
  rw [VcItem.positions, mem_flatMap]
  constructor
  · intro h
    obtain ⟨p, hp, hx⟩ := h
    obtain ⟨rfl, hx⟩ := mem_places.mp hx
    exact ⟨hp, hx⟩
  · intro h
    exact ⟨x.1, h.1, mem_places.mpr ⟨rfl, h.2⟩⟩

theorem span_nodup {β : Type*} {f : ℤ → β} (hf : Injective f) (a b : ℤ) : (span f a b).Nodup := by
  rw [span]
  apply Nodup.map hf
  rw [Int.range]
  apply Nodup.map
  · intro i j hij
    exact Int.ofNat_inj.mp (add_left_cancel hij)
  · exact nodup_range

theorem positions_nodup (h : ps.Nodup) : (item.positions ps).Nodup := by
  induction ps with
  | nil => exact nodup_nil
  | cons p ps ih =>
    obtain ⟨hp, hps⟩ := nodup_cons.mp h
    rw [positions_cons, nodup_append]
    refine ⟨span_nodup (fun i j hij => (Prod.mk.inj hij).2) _ _, ih hps, fun x hx y hy heq => ?_⟩
    rw [heq] at hx
    obtain ⟨hxp, -⟩ := mem_places.mp hx
    obtain ⟨hyp, -⟩ := mem_positions.mp hy
    exact hp (hxp ▸ hyp)

theorem positions_congr (h : ∀ p ∈ ps, (item'.chunks p).firstValue = (item.chunks p).firstValue ∧
    (item'.chunks p).lastValue = (item.chunks p).lastValue) : item'.positions ps = item.positions ps := by
  induction ps with
  | nil => rfl
  | cons p ps ih =>
    obtain ⟨hp, hps⟩ := forall_mem_cons.mp h
    rw [positions_cons, positions_cons, ih hps, VcItem.places, VcItem.places, hp.1, hp.2]

theorem before_eq (h : Chained item ps)
    (hnonempty : ∀ p ∈ ps, (item.chunks p).firstValue ≤ (item.chunks p).lastValue)
    {A B : List (ℕ × ℤ)} {x y : ℕ × ℤ} (hpositions : item.positions ps = A ++ y :: x :: B) :
    item.before x = some y := by
  obtain ⟨p, i⟩ := x
  have hx : (p, i) ∈ item.positions ps := by
    rw [hpositions]
    simp
  obtain ⟨hp, hfirst, hlast⟩ := mem_positions.mp hx
  simp only at hp hfirst hlast
  obtain ⟨front, back, rfl⟩ := append_of_mem hp
  have hnodup : (item.positions (front ++ p :: back)).Nodup := positions_nodup h.nodup
  -- the place stands behind the ones of its chunk with smaller indices
  have hsplit : item.positions (front ++ p :: back) = (item.positions front ++
      span (fun i => (p, i)) (item.chunks p).firstValue (i - 1)) ++ (p, i) ::
        (span (fun i => (p, i)) (i + 1) (item.chunks p).lastValue ++ item.positions back) := by
    rw [positions_append, positions_cons, VcItem.places, span_append (m := i - 1) (by omega) (by omega),
      Int.sub_add_cancel, span_first hlast]
    simp only [append_assoc, cons_append]
  have hone : A ++ [y] = item.positions front ++
      span (fun i => (p, i)) (item.chunks p).firstValue (i - 1) := by
    have hmiddle : item.positions (front ++ p :: back) = (A ++ [y]) ++ (p, i) :: B := by
      rw [hpositions, append_assoc]
      rfl
    rw [hmiddle] at hnodup hsplit
    have hnot := (nodup_cons.mp (nodup_middle.mp hnodup)).1
    rw [mem_append, not_or] at hnot
    exact ((append_cons_inj_of_notMem hnot.1 hnot.2).mp hsplit).1
  have hlast : (item.positions front ++
      span (fun i => (p, i)) (item.chunks p).firstValue (i - 1)).getLast? = some y := by
    rw [← hone, getLast?_concat]
  rw [VcItem.before]
  simp only
  by_cases hstart : i - 1 < (item.chunks p).firstValue
  · rw [if_pos hstart, h.prev_eq]
    rw [span_eq_nil hstart, append_nil] at hlast
    obtain rfl | ⟨front, q, rfl⟩ := eq_nil_or_concat' front
    · simp [VcItem.positions] at hlast
    · have hq := hnonempty q (by simp)
      rw [positions_append, positions_singleton, VcItem.places, span_last hq, ← append_assoc,
        getLast?_concat] at hlast
      rw [getLast?_concat, Option.map_some]
      exact hlast
  · rw [if_neg hstart]
    rw [span_last (not_lt.mp hstart), ← append_assoc, getLast?_concat] at hlast
    exact hlast

theorem WellFormed.shaped (h : WellFormed item ps) : Shaped item ps where
  toChained := h.toChained
  slots p hp := ⟨(h.slots p hp).1, (h.nonempty p hp).trans (Int.le_add_one (le_refl _)), (h.slots p hp).2⟩
  total := h.total
  type := h.type

theorem Shaped.wellFormed (h : Shaped item ps)
    (hnonempty : ∀ p ∈ ps, (item.chunks p).firstValue ≤ (item.chunks p).lastValue)
    (hsorted : SortedBy recordKey (item.history ps)) : WellFormed item ps where
  toChained := h.toChained
  nonempty := hnonempty
  sorted := hsorted
  slots p hp := ⟨(h.slots p hp).1, (h.slots p hp).2.2⟩
  total := h.total
  type := h.type

theorem history_length_eq (item : VcItem) (ps : List ℕ) :
    (item.history ps).length = (item.positions ps).length := by
  rw [history_eq_map, length_map]

structure SameShape (item item' : VcItem) : Prop where
  fields : item'.toVcItemFields = item.toVcItemFields
  next : item'.next = item.next
  prev : item'.prev = item.prev
  used : item'.used = item.used
  counters : ∀ p, (item'.chunks p).firstValue = (item.chunks p).firstValue ∧
    (item'.chunks p).lastValue = (item.chunks p).lastValue ∧
    (item'.chunks p).slotsNum = (item.chunks p).slotsNum

namespace SameShape

variable (h : SameShape item item')

include h

theorem trans {item'' : VcItem} (h' : SameShape item' item'') :
    SameShape item item'' where
  fields := h'.fields.trans h.fields
  next := h'.next.trans h.next
  prev := h'.prev.trans h.prev
  used := h'.used.trans h.used
  counters p := ⟨(h'.counters p).1.trans (h.counters p).1, (h'.counters p).2.1.trans (h.counters p).2.1,
    (h'.counters p).2.2.trans (h.counters p).2.2⟩

theorem positions (ps : List ℕ) : item'.positions ps = item.positions ps :=
  positions_congr fun p _ => ⟨(h.counters p).1, (h.counters p).2.1⟩

theorem shaped (hshaped : Shaped item ps) : Shaped item' ps := by
  constructor
  · exact hshaped.toChained.of_eq h.next h.prev h.used
  · intro p hp
    rw [(h.counters p).1, (h.counters p).2.1, (h.counters p).2.2]
    exact hshaped.slots p hp
  · rw [history_length_eq, h.positions, ← history_length_eq, congrArg VcItemFields.valuesTotal h.fields]
    exact hshaped.total
  · rw [congrArg VcItemFields.valueType h.fields]
    exact hshaped.type

theorem nonempty (hnonempty : ∀ p ∈ ps, (item.chunks p).firstValue ≤ (item.chunks p).lastValue) :
    ∀ p ∈ ps, (item'.chunks p).firstValue ≤ (item'.chunks p).lastValue := by
  intro p hp
  rw [(h.counters p).1, (h.counters p).2.1]
  exact hnonempty p hp

omit h

end SameShape

theorem setSlot_shape (item : VcItem) (p : ℕ) (i : ℤ) (record : HistoryRecord) :
    SameShape item (item.setSlot p i record) := by
  have hlinks := @VcItem.modify_links item p
    (fun chunk => { chunk with slots := update chunk.slots i record }) rfl rfl
  refine ⟨rfl, hlinks.1, hlinks.2, rfl, fun q => ?_⟩
  by_cases hq : q = p
  · rw [hq, VcItem.setSlot, VcItem.modify_chunk]
    exact ⟨rfl, rfl, rfl⟩
  · rw [VcItem.setSlot, VcItem.modify_of_ne hq]
    exact ⟨rfl, rfl, rfl⟩

theorem setSlot_slotAt (item : VcItem) (p : ℕ) (i : ℤ) (record : HistoryRecord) :
    (item.setSlot p i record).slotAt = update item.slotAt (p, i) record := by
  funext x
  obtain ⟨q, j⟩ := x
  by_cases hq : q = p
  · subst hq
    simp only [VcItem.slotAt, VcItem.slot, VcItem.setSlot, VcItem.modify, update_self]
    by_cases hj : j = i
    · rw [hj, update_self, update_self]
    · rw [update_of_ne hj, update_of_ne fun heq => hj (Prod.mk.inj heq).2]
      rfl
  · have hpair : (q, j) ≠ (p, i) := fun heq => hq (Prod.mk.inj heq).1
    rw [update_of_ne hpair]
    simp only [VcItem.slotAt, VcItem.slot, VcItem.setSlot, VcItem.modify, update_of_ne hq]

end Zabbix.ValueCache
