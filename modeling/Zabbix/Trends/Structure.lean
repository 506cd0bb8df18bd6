import Zabbix.Trends.Links

/-!
# The structure of the trend function cache

Slots are free, roots of items or values.
-/

namespace Zabbix.Trends

open List Tfc

variable {D : Type} {c c' : Tfc D} {lru free : List ℕ} {vals : ℕ → List ℕ} {i j r : ℕ} {k : Key}

def FreeChain (next : ℕ → ℕ) : ℕ → List ℕ → Prop
  | i, [] => i = noSlot
  | i, x :: l => i = x ∧ FreeChain next (next x) l

theorem FreeChain.frame {next next' : ℕ → ℕ} {l : List ℕ} (h : FreeChain next i l)
    (hnext : ∀ x ∈ l, next' x = next x) : FreeChain next' i l := by
  induction l generalizing i with
  | nil => exact h
  | cons x l ih =>
    obtain ⟨hx, hl⟩ := forall_mem_cons.mp hnext
    exact ⟨h.1, ih (hx ▸ h.2) hl⟩

def Tfc.Root (c : Tfc D) (r : ℕ) : Prop := r ∈ c.index ∧ (c.key r).function = .unknown

instance (c : Tfc D) : DecidablePred c.Root := fun _ => inferInstanceAs (Decidable (_ ∧ _))

def Tfc.itemid (c : Tfc D) (i : ℕ) : ℕ := (c.key i).itemid

/-- Used slots and free ones, which `free` has from the head of the free list on, are the slots
before `freeSlot`. -/
structure Slots (c : Tfc D) (free : List ℕ) : Prop where
  slotsNum : 2 ≤ c.slotsNum ∧ c.slotsNum ≤ noSlot
  freeSlot : c.freeSlot ≤ c.slotsNum
  hashSlots : c.slotsNum + 2 ≤ c.hashSlots * 4 / 5
  nodup : (free ++ c.index).Nodup
  below : ∀ i, i ∈ free ++ c.index ↔ i < c.freeSlot
  chain : FreeChain c.lruNext c.freeHead free

structure Wf (c : Tfc D) (lru free : List ℕ) (vals : ℕ → List ℕ) : Prop extends Slots c free where
  ring : Ring c.lruPrev c.lruNext noSlot lru
  lruNodup : lru.Nodup
  mem_lru : ∀ i, i ∈ lru ↔ i ∈ c.index ∧ ¬ c.Root i
  keys : ∀ i ∈ c.index, ∀ j ∈ c.index, c.key i = c.key j → i = j
  roots : ∀ r, c.Root r → c.key r = rootKey (c.itemid r)
  values : ∀ r, c.Root r → Ring c.valuePrev c.valueNext r (vals r)
  valuesNodup : ∀ r, c.Root r → (vals r).Nodup
  mem_vals : ∀ r, c.Root r → ∀ i, i ∈ vals r ↔ i ∈ lru ∧ c.itemid i = c.itemid r
  rooted : ∀ i ∈ lru, ∃ r, c.Root r ∧ c.itemid r = c.itemid i
  items : c.itemsNum = c.index.countP fun i => (c.key i).function = .unknown
  states : ∀ i ∈ lru, (c.slots i).state ≠ .unknown

def Settled (c : Tfc D) (vals : ℕ → List ℕ) (pending : Option ℕ) : Prop :=
  ∀ r, c.Root r → vals r = [] → pending = some r

namespace Slots

variable (h : Slots c free)

include h

theorem ne_noSlot (hi : i ∈ free ++ c.index) : i ≠ noSlot := by
  have hlt := (h.below i).mp hi
  have hle := h.freeSlot.trans h.slotsNum.2
  exact (Nat.lt_of_lt_of_le hlt hle).ne

theorem indexNodup : c.index.Nodup := (nodup_append.mp h.nodup).2.1

theorem free_not_index (hi : i ∈ free) : i ∉ c.index := fun hindex =>
  (nodup_append.mp h.nodup).2.2 i hi i hindex rfl

theorem freeHead_eq : c.freeHead = noSlot ↔ free = [] := by
  have hchain := h.chain
  cases free with
  | nil => exact iff_of_true hchain rfl
  | cons x free =>
    refine iff_of_false ?_ (cons_ne_nil _ _)
    rw [hchain.1]
    exact h.ne_noSlot (mem_cons_self)

theorem length_index : free.length + c.index.length = c.freeSlot := by
  have hperm : (free ++ c.index).Perm (List.range c.freeSlot) :=
    (perm_ext_iff_of_nodup h.nodup nodup_range).mpr fun i => by rw [h.below, mem_range]
  rw [← length_append, hperm.length_eq, length_range]

theorem full_iff : c.Full ↔ c.index.length = c.slotsNum := by
  unfold Tfc.Full
  have hlength := h.length_index
  have hle := h.freeSlot
  rw [h.freeHead_eq, ← length_eq_zero_iff]
  omega

omit h

end Slots

namespace Wf

variable (h : Wf c lru free vals)

include h

theorem index_of_lru (hi : i ∈ lru) : i ∈ c.index := ((h.mem_lru i).mp hi).1

theorem lru_ne_noSlot (hi : i ∈ lru) : i ≠ noSlot :=
  h.ne_noSlot (mem_append_right _ (h.index_of_lru hi))

theorem noSlot_not_mem : noSlot ∉ lru := fun hmem => h.lru_ne_noSlot hmem rfl

theorem lruCycle : (noSlot :: lru).Nodup := nodup_cons.mpr ⟨h.noSlot_not_mem, h.lruNodup⟩

theorem root_ne_lru (hr : c.Root r) : r ∉ lru := fun hmem => ((h.mem_lru r).mp hmem).2 hr

theorem root_unique {r' : ℕ} (hr : c.Root r) (hr' : c.Root r') (hitem : c.itemid r = c.itemid r')
    : r = r' := by
  refine h.keys r hr.1 r' hr'.1 ?_
  rw [h.roots r hr, h.roots r' hr', hitem]

theorem valueCycle (hr : c.Root r) : (r :: vals r).Nodup :=
  nodup_cons.mpr
    ⟨fun hmem => h.root_ne_lru hr ((h.mem_vals r hr r).mp hmem).1, h.valuesNodup r hr⟩

theorem item_of_mem (hr : c.Root r) (hi : i ∈ r :: vals r) :
    i ∈ c.index ∧ c.itemid i = c.itemid r := by
  obtain rfl | hi := mem_cons.mp hi
  · exact ⟨hr.1, rfl⟩
  · obtain ⟨hlru, hitem⟩ := (h.mem_vals r hr i).mp hi
    exact ⟨h.index_of_lru hlru, hitem⟩

theorem rings_apart {r' : ℕ} (hr : c.Root r) (hr' : c.Root r') (hne : r' ≠ r) (hi : i ∈ r :: vals r)
    : i ∉ r' :: vals r' := fun hi' =>
  hne (h.root_unique hr' hr ((h.item_of_mem hr' hi').2.symm.trans (h.item_of_mem hr hi).2))

theorem search_iff : c.search k = some i ↔ i ∈ c.index ∧ c.key i = k := by
  unfold Tfc.search
  constructor
  · intro hfind
    have hkey := List.find?_some hfind
    exact ⟨mem_of_find?_eq_some hfind, by simpa [Tfc.key] using hkey⟩
  · intro hi
    obtain ⟨hmem, hkey⟩ := hi
    cases hfind : c.index.find? fun i => (c.slots i).key = k with
    | none => exact absurd (decide_eq_true hkey) (List.find?_eq_none.mp hfind i hmem)
    | some j =>
      have hj := List.find?_some hfind
      have hsame : c.key j = c.key i := by simpa [Tfc.key, ← hkey] using hj
      exact congrArg some (h.keys j (mem_of_find?_eq_some hfind) i hmem hsame)

theorem search_none : c.search k = none ↔ ∀ i ∈ c.index, c.key i ≠ k := by
  rw [Option.eq_none_iff_forall_ne_some]
  simp only [ne_eq, h.search_iff, not_and]

theorem lru_ne_nil {pending : Option ℕ} (hsettled : Settled c vals pending) (hfull : c.Full)
    : lru ≠ [] := by
  rintro rfl
  have hroot : ∀ i ∈ c.index, c.Root i := fun i hi => by
    by_contra hroot
    exact absurd ((h.mem_lru i).mpr ⟨hi, hroot⟩) not_mem_nil
  have hpending : ∀ i ∈ c.index, pending = some i := fun i hi => by
    refine hsettled i (hroot i hi) (eq_nil_iff_forall_not_mem.mpr fun j hj => ?_)
    exact absurd ((h.mem_vals i (hroot i hi) j).mp hj).1 not_mem_nil
  have hlength := h.full_iff.mp hfull
  have htwo := h.slotsNum.1
  have hnodup := h.indexNodup
  match hindex : c.index with
  | [] => rw [hindex, length_nil] at hlength; omega
  | [_] => rw [hindex, length_singleton] at hlength; omega
  | x :: y :: l =>
    have hx := hpending x (by simp [hindex])
    have hy := hpending y (by simp [hindex])
    rw [hindex] at hnodup
    have hxy : x = y := Option.some.inj (hx.symm.trans hy)
    simp [hxy] at hnodup

omit h

end Wf

end Zabbix.Trends
