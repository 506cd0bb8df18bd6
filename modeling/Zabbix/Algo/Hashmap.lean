import Zabbix.Algo.Algodefs
import Zabbix.Foundation.Buckets

/-!
# Hash maps

`hashmap.c`: keys are kept with their values in arrays, one array for each slot.
-/

namespace Zabbix.Algo

open List Buckets

structure Hashmap where
  numSlots : ℕ
  numData : ℤ
  slots : List (List (UInt64 × ℕ))
  deriving DecidableEq

def zbxHashmapInitSlots (initSize : ℕ) : Hashmap :=
  if 0 < initSize then
    let numSlots := nextPrime initSize
    ⟨numSlots, 0, replicate numSlots []⟩
  else ⟨0, 0, []⟩

def lastFirst {β : Type*} (rest : List β) : List β :=
  match rest.getLast? with
  | some last => last :: rest.dropLast
  | none => []

theorem lastFirst_perm {β : Type*} (rest : List β) : (lastFirst rest).Perm rest := by
  unfold lastFirst
  split
  · next last hlast =>
    have hsplit := dropLast_append_getLast? last hlast
    exact (perm_append_singleton last rest.dropLast).symm.trans (.of_eq hsplit)
  · next hnone =>
    rw [getLast?_eq_none_iff] at hnone
    rw [hnone]

variable (hashFunc : UInt64 → UInt32)

def keySlot (numSlots : ℕ) (entry : UInt64 × ℕ) : ℕ := (hashFunc entry.1).toNat % numSlots

def rehashEntries (incSlots s : ℕ) (kept rest : List (UInt64 × ℕ))
    (slots : List (List (UInt64 × ℕ))) : List (UInt64 × ℕ) × List (List (UInt64 × ℕ)) :=
  match rest with
  | [] => (kept, slots)
  | entry :: rest =>
    if s ≠ keySlot hashFunc incSlots entry then
      rehashEntries incSlots s kept (lastFirst rest)
        (slots.modify (keySlot hashFunc incSlots entry) (· ++ [entry]))
    else rehashEntries incSlots s (kept ++ [entry]) rest slots
termination_by rest.length
decreasing_by
  · rw [(lastFirst_perm rest).length_eq]
    exact Nat.lt_succ_self _
  · exact Nat.lt_succ_self _

def rehashSlot (incSlots s : ℕ) (slots : List (List (UInt64 × ℕ))) : List (List (UInt64 × ℕ)) :=
  let (kept, slots) := rehashEntries hashFunc incSlots s [] (slots.getD s []) slots
  slots.set s kept

def rehash (incSlots : ℕ) (slots : List (List (UInt64 × ℕ))) : List (List (UInt64 × ℕ)) :=
  slots.length.fold (fun s _ slots => rehashSlot hashFunc incSlots s slots)
    (slots ++ replicate (incSlots - slots.length) [])

def Hashmap.entries (hm : Hashmap) (key : UInt64) : List (UInt64 × ℕ) :=
  hm.slots.getD ((hashFunc key).toNat % hm.numSlots) []

def zbxHashmapGet (hm : Hashmap) (key : UInt64) : Option ℕ :=
  if hm.numSlots = 0 then none
  else ((hm.entries hashFunc key).find? fun entry => entry.1 = key).map Prod.snd

def setValue (key : UInt64) (value : ℕ) : List (UInt64 × ℕ) → List (UInt64 × ℕ)
  | [] => []
  | entry :: rest =>
    if entry.1 = key then (entry.1, value) :: rest else entry :: setValue key value rest

/-- The end of `zbx_hashmap_set` for a new key. -/
def growIfCrowded (hm : Hashmap) : Hashmap :=
  if hm.numData ≥ hm.numSlots * 5 / 1 then
    let incSlots := nextPrime (hm.numSlots * 3 / 2)
    { hm with numSlots := incSlots, slots := rehash hashFunc incSlots hm.slots }
  else hm

def zbxHashmapSet (hm : Hashmap) (key : UInt64) (value : ℕ) : Hashmap :=
  let hm := if hm.numSlots = 0 then zbxHashmapInitSlots 10 else hm
  let entries := hm.entries hashFunc key
  let slot := (hashFunc key).toNat % hm.numSlots
  if entries.any fun entry => entry.1 = key then
    { hm with slots := hm.slots.set slot (setValue key value entries) }
  else
    growIfCrowded hashFunc
      { hm with slots := hm.slots.set slot (entries ++ [(key, value)]), numData := hm.numData + 1 }

def removeKey (key : UInt64) : List (UInt64 × ℕ) → List (UInt64 × ℕ)
  | [] => []
  | entry :: rest => if entry.1 = key then lastFirst rest else entry :: removeKey key rest

def zbxHashmapRemove (hm : Hashmap) (key : UInt64) : Hashmap :=
  if hm.numSlots = 0 then hm
  else
    let entries := hm.entries hashFunc key
    let slot := (hashFunc key).toNat % hm.numSlots
    if entries.any fun entry => entry.1 = key then
      { hm with slots := hm.slots.set slot (removeKey key entries), numData := hm.numData - 1 }
    else hm

def zbxHashmapClear (hm : Hashmap) : Hashmap :=
  { hm with slots := hm.slots.map fun _ => [], numData := 0 }

variable {hashFunc} {hm : Hashmap} {key : UInt64} {value : ℕ} {slots : List (List (UInt64 × ℕ))}
  {kept rest : List (UInt64 × ℕ)} {incSlots s : ℕ}

variable (hashFunc s kept rest) in
theorem rehashEntries_spec (hinc : 0 < incSlots) (hlength : slots.length = incSlots)
    (hkept : ∀ x ∈ kept, keySlot hashFunc incSlots x = s) :
    (rehashEntries hashFunc incSlots s kept rest slots).2.length = incSlots ∧
    (rehashEntries hashFunc incSlots s kept rest slots).2[s]? = slots[s]? ∧
    ((rehashEntries hashFunc incSlots s kept rest slots).1 ++
      (rehashEntries hashFunc incSlots s kept rest slots).2.flatten).Perm
        (kept ++ rest ++ slots.flatten) ∧
    (∀ x ∈ (rehashEntries hashFunc incSlots s kept rest slots).1,
      keySlot hashFunc incSlots x = s) ∧
    ∀ k, AtHome (keySlot hashFunc incSlots) slots k →
      AtHome (keySlot hashFunc incSlots) (rehashEntries hashFunc incSlots s kept rest slots).2 k := by
  fun_induction rehashEntries hashFunc incSlots s kept rest slots with
  | case1 kept slots => exact ⟨hlength, rfl, by simp, hkept, fun _ h => h⟩
  | case2 kept slots entry rest hmove ih =>
    have hplace : keySlot hashFunc incSlots entry < slots.length := by
      rw [hlength]
      exact Nat.mod_lt _ hinc
    have hcons (bucket : List (UInt64 × ℕ)) : (bucket ++ [entry]).Perm (entry :: bucket) :=
      perm_append_singleton entry bucket
    obtain ⟨hlen, hslot, hperm, hhome, hkeeps⟩ := ih (by rw [length_modify, hlength]) hkept
    refine ⟨hlen, ?_, hperm.trans ?_, hhome, fun k hk => hkeeps k (hk.modify rfl hcons)⟩
    · rw [hslot, List.getElem?_modify]
      simp [Ne.symm hmove]
    · have hrest : (kept ++ lastFirst rest).Perm (kept ++ rest) :=
        (lastFirst_perm rest).append_left kept
      refine (hrest.append (perm_modify hplace hcons)).trans ?_
      rw [append_assoc, append_assoc]
      exact (perm_middle).append_left kept
  | case3 kept slots entry rest hstay ih =>
    have hstay : keySlot hashFunc incSlots entry = s := (not_not.mp hstay).symm
    obtain ⟨hlen, hslot, hperm, hhome, hkeeps⟩ := ih hlength fun x hx => by
      rcases mem_append.mp hx with hx | hx
      · exact hkept x hx
      · rw [mem_singleton.mp hx]
        exact hstay
    refine ⟨hlen, hslot, ?_, hhome, hkeeps⟩
    rwa [append_assoc kept, singleton_append] at hperm

theorem rehashSlot_settles (hinc : 0 < incSlots) (hs : s < incSlots)
    (hlength : slots.length = incSlots) :
    Settles (keySlot hashFunc incSlots) s slots (rehashSlot hashFunc incSlots s slots) := by
  obtain ⟨hlen, hget, hperm, hkept, hhome⟩ :=
    rehashEntries_spec hashFunc [] (slots.getD s []) s hinc hlength fun x hx => absurd hx not_mem_nil
  have hbucket : slots[s]? = some (slots.getD s []) := by
    rw [getD_eq_getElem?_getD, List.getElem?_eq_getElem (hlength ▸ hs)]
    rfl
  exact .of_moved (hlen.trans hlength.symm) (hget.trans hbucket) hperm hkept
    fun k _ hk => hhome k hk

variable (hashFunc) in
theorem rehash_spec (hinc : 0 < incSlots) (hle : slots.length ≤ incSlots) :
    (rehash hashFunc incSlots slots).length = incSlots ∧
      (rehash hashFunc incSlots slots).flatten.Perm slots.flatten ∧
      Placed (keySlot hashFunc incSlots) (rehash hashFunc incSlots slots) :=
  fold_settles_placed (fun _ _ ht hlength => rehashSlot_settles hinc ht hlength) hle

structure Hashmap.WellFormed (hashFunc : UInt64 → UInt32) (hm : Hashmap) : Prop where
  length : hm.slots.length = hm.numSlots
  placed : Placed (keySlot hashFunc hm.numSlots) hm.slots
  keys : (hm.slots.flatten.map Prod.fst).Nodup

theorem emptyMap_wellFormed (numSlots : ℕ) (numData : ℤ) :
    Hashmap.WellFormed hashFunc ⟨numSlots, numData, replicate numSlots []⟩ := by
  refine ⟨length_replicate, placed_replicate numSlots, ?_⟩
  simp

theorem initMap_eq (initSize : ℕ) :
    ∃ numSlots, zbxHashmapInitSlots initSize = ⟨numSlots, 0, replicate numSlots []⟩ ∧
      (0 < initSize → 0 < numSlots) := by
  unfold zbxHashmapInitSlots
  split_ifs with hsize
  · exact ⟨nextPrime initSize, rfl, fun _ => nextPrime_pos initSize⟩
  · exact ⟨0, rfl, fun hpos => absurd hpos hsize⟩

variable (value) in
theorem setValue_perm {entries : List (UInt64 × ℕ)}
    (h : entries.any (fun entry => entry.1 = key) = true) :
    ∃ old rest, entries.Perm ((key, old) :: rest) ∧
      (setValue key value entries).Perm ((key, value) :: rest) := by
  induction entries with
  | nil => cases h
  | cons entry entries ih =>
    rw [setValue]
    by_cases hkey : entry.1 = key
    · rw [if_pos hkey]
      subst hkey
      exact ⟨entry.2, entries, .refl _, .refl _⟩
    · rw [if_neg hkey]
      obtain ⟨old, rest, hold, hnew⟩ := ih (by simpa [hkey] using h)
      exact ⟨old, entry :: rest, (hold.cons entry).trans (.swap _ _ _),
        (hnew.cons entry).trans (.swap _ _ _)⟩

theorem removeKey_perm {entries : List (UInt64 × ℕ)}
    (h : entries.any (fun entry => entry.1 = key) = true) :
    ∃ old, entries.Perm ((key, old) :: removeKey key entries) := by
  induction entries with
  | nil => cases h
  | cons entry entries ih =>
    rw [removeKey]
    by_cases hkey : entry.1 = key
    · rw [if_pos hkey]
      subst hkey
      exact ⟨entry.2, (lastFirst_perm entries).symm.cons _⟩
    · rw [if_neg hkey]
      obtain ⟨old, hold⟩ := ih (by simpa [hkey] using h)
      exact ⟨old, (hold.cons entry).trans (.swap _ _ _)⟩

namespace Hashmap.WellFormed

variable (h : hm.WellFormed hashFunc)

include h

theorem getElem?_entries (hpos : 0 < hm.numSlots) (key : UInt64) :
    hm.slots[(hashFunc key).toNat % hm.numSlots]? = some (hm.entries hashFunc key) := by
  have hlt : (hashFunc key).toNat % hm.numSlots < hm.slots.length := by
    rw [h.length]
    exact Nat.mod_lt _ hpos
  rw [Hashmap.entries, getD_eq_getElem?_getD, List.getElem?_eq_getElem hlt]
  rfl

theorem mem_entries_iff (hpos : 0 < hm.numSlots) :
    (key, value) ∈ hm.entries hashFunc key ↔ (key, value) ∈ hm.slots.flatten := by
  constructor
  · exact mem_flatten_of_getElem? (h.getElem?_entries hpos key)
  · intro hmem
    exact h.placed.mem_bucket hmem (h.getElem?_entries hpos key)

theorem get_eq_some_iff :
    zbxHashmapGet hashFunc hm key = some value ↔ (key, value) ∈ hm.slots.flatten := by
  unfold zbxHashmapGet
  by_cases hzero : hm.numSlots = 0
  · rw [if_pos hzero, length_eq_zero_iff.mp (h.length.trans hzero)]
    simp
  · rw [if_neg hzero, ← h.mem_entries_iff (Nat.pos_of_ne_zero hzero), Option.map_eq_some_iff]
    constructor
    · rintro ⟨entry, hfind, rfl⟩
      have hkey := List.find?_some hfind
      obtain rfl : entry.1 = key := of_decide_eq_true hkey
      exact mem_of_find?_eq_some hfind
    · intro hmem
      obtain ⟨entry, hfind⟩ := Option.isSome_iff_exists.mp (List.find?_isSome
        (p := fun entry => decide (entry.1 = key)) |>.mpr ⟨_, hmem, decide_eq_true rfl⟩)
      refine ⟨entry, hfind, ?_⟩
      have hkey := List.find?_some hfind
      have hbucket := h.getElem?_entries (Nat.pos_of_ne_zero hzero) key
      have heq := inj_on_of_nodup_map h.keys
        (mem_flatten_of_getElem? hbucket (mem_of_find?_eq_some hfind))
        (mem_flatten_of_getElem? hbucket hmem) (of_decide_eq_true hkey)
      rw [heq]

theorem of_perm {incSlots : ℕ} {slots : List (List (UInt64 × ℕ))} (numData : ℤ)
    (hlength : slots.length = incSlots) (hplaced : Placed (keySlot hashFunc incSlots) slots)
    (hperm : slots.flatten.Perm hm.slots.flatten) :
    Hashmap.WellFormed hashFunc ⟨incSlots, numData, slots⟩ :=
  ⟨hlength, hplaced, (hperm.map Prod.fst).nodup_iff.mpr h.keys⟩

theorem of_bucket {entries : List (UInt64 × ℕ)} (hpos : 0 < hm.numSlots) (numData : ℤ)
    (hentries : ∀ x ∈ entries, x.1 = key ∨ x ∈ hm.entries hashFunc key)
    (hkeys : ((hm.slots.set ((hashFunc key).toNat % hm.numSlots) entries).flatten.map
      Prod.fst).Nodup) :
    Hashmap.WellFormed hashFunc
      ⟨hm.numSlots, numData, hm.slots.set ((hashFunc key).toNat % hm.numSlots) entries⟩ := by
  refine ⟨by rw [length_set, h.length], h.placed.set fun x hx => ?_, hkeys⟩
  rcases hentries x hx with hkey | hmem
  · rw [keySlot, hkey]
  · exact h.placed _ _ (h.getElem?_entries hpos key) x hmem

theorem setValue_spec (hpos : 0 < hm.numSlots)
    (hany : (hm.entries hashFunc key).any (fun entry => entry.1 = key) = true) :
    Hashmap.WellFormed hashFunc ⟨hm.numSlots, hm.numData,
      hm.slots.set ((hashFunc key).toNat % hm.numSlots)
        (setValue key value (hm.entries hashFunc key))⟩ ∧
    ∀ x, x ∈ (hm.slots.set ((hashFunc key).toNat % hm.numSlots)
      (setValue key value (hm.entries hashFunc key))).flatten ↔
        x = (key, value) ∨ x.1 ≠ key ∧ x ∈ hm.slots.flatten := by
  obtain ⟨rest, hall, hset⟩ := exists_rest (h.getElem?_entries hpos key)
  obtain ⟨old, others, hold, hnew⟩ := setValue_perm value hany
  have hbefore : hm.slots.flatten.Perm ((key, old) :: (others ++ rest)) :=
    hall.trans (hold.append_right rest)
  have hafter := (hset _).trans (hnew.append_right rest)
  have hkeys := (hbefore.map Prod.fst).nodup_iff.mp h.keys
  refine ⟨h.of_bucket hpos _ (fun x hx => ?_) ((hafter.map Prod.fst).nodup_iff.mpr hkeys),
    fun x => ?_⟩
  · rcases mem_cons.mp (hnew.mem_iff.mp hx) with rfl | hx
    · exact .inl rfl
    · exact .inr (hold.mem_iff.mpr (mem_cons_of_mem _ hx))
  · have hother (hx : x ∈ others ++ rest) : x.1 ≠ key := by
      rintro rfl
      exact (nodup_cons.mp hkeys).1 (mem_map.mpr ⟨x, hx, rfl⟩)
    rw [hafter.mem_iff, hbefore.mem_iff]
    constructor
    · intro hx
      rcases mem_cons.mp hx with rfl | hx
      · exact .inl rfl
      · exact .inr ⟨hother hx, mem_cons_of_mem _ hx⟩
    · rintro (rfl | ⟨hne, hx⟩)
      · exact mem_cons_self
      · rcases mem_cons.mp hx with rfl | hx
        · exact absurd rfl hne
        · exact mem_cons_of_mem _ hx

variable (value) in
theorem append_spec (hpos : 0 < hm.numSlots) (numData : ℤ)
    (hany : ¬(hm.entries hashFunc key).any (fun entry => entry.1 = key) = true) :
    Hashmap.WellFormed hashFunc ⟨hm.numSlots, numData,
      hm.slots.set ((hashFunc key).toNat % hm.numSlots)
        (hm.entries hashFunc key ++ [(key, value)])⟩ ∧
    ∀ x, x ∈ (hm.slots.set ((hashFunc key).toNat % hm.numSlots)
      (hm.entries hashFunc key ++ [(key, value)])).flatten ↔
        x = (key, value) ∨ x.1 ≠ key ∧ x ∈ hm.slots.flatten := by
  obtain ⟨rest, hall, hset⟩ := exists_rest (h.getElem?_entries hpos key)
  have hafter : (hm.slots.set ((hashFunc key).toNat % hm.numSlots)
      (hm.entries hashFunc key ++ [(key, value)])).flatten.Perm
        ((key, value) :: hm.slots.flatten) :=
    ((hset _).trans ((perm_append_singleton _ _).append_right rest)).trans (hall.symm.cons _)
  have hnew : ∀ x ∈ hm.slots.flatten, x.1 ≠ key := by
    rintro ⟨k, v⟩ hx rfl
    exact hany (any_eq_true.mpr ⟨_, (h.mem_entries_iff hpos).mpr hx, decide_eq_true rfl⟩)
  refine ⟨h.of_bucket hpos _ (fun x hx => ?_) ?_, fun x => ?_⟩
  · rcases mem_append.mp hx with hx | hx
    · exact .inr hx
    · rw [mem_singleton.mp hx]
      exact .inl rfl
  · refine (hafter.map Prod.fst).nodup_iff.mpr (nodup_cons.mpr ⟨fun hmem => ?_, h.keys⟩)
    obtain ⟨x, hx, hkey⟩ := mem_map.mp hmem
    exact hnew x hx hkey
  · rw [hafter.mem_iff, mem_cons]
    exact or_congr_right ⟨fun hx => ⟨hnew x hx, hx⟩, fun hx => hx.2⟩

theorem grow_spec : (growIfCrowded hashFunc hm).WellFormed hashFunc ∧
    ∀ x, x ∈ (growIfCrowded hashFunc hm).slots.flatten ↔ x ∈ hm.slots.flatten := by
  unfold growIfCrowded
  split_ifs
  · have hle : hm.slots.length ≤ nextPrime (hm.numSlots * 3 / 2) := by
      rw [h.length]
      exact le_trans (by omega) (le_nextPrime _)
    obtain ⟨hlength, hperm, hplaced⟩ := rehash_spec hashFunc (nextPrime_pos _) hle
    exact ⟨h.of_perm _ hlength hplaced hperm, fun x => hperm.mem_iff⟩
  · exact ⟨h, fun x => Iff.rfl⟩

theorem set_spec (key : UInt64) (value : ℕ) :
    (zbxHashmapSet hashFunc hm key value).WellFormed hashFunc ∧
      ∀ x, x ∈ (zbxHashmapSet hashFunc hm key value).slots.flatten ↔
        x = (key, value) ∨ x.1 ≠ key ∧ x ∈ hm.slots.flatten := by
  have hready : ∃ hm₁, (if hm.numSlots = 0 then zbxHashmapInitSlots 10 else hm) = hm₁ ∧
      hm₁.WellFormed hashFunc ∧ 0 < hm₁.numSlots ∧ ∀ x, x ∈ hm₁.slots.flatten ↔
        x ∈ hm.slots.flatten := by
    by_cases hzero : hm.numSlots = 0
    · obtain ⟨numSlots, hinit, hpos⟩ := initMap_eq 10
      rw [if_pos hzero, hinit]
      refine ⟨_, rfl, emptyMap_wellFormed numSlots 0, hpos (by omega), fun x => ?_⟩
      rw [length_eq_zero_iff.mp (h.length.trans hzero), flatten_replicate]
      rfl
    · rw [if_neg hzero]
      exact ⟨hm, rfl, h, Nat.pos_of_ne_zero hzero, fun x => Iff.rfl⟩
  obtain ⟨hm₁, hinit, h₁, hpos, hsame⟩ := hready
  rw [zbxHashmapSet, hinit]
  simp only [← hsame]
  by_cases hany : (hm₁.entries hashFunc key).any (fun entry => entry.1 = key) = true
  · rw [if_pos hany]
    exact h₁.setValue_spec hpos hany
  · rw [if_neg hany]
    obtain ⟨h₂, hmem⟩ := h₁.append_spec value hpos (hm₁.numData + 1) hany
    exact ⟨h₂.grow_spec.1, fun x => (h₂.grow_spec.2 x).trans (hmem x)⟩

theorem remove_spec (key : UInt64) :
    (zbxHashmapRemove hashFunc hm key).WellFormed hashFunc ∧
      ∀ x, x ∈ (zbxHashmapRemove hashFunc hm key).slots.flatten ↔
        x.1 ≠ key ∧ x ∈ hm.slots.flatten := by
  unfold zbxHashmapRemove
  by_cases hzero : hm.numSlots = 0
  · rw [if_pos hzero]
    refine ⟨h, fun x => ?_⟩
    rw [length_eq_zero_iff.mp (h.length.trans hzero)]
    simp
  have hpos := Nat.pos_of_ne_zero hzero
  rw [if_neg hzero]
  dsimp only
  by_cases hany : (hm.entries hashFunc key).any (fun entry => entry.1 = key) = true
  · rw [if_pos hany]
    obtain ⟨rest, hall, hset⟩ := exists_rest (h.getElem?_entries hpos key)
    obtain ⟨old, hold⟩ := removeKey_perm hany
    have hbefore : hm.slots.flatten.Perm ((key, old) ::
        (hm.slots.set ((hashFunc key).toNat % hm.numSlots)
          (removeKey key (hm.entries hashFunc key))).flatten) :=
      (hall.trans (hold.append_right rest)).trans ((hset _).symm.cons _)
    have hkeys := (hbefore.map Prod.fst).nodup_iff.mp h.keys
    refine ⟨h.of_bucket hpos _ (fun x hx => .inr ?_) (nodup_cons.mp hkeys).2, fun x => ?_⟩
    · exact hold.mem_iff.mpr (mem_cons_of_mem _ hx)
    · rw [hbefore.mem_iff, mem_cons]
      constructor
      · intro hx
        refine ⟨?_, .inr hx⟩
        rintro rfl
        exact (nodup_cons.mp hkeys).1 (mem_map.mpr ⟨x, hx, rfl⟩)
      · rintro ⟨hne, rfl | hx⟩
        · exact absurd rfl hne
        · exact hx
  · rw [if_neg hany]
    refine ⟨h, fun x => ⟨fun hx => ⟨?_, hx⟩, fun hx => hx.2⟩⟩
    rintro rfl
    exact hany (any_eq_true.mpr ⟨_, (h.mem_entries_iff hpos).mpr hx, decide_eq_true rfl⟩)

theorem get_set (key : UInt64) (value : ℕ) (k : UInt64) :
    zbxHashmapGet hashFunc (zbxHashmapSet hashFunc hm key value) k =
      if k = key then some value else zbxHashmapGet hashFunc hm k := by
  obtain ⟨h', hmem⟩ := h.set_spec key value
  ext v
  rw [h'.get_eq_some_iff, hmem]
  split_ifs with hk
  · simp [hk, eq_comm]
  · rw [h.get_eq_some_iff]
    simp [hk]

theorem get_remove (key k : UInt64) :
    zbxHashmapGet hashFunc (zbxHashmapRemove hashFunc hm key) k =
      if k = key then none else zbxHashmapGet hashFunc hm k := by
  obtain ⟨h', hmem⟩ := h.remove_spec key
  ext v
  rw [h'.get_eq_some_iff, hmem]
  split_ifs with hk
  · simp [hk]
  · rw [h.get_eq_some_iff]
    simp [hk]

theorem clear_wellFormed : (zbxHashmapClear hm).WellFormed hashFunc := by
  rw [zbxHashmapClear, map_const', h.length]
  exact emptyMap_wellFormed hm.numSlots 0

end Hashmap.WellFormed

theorem get_emptyMap (numSlots : ℕ) (numData : ℤ) (k : UInt64) :
    zbxHashmapGet hashFunc ⟨numSlots, numData, replicate numSlots []⟩ k = none := by
  by_contra hsome
  obtain ⟨v, hv⟩ := Option.ne_none_iff_exists'.mp hsome
  rw [(emptyMap_wellFormed numSlots numData).get_eq_some_iff] at hv
  rw [flatten_replicate] at hv
  cases hv

theorem get_clear (h : hm.WellFormed hashFunc) (k : UInt64) :
    zbxHashmapGet hashFunc (zbxHashmapClear hm) k = none := by
  rw [zbxHashmapClear, map_const', h.length]
  exact get_emptyMap hm.numSlots 0 k

inductive HashmapOperation
  | set (key : UInt64) (value : ℕ)
  | remove (key : UInt64)
  | clear

def HashmapOperation.apply (hashFunc : UInt64 → UInt32) (hm : Hashmap) : HashmapOperation → Hashmap
  | set key value => zbxHashmapSet hashFunc hm key value
  | remove key => zbxHashmapRemove hashFunc hm key
  | clear => zbxHashmapClear hm

def HashmapOperation.update (f : UInt64 → Option ℕ) : HashmapOperation → UInt64 → Option ℕ
  | set key value => Function.update f key (some value)
  | remove key => Function.update f key none
  | clear => fun _ => none

theorem HashmapOperation.get_apply (h : hm.WellFormed hashFunc) (op : HashmapOperation) :
    (op.apply hashFunc hm).WellFormed hashFunc ∧
      zbxHashmapGet hashFunc (op.apply hashFunc hm) = op.update (zbxHashmapGet hashFunc hm) := by
  cases op with
  | set key value =>
    refine ⟨(h.set_spec key value).1, funext fun k => ?_⟩
    rw [apply, update, h.get_set, Function.update_apply]
  | remove key =>
    refine ⟨(h.remove_spec key).1, funext fun k => ?_⟩
    rw [apply, update, h.get_remove, Function.update_apply]
  | clear => exact ⟨h.clear_wellFormed, funext (get_clear h)⟩

/-- After any operations a hash map is the partial function that they make of the empty one. -/
theorem hashmap_refines (hashFunc : UInt64 → UInt32) (initSize : ℕ) (ops : List HashmapOperation) :
    zbxHashmapGet hashFunc
      (ops.foldl (HashmapOperation.apply hashFunc) (zbxHashmapInitSlots initSize)) =
      ops.foldl HashmapOperation.update fun _ => none := by
  obtain ⟨numSlots, hinit, -⟩ := initMap_eq initSize
  have h : Hashmap.WellFormed hashFunc ⟨numSlots, 0, replicate numSlots []⟩ :=
    emptyMap_wellFormed numSlots 0
  have hget : zbxHashmapGet hashFunc ⟨numSlots, 0, replicate numSlots []⟩ = fun _ => none :=
    funext (get_emptyMap numSlots 0)
  rw [hinit, ← hget]
  clear hinit hget
  generalize (⟨numSlots, 0, replicate numSlots []⟩ : Hashmap) = hm at h
  induction ops generalizing hm with
  | nil => rfl
  | cons op ops ih =>
    obtain ⟨h', hget'⟩ := op.get_apply h
    rw [foldl_cons, foldl_cons, ih _ h', hget']

end Zabbix.Algo
