import Zabbix.Algo.Hashset

/-!
# Hash sets refine finite sets

Every reachable hash set keeps its entries in their chains, also after a table has been
relinked in place, and every operation does to the contents what it does to a finite set.
-/

namespace Zabbix.Algo

open List Buckets Transition

variable {fn : HashFunctions} {hs hs' : Hashset} {slots : List (List Entry)}
  {chain : List Entry} {entry : Entry} {data : Bytes} {incSlots slot : ℕ}

variable (slots slot chain) in
theorem relinkChain_spec (hinc : 0 < incSlots) (hlength : slots.length = incSlots) :
    (relinkChain incSlots slot chain slots).2.length = incSlots ∧
    (relinkChain incSlots slot chain slots).2[slot]? = slots[slot]? ∧
    ((relinkChain incSlots slot chain slots).1 ++
      (relinkChain incSlots slot chain slots).2.flatten).Perm (chain ++ slots.flatten) ∧
    (∀ x ∈ (relinkChain incSlots slot chain slots).1, x.slot incSlots = slot) ∧
    ∀ k, AtHome (Entry.slot incSlots) slots k →
      AtHome (Entry.slot incSlots) (relinkChain incSlots slot chain slots).2 k := by
  induction chain generalizing slots with
  | nil => exact ⟨hlength, rfl, .refl _, fun x hx => absurd hx not_mem_nil, fun _ h => h⟩
  | cons entry rest ih =>
    rw [relinkChain]
    by_cases hmove : slot ≠ entry.slot incSlots
    · rw [if_pos hmove]
      have hplace : entry.slot incSlots < slots.length := by
        rw [hlength]
        exact Nat.mod_lt _ hinc
      obtain ⟨hlen, hslot, hperm, hkept, hhome⟩ :=
        ih (slots.modify (entry.slot incSlots) (entry :: ·))
          (by rw [length_modify, hlength])
      refine ⟨hlen, ?_, ?_, hkept, fun k hk => hhome k ?_⟩
      · rw [hslot, List.getElem?_modify]
        simp [Ne.symm hmove]
      · have hlinked := perm_modify hplace fun bucket => Perm.refl (entry :: bucket)
        exact hperm.trans ((hlinked.append_left rest).trans perm_middle)
      · exact hk.modify rfl fun bucket => .refl (entry :: bucket)
    · rw [if_neg hmove]
      obtain ⟨hlen, hslot, hperm, hkept, hhome⟩ := ih slots hlength
      refine ⟨hlen, hslot, hperm.cons entry, fun x hx => ?_, hhome⟩
      rcases mem_cons.mp hx with rfl | hx
      · exact (not_not.mp hmove).symm
      · exact hkept x hx

theorem relinkSlot_settles (hinc : 0 < incSlots) (hslot : slot < incSlots)
    (hlength : slots.length = incSlots) :
    Settles (Entry.slot incSlots) slot slots (relinkSlot incSlots slot slots) := by
  obtain ⟨hlen, hget, hperm, hkept, hhome⟩ :=
    relinkChain_spec slots (slots.getD slot []) slot hinc hlength
  have hchain : slots[slot]? = some (slots.getD slot []) := by
    rw [getD_eq_getElem?_getD, List.getElem?_eq_getElem (hlength ▸ hslot)]
    rfl
  exact .of_moved (hlen.trans hlength.symm) (hget.trans hchain) hperm hkept
    fun k _ hk => hhome k hk

theorem relink_spec (hinc : 0 < incSlots) (hle : slots.length ≤ incSlots) :
    (relink incSlots slots).length = incSlots ∧
      (relink incSlots slots).flatten.Perm slots.flatten ∧
      Placed (Entry.slot incSlots) (relink incSlots slots) :=
  fold_settles_placed (fun _ _ ht hlength => relinkSlot_settles hinc ht hlength) hle

structure Hashset.WellFormed (fn : HashFunctions) (hs : Hashset) : Prop where
  length : hs.slots.length = hs.numSlots
  placed : Placed (Entry.slot hs.numSlots) hs.slots
  hashed : ∀ x ∈ hs.slots.flatten, x.hash = fn.hashFunc x.data
  distinct : hs.slots.flatten.Pairwise fun x y => fn.compareFunc x.data y.data ≠ 0
  addresses : (hs.slots.flatten.map Entry.address).Nodup
  count : hs.numData = hs.slots.flatten.length

theorem mem_contents {e : Stored} : e ∈ hs.contents ↔ ∃ x ∈ hs.slots.flatten, x.stored = e := by
  rw [Hashset.contents, mem_toFinset, mem_map]

theorem stored_mem_contents (h : entry ∈ hs.slots.flatten) : entry.stored ∈ hs.contents :=
  mem_contents.mpr ⟨entry, h, rfl⟩

theorem contents_of_perm (h : hs'.slots.flatten.Perm hs.slots.flatten) :
    hs'.contents = hs.contents := by
  ext e
  simp only [mem_contents, h.mem_iff]

theorem initSlots_granted (initSize : ℕ) :
    ∃ numSlots, zbxHashsetInitSlots initSize true =
      (⟨numSlots, 0, replicate numSlots []⟩, true) ∧ (0 < initSize → 0 < numSlots) := by
  unfold zbxHashsetInitSlots
  by_cases hsize : 0 < initSize
  · rw [if_pos hsize]
    exact ⟨nextPrime initSize, rfl, fun _ => nextPrime_pos initSize⟩
  · rw [if_neg hsize]
    exact ⟨0, rfl, fun hpos => absurd hpos hsize⟩

theorem emptySlots_wellFormed (numSlots : ℕ) :
    Hashset.WellFormed fn ⟨numSlots, 0, replicate numSlots []⟩ := by
  refine ⟨length_replicate, placed_replicate numSlots, ?_, ?_, ?_, ?_⟩ <;> simp

theorem emptySlots_contents (numSlots : ℕ) (numData : ℤ) :
    Hashset.contents ⟨numSlots, numData, replicate numSlots []⟩ = ∅ := by
  simp [Hashset.contents]

namespace Hashset.WellFormed

variable (h : hs.WellFormed fn)

include h

theorem size : hs.numData = hs.contents.card := by
  have hnodup : (hs.slots.flatten.map Entry.stored).Nodup := by
    refine Nodup.of_map Stored.address ?_
    rw [map_map]
    exact h.addresses
  rw [Hashset.contents, toFinset_card_of_nodup hnodup, length_map]
  exact h.count

theorem contents_distinct {x y : Stored} (hx : x ∈ hs.contents) (hy : y ∈ hs.contents)
    (hfn : fn.Compatible) (hsame : fn.compareFunc x.data y.data = 0) : x = y := by
  obtain ⟨a, ha, rfl⟩ := mem_contents.mp hx
  obtain ⟨b, hb, rfl⟩ := mem_contents.mp hy
  by_contra hne
  have hab : a ≠ b := fun heq => hne (heq ▸ rfl)
  have : Std.Symm fun x y : Entry => fn.compareFunc x.data y.data ≠ 0 :=
    ⟨fun _ _ hxy hyx => hxy (hfn.equivalence.symm hyx)⟩
  exact h.distinct.forall ha hb hab hsame

theorem find_matches (hfn : fn.Compatible) {chain : List Entry}
    (hchain : hs.chain (fn.hashFunc data) = some chain) :
    match chain.find? (Entry.matches fn data) with
    | some x => x ∈ hs.slots.flatten ∧ fn.compareFunc x.data data = 0
    | none => ∀ e ∈ hs.contents, fn.compareFunc e.data data ≠ 0 := by
  split
  · next x hfind =>
    have hmatch := List.find?_some hfind
    simp only [Entry.matches, Bool.and_eq_true, decide_eq_true_eq] at hmatch
    exact ⟨mem_flatten_of_getElem? hchain (mem_of_find?_eq_some hfind), hmatch.2⟩
  · next hfind =>
    intro e he hsame
    obtain ⟨x, hx, rfl⟩ := mem_contents.mp he
    have hhash : x.hash = fn.hashFunc data := (h.hashed x hx).trans (hfn.hash_eq _ _ hsame)
    have hmem : x ∈ chain := by
      refine h.placed.mem_bucket hx ?_
      rw [Entry.slot, hhash]
      exact hchain
    have hnone := List.find?_eq_none.mp hfind x hmem
    exact hnone (by simp [Entry.matches, hhash, show fn.compareFunc x.data data = 0 from hsame])

theorem exists_chain (hpos : 0 < hs.numSlots) (hash : UInt32) :
    ∃ chain, hs.chain hash = some chain := by
  have hlt : hash.toNat % hs.numSlots < hs.slots.length := by
    rw [h.length]
    exact Nat.mod_lt _ hpos
  exact ⟨_, List.getElem?_eq_getElem hlt⟩

theorem slots_eq_nil (hzero : hs.numSlots = 0) : hs.slots = [] :=
  length_eq_zero_iff.mp (h.length.trans hzero)

theorem contents_eq_empty (hzero : hs.numSlots = 0) : hs.contents = ∅ := by
  rw [Hashset.contents, h.slots_eq_nil hzero]
  rfl

variable (hfn : fn.Compatible)

include hfn

theorem of_perm {incSlots : ℕ} {slots : List (List Entry)} (hlength : slots.length = incSlots)
    (hplaced : Placed (Entry.slot incSlots) slots) (hperm : slots.flatten.Perm hs.slots.flatten) :
    Hashset.WellFormed fn ⟨incSlots, hs.numData, slots⟩ := by
  refine ⟨hlength, hplaced, fun x hx => h.hashed x (hperm.mem_iff.mp hx), ?_, ?_, ?_⟩
  · exact (hperm.pairwise_iff fun hxy hyx => hxy (hfn.equivalence.symm hyx)).mpr h.distinct
  · exact (hperm.map Entry.address).nodup_iff.mpr h.addresses
  · rw [h.count, hperm.length_eq]

theorem reserve_spec (numSlotsReq : ℤ) (granted : Bool)
    (hgranted : hs.numSlots = 0 → granted = true) :
    ∃ hs' reserved, zbxHashsetReserve hs numSlotsReq granted = some (hs', reserved) ∧
      hs'.WellFormed fn ∧ hs'.contents = hs.contents ∧ 0 < hs'.numSlots ∧
      (reserved = false → granted = false) := by
  unfold zbxHashsetReserve
  by_cases hzero : hs.numSlots = 0
  · obtain rfl := hgranted hzero
    rw [if_pos hzero]
    obtain ⟨numSlots, hinit, hpos⟩ :=
      initSlots_granted (max 10 (numSlotsReq * (2 - 4 / 5) + 1)).toNat
    refine ⟨_, _, congrArg some hinit, emptySlots_wellFormed numSlots, ?_, hpos (by omega),
      fun hfalse => absurd hfalse (by simp)⟩
    rw [emptySlots_contents, h.contents_eq_empty hzero]
  · rw [if_neg hzero]
    split_ifs with hload hrefused hnil
    · exact ⟨hs, false, rfl, h, rfl, by omega, fun _ => by simpa using hrefused⟩
    · rw [← h.length, hnil] at hzero
      exact absurd rfl hzero
    · have hle : hs.slots.length ≤ nextPrime (hs.numSlots * 3 / 2) := by
        rw [h.length]
        exact le_trans (by omega) (le_nextPrime _)
      obtain ⟨hlength, hperm, hplaced⟩ := relink_spec (nextPrime_pos _) hle
      exact ⟨_, true, rfl, h.of_perm hfn hlength hplaced hperm, contents_of_perm hperm,
        nextPrime_pos _, fun hfalse => absurd hfalse (by simp)⟩
    · exact ⟨hs, true, rfl, h, rfl, by omega, fun hfalse => absurd hfalse (by simp)⟩

theorem link_spec (hpos : 0 < hs.numSlots) (entry : Entry)
    (hhash : entry.hash = fn.hashFunc entry.data)
    (hnew : ∀ e ∈ hs.contents, fn.compareFunc entry.data e.data ≠ 0)
    (haddress : ∀ e ∈ hs.contents, e.address ≠ entry.address) :
    ∃ hs', linkEntry hs entry = some hs' ∧ hs'.WellFormed fn ∧
      hs'.contents = insert entry.stored hs.contents := by
  obtain ⟨chain, hchain⟩ := h.exists_chain hpos entry.hash
  have hperm : (hs.slots.set (entry.slot hs.numSlots) (entry :: chain)).flatten.Perm
      (entry :: hs.slots.flatten) := by
    obtain ⟨rest, hall, hset⟩ := exists_rest hchain
    exact (hset (entry :: chain)).trans (hall.symm.cons entry)
  rw [linkEntry, hchain]
  refine ⟨_, rfl, ⟨?_, ?_, fun x hx => ?_, ?_, ?_, ?_⟩, ?_⟩
  · rw [length_set]
    exact h.length
  · refine h.placed.set fun x hx => ?_
    rcases mem_cons.mp hx with rfl | hx
    · rfl
    · exact h.placed _ chain hchain x hx
  · rcases mem_cons.mp (hperm.mem_iff.mp hx) with rfl | hx
    · exact hhash
    · exact h.hashed x hx
  · refine (hperm.pairwise_iff fun hxy hyx => hxy (hfn.equivalence.symm hyx)).mpr ?_
    exact pairwise_cons.mpr ⟨fun x hx => hnew _ (stored_mem_contents hx), h.distinct⟩
  · refine (hperm.map Entry.address).nodup_iff.mpr (nodup_cons.mpr ⟨fun hmem => ?_, h.addresses⟩)
    obtain ⟨x, hx, heq⟩ := List.mem_map.mp hmem
    exact haddress _ (stored_mem_contents hx) heq
  · rw [hperm.length_eq, length_cons, h.count]
    rfl
  · ext e
    simp only [mem_contents, Finset.mem_insert, hperm.mem_iff, mem_cons]
    constructor
    · rintro ⟨x, rfl | hx, rfl⟩
      · exact .inl rfl
      · exact .inr ⟨x, hx, rfl⟩
    · rintro (rfl | ⟨x, hx, rfl⟩)
      · exact ⟨entry, .inl rfl, rfl⟩
      · exact ⟨x, .inr hx, rfl⟩

theorem unlink_spec {hash : UInt32} {chain : List Entry} (hchain : hs.chain hash = some chain)
    (p : Entry → Bool) :
    ∃ hs', unlinkEntry hs hash p = some hs' ∧ hs'.WellFormed fn ∧
      ((∃ x ∈ chain, p x = true ∧ hs'.contents = hs.contents.erase x.stored) ∨
        (∀ x ∈ chain, p x = false) ∧ hs'.contents = hs.contents) := by
  rw [unlinkEntry, hchain, Option.map_some]
  by_cases hany : chain.any p = true
  · rw [if_pos hany]
    obtain ⟨x, front, back, hfront, hx, hsplit, herase⟩ :=
      exists_of_eraseP (any_eq_true.mp hany).choose_spec.1
        (any_eq_true.mp hany).choose_spec.2
    have hxc : chain.Perm (x :: chain.eraseP p) := by
      rw [herase, hsplit]
      exact perm_middle
    have hperm : hs.slots.flatten.Perm
        (x :: (hs.slots.set (hash.toNat % hs.numSlots) (chain.eraseP p)).flatten) := by
      obtain ⟨rest, hall, hset⟩ := exists_rest hchain
      exact (hall.trans (hxc.append_right rest)).trans ((hset (chain.eraseP p)).symm.cons x)
    have hmem : x ∈ chain := hxc.mem_iff.mpr mem_cons_self
    have hdistinct := (hperm.pairwise_iff
      fun hxy hyx => hxy (hfn.equivalence.symm hyx)).mp h.distinct
    have haddresses := (hperm.map Entry.address).nodup_iff.mp h.addresses
    refine ⟨_, rfl, ⟨?_, ?_, fun y hy => ?_, ?_, ?_, ?_⟩, .inl ⟨x, hmem, hx, ?_⟩⟩
    · rw [length_set]
      exact h.length
    · exact h.placed.set fun y hy => h.placed _ chain hchain y (mem_of_mem_eraseP hy)
    · exact h.hashed y (hperm.mem_iff.mpr (mem_cons_of_mem x hy))
    · exact (pairwise_cons.mp hdistinct).2
    · exact (nodup_cons.mp haddresses).2
    · have hlength := hperm.length_eq
      rw [length_cons] at hlength
      show hs.numData - 1 = _
      rw [h.count, hlength]
      push_cast
      omega
    · ext e
      rw [Finset.mem_erase, mem_contents, mem_contents]
      constructor
      · rintro ⟨y, hy, rfl⟩
        refine ⟨fun heq => (nodup_cons.mp haddresses).1 ?_, y,
          hperm.mem_iff.mpr (mem_cons_of_mem x hy), rfl⟩
        exact List.mem_map.mpr ⟨y, hy, congrArg Stored.address heq⟩
      · rintro ⟨hne, y, hy, rfl⟩
        rcases mem_cons.mp (hperm.mem_iff.mp hy) with rfl | hy
        · exact absurd rfl hne
        · exact ⟨y, hy, rfl⟩
  · rw [if_neg hany]
    refine ⟨hs, rfl, h, .inr ⟨fun x hx => ?_, rfl⟩⟩
    simpa using mt (fun hp => any_eq_true.mpr ⟨x, hx, hp⟩) hany

theorem insertEntry_spec (hpos : 0 < hs.numSlots) {offset n : ℕ} {uniq : Bool} {granted : Granted}
    (hnew : ∀ e ∈ hs.contents, fn.compareFunc e.data data ≠ 0)
    (hentry : ∀ memory ∈ granted.entry, (∀ e ∈ hs.contents, e.address ≠ memory.1) ∧
      fn.compareFunc (entryData offset n data memory.2) data = 0) :
    ∃ hs' result, insertEntry fn hs data offset n granted = some (hs', result) ∧
      hs'.WellFormed fn ∧
      SetStep fn hs.contents (.insertExt data offset n uniq granted) result hs'.contents := by
  obtain ⟨hs₁, reserved, hreserve, h₁, hcontents, hpos₁, hrefused⟩ :=
    h.reserve_spec hfn (hs.numData + 1) granted.moreSlots fun hzero => by omega
  rw [insertEntry, hreserve, Option.bind_some]
  cases reserved with
  | false =>
    rw [← hcontents] at hnew ⊢
    exact ⟨hs₁, none, rfl, h₁, .refused hnew (.inl (hrefused rfl))⟩
  | true =>
    dsimp only
    rw [if_neg (by simp)]
    split
    · next hnone =>
      rw [← hcontents] at hnew ⊢
      exact ⟨hs₁, none, rfl, h₁, .refused hnew (.inr hnone)⟩
    · next address block hsome =>
      obtain ⟨haddress, hcopied⟩ := hentry (address, block) hsome
      obtain ⟨hs₂, hlink, h₂, hcontents₂⟩ := h₁.link_spec hfn hpos₁
        ⟨address, fn.hashFunc data, entryData offset n data block⟩
        (hfn.hash_eq _ _ hcopied).symm
        (fun e he hsame => hnew e (hcontents ▸ he)
          (hfn.equivalence.trans (hfn.equivalence.symm hsame) hcopied))
        (fun e he => haddress e (hcontents ▸ he))
      rw [hlink]
      refine ⟨hs₂, some address, rfl, h₂, ?_⟩
      rw [hcontents₂, hcontents]
      exact .added hnew hsome

theorem insertExt_spec {offset n : ℕ} {uniq : Bool} {granted : Granted}
    (hpermitted : (Operation.insertExt data offset n uniq granted).Permitted fn hs) :
    ∃ hs' result, zbxHashsetInsertExt fn hs data offset n uniq granted = some (hs', result) ∧
      hs'.WellFormed fn ∧
      SetStep fn hs.contents (.insertExt data offset n uniq granted) result hs'.contents := by
  obtain ⟨hslots, hunique, hentry⟩ := hpermitted
  have hready : ∃ hs₁, (if hs.numSlots = 0 then zbxHashsetInitSlots 10 granted.slots
      else (hs, true)) = (hs₁, true) ∧ hs₁.WellFormed fn ∧ hs₁.contents = hs.contents ∧
      0 < hs₁.numSlots := by
    by_cases hzero : hs.numSlots = 0
    · obtain ⟨numSlots, hinit, hpos⟩ := initSlots_granted 10
      rw [if_pos hzero, hslots hzero, hinit]
      refine ⟨_, rfl, emptySlots_wellFormed numSlots, ?_, hpos (by omega)⟩
      rw [emptySlots_contents, h.contents_eq_empty hzero]
    · rw [if_neg hzero]
      exact ⟨hs, rfl, h, rfl, by omega⟩
  obtain ⟨hs₁, hinit, h₁, hcontents, hpos⟩ := hready
  rw [zbxHashsetInsertExt, hinit]
  dsimp only
  rw [if_neg (by simp), ← hcontents]
  rw [← hcontents] at hunique hentry
  cases uniq with
  | true => exact h₁.insertEntry_spec hfn hpos (hunique rfl) hentry
  | false =>
    obtain ⟨chain, hchain⟩ := h₁.exists_chain hpos (fn.hashFunc data)
    have hfind := h₁.find_matches hfn hchain
    rw [if_neg (by simp), hchain, Option.bind_some]
    split
    · next entry hsome =>
      rw [hsome] at hfind
      exact ⟨hs₁, some entry.address, rfl, h₁, .kept (stored_mem_contents hfind.1) hfind.2⟩
    · next hnone =>
      rw [hnone] at hfind
      exact h₁.insertEntry_spec hfn hpos hfind hentry

theorem search_spec (data : Bytes) :
    ∃ result, zbxHashsetSearch fn hs data = some result ∧
      SetStep fn hs.contents (.search data) result hs.contents := by
  unfold zbxHashsetSearch
  by_cases hzero : hs.numSlots = 0
  · rw [if_pos hzero]
    refine ⟨none, rfl, .missing fun e he => ?_⟩
    rw [h.contents_eq_empty hzero] at he
    cases he
  · obtain ⟨chain, hchain⟩ := h.exists_chain (Nat.pos_of_ne_zero hzero) (fn.hashFunc data)
    have hfind := h.find_matches hfn hchain
    rw [if_neg hzero, hchain, Option.map_some]
    refine ⟨_, rfl, ?_⟩
    split at hfind
    · next entry hsome =>
      rw [hsome]
      exact .found (stored_mem_contents hfind.1) hfind.2
    · next hnone =>
      rw [hnone]
      exact .missing hfind

theorem remove_spec (data : Bytes) :
    ∃ hs', zbxHashsetRemove fn hs data = some hs' ∧ hs'.WellFormed fn ∧
      hs'.contents = hs.contents.filter fun e => fn.compareFunc e.data data ≠ 0 := by
  unfold zbxHashsetRemove
  by_cases hzero : hs.numSlots = 0
  · rw [if_pos hzero]
    exact ⟨hs, rfl, h, by simp [h.contents_eq_empty hzero]⟩
  · obtain ⟨chain, hchain⟩ := h.exists_chain (Nat.pos_of_ne_zero hzero) (fn.hashFunc data)
    obtain ⟨hs', hunlink, h', hremoved⟩ := h.unlink_spec hfn hchain (Entry.matches fn data)
    have hfind := h.find_matches hfn hchain
    rw [if_neg hzero]
    refine ⟨hs', hunlink, h', ?_⟩
    rcases hremoved with ⟨x, hx, hmatch, hcontents⟩ | ⟨hnone, hcontents⟩
    · simp only [Entry.matches, Bool.and_eq_true, decide_eq_true_eq] at hmatch
      have hxmem := stored_mem_contents (mem_flatten_of_getElem? hchain hx)
      ext e
      rw [hcontents, Finset.mem_erase, Finset.mem_filter]
      constructor
      · rintro ⟨hne, he⟩
        refine ⟨he, fun hsame => hne (h.contents_distinct he hxmem hfn ?_)⟩
        exact hfn.equivalence.trans hsame (hfn.equivalence.symm hmatch.2)
      · rintro ⟨he, hdiff⟩
        exact ⟨fun heq => hdiff (heq ▸ hmatch.2), he⟩
    · have hfindNone : chain.find? (Entry.matches fn data) = none :=
        List.find?_eq_none.mpr fun x hx => by simp [hnone x hx]
      rw [hfindNone] at hfind
      rw [hcontents, Finset.filter_true_of_mem hfind]

theorem removeDirect_spec {address : ℕ} (hpermitted : ∃ e ∈ hs.contents, e.address = address) :
    ∃ hs', zbxHashsetRemoveDirect hs address = some hs' ∧ hs'.WellFormed fn ∧
      hs'.contents = hs.contents.filter fun e => e.address ≠ address := by
  obtain ⟨e, he, rfl⟩ := hpermitted
  obtain ⟨x, hx, rfl⟩ := mem_contents.mp he
  have hpos : ¬hs.numSlots = 0 := by
    intro hzero
    rw [h.contents_eq_empty hzero] at he
    cases he
  have haddress {y : Entry} (hy : y ∈ hs.slots.flatten) (heq : y.address = x.address) : y = x :=
    inj_on_of_nodup_map h.addresses hy hx heq
  have hfind : (hs.slots.flatten.find? fun y => y.address = x.stored.address) = some x := by
    obtain ⟨y, hy⟩ := Option.isSome_iff_exists.mp (List.find?_isSome
      (p := fun y => decide (y.address = x.stored.address)) |>.mpr ⟨x, hx, by simp [Entry.stored]⟩)
    have hp := List.find?_some hy
    rw [hy, haddress (mem_of_find?_eq_some hy) (of_decide_eq_true hp)]
  obtain ⟨chain, hchain⟩ := h.exists_chain (Nat.pos_of_ne_zero hpos) x.hash
  obtain ⟨hs', hunlink, h', hremoved⟩ :=
    h.unlink_spec hfn hchain fun y => y.address = x.stored.address
  rw [zbxHashsetRemoveDirect, if_neg hpos, hfind]
  refine ⟨hs', hunlink, h', ?_⟩
  rcases hremoved with ⟨y, hy, heq, hcontents⟩ | ⟨hnone, -⟩
  · obtain rfl : y = x :=
      haddress (mem_flatten_of_getElem? hchain hy) (of_decide_eq_true heq)
    ext e
    rw [hcontents, Finset.mem_erase, Finset.mem_filter]
    constructor
    · rintro ⟨hne, hmem⟩
      obtain ⟨z, hz, rfl⟩ := mem_contents.mp hmem
      exact ⟨hmem, fun heq => hne (congrArg Entry.stored (haddress hz heq))⟩
    · rintro ⟨hmem, hdiff⟩
      exact ⟨fun heq => hdiff (heq ▸ rfl), hmem⟩
  · have hmem : x ∈ chain := h.placed.mem_bucket hx hchain
    simpa [Entry.stored] using hnone x hmem

omit hfn

theorem clear_spec : ∃ hs', zbxHashsetClear hs = some hs' ∧ hs'.WellFormed fn ∧
    hs'.contents = ∅ := by
  have hslots : (hs.slots.map fun _ => []) = replicate hs.numSlots ([] : List Entry) := by
    rw [map_const', h.length]
  rw [zbxHashsetClear, if_neg (by rw [h.length]; omega), hslots]
  exact ⟨_, rfl, emptySlots_wellFormed hs.numSlots, emptySlots_contents _ _⟩

theorem apply_spec (hfn : fn.Compatible) {op : Operation} (hpermitted : op.Permitted fn hs) :
    ∃ hs' result, op.apply fn hs = some (hs', result) ∧ hs'.WellFormed fn ∧
      SetStep fn hs.contents op result hs'.contents := by
  cases op with
  | insertExt data offset n uniq granted => exact h.insertExt_spec hfn hpermitted
  | reserve numSlotsReq granted =>
    obtain ⟨hs', reserved, hreserve, h', hcontents, -, -⟩ :=
      h.reserve_spec hfn numSlotsReq _ hpermitted
    refine ⟨hs', none, ?_, h', hcontents ▸ .reserve⟩
    rw [Operation.apply, hreserve]
    rfl
  | search data =>
    obtain ⟨result, hsearch, hstep⟩ := h.search_spec hfn data
    exact ⟨hs, result, by rw [Operation.apply, hsearch]; rfl, h, hstep⟩
  | remove data =>
    obtain ⟨hs', hremove, h', hcontents⟩ := h.remove_spec hfn data
    exact ⟨hs', none, by rw [Operation.apply, hremove]; rfl, h', hcontents ▸ .remove⟩
  | removeDirect address =>
    obtain ⟨hs', hremove, h', hcontents⟩ := h.removeDirect_spec hfn hpermitted
    exact ⟨hs', none, by rw [Operation.apply, hremove]; rfl, h', hcontents ▸ .removeDirect⟩
  | clear =>
    obtain ⟨hs', hclear, h', hcontents⟩ := h.clear_spec
    exact ⟨hs', none, by rw [Operation.apply, hclear]; rfl, h', hcontents ▸ .clear⟩

end Hashset.WellFormed

theorem run_spec (hfn : fn.Compatible) {ops : List Operation} (h : hs.WellFormed fn)
    (hguarded : Guarded (Operation.step fn) (fun hs op => op.Permitted fn hs) hs ops) :
    ∃ hs' results, Operation.run fn hs ops = some (hs', results) ∧ hs'.WellFormed fn ∧
      SetRun fn hs.contents ops results hs'.contents := by
  induction ops generalizing hs with
  | nil => exact ⟨hs, [], rfl, h, .nil⟩
  | cons op ops ih =>
    obtain ⟨hpermitted, hrest⟩ := hguarded
    obtain ⟨hs₁, result, happly, h₁, hstep⟩ := h.apply_spec hfn hpermitted
    have hstep₁ : Operation.step fn hs op = some hs₁ := by rw [Operation.step, happly]; rfl
    rw [hstep₁] at hrest
    obtain ⟨hs', results, hrun, h', hsteps⟩ := ih h₁ hrest
    refine ⟨hs', result :: results, ?_, h', .cons hstep hsteps⟩
    rw [Operation.run, happly, Option.bind_some]
    dsimp only
    rw [hrun]
    rfl

/-- A hash set behaves as a finite set through all permitted operations. -/
theorem hashset_refines_set (hfn : fn.Compatible) (initSize : ℕ) (ops : List Operation)
    (hguarded : Guarded (Operation.step fn) (fun hs op => op.Permitted fn hs)
      (zbxHashsetInitSlots initSize true).1 ops) :
    ∃ hs results, Operation.run fn (zbxHashsetInitSlots initSize true).1 ops = some (hs, results) ∧
      SetRun fn ∅ ops results hs.contents ∧
      hs.numData = hs.contents.card ∧
      (∀ x ∈ hs.contents, ∀ y ∈ hs.contents, fn.compareFunc x.data y.data = 0 → x = y) ∧
      ∀ slot chain, hs.slots[slot]? = some chain →
        ∀ x ∈ chain, (fn.hashFunc x.data).toNat % hs.numSlots = slot := by
  obtain ⟨numSlots, hinit, -⟩ := initSlots_granted initSize
  rw [hinit] at hguarded ⊢
  obtain ⟨hs, results, hrun, h, hsteps⟩ :=
    run_spec hfn (emptySlots_wellFormed numSlots) hguarded
  rw [emptySlots_contents] at hsteps
  refine ⟨hs, results, hrun, hsteps, h.size, fun x hx y hy hsame =>
    h.contents_distinct hx hy hfn hsame, fun slot chain hchain x hx => ?_⟩
  rw [← h.hashed x (mem_flatten_of_getElem? hchain hx)]
  exact h.placed slot chain hchain x hx

def byteFunctions : HashFunctions where
  hashFunc data := (data.headD 0).toUInt32
  compareFunc a b := if a = b then 0 else 1

theorem byteFunctions_compatible : byteFunctions.Compatible := by
  have heq (a b : Bytes) : byteFunctions.compareFunc a b = 0 ↔ a = b := by
    show (if a = b then (0 : ℤ) else 1) = 0 ↔ a = b
    split_ifs with hab <;> simp [hab]
  refine ⟨⟨fun a => (heq a a).mpr rfl, fun hab => ?_, fun hab hbc => ?_⟩, fun a b hab => ?_⟩
  · exact (heq _ _).mpr ((heq _ _).mp hab).symm
  · exact (heq _ _).mpr (((heq _ _).mp hab).trans ((heq _ _).mp hbc))
  · rw [(heq _ _).mp hab]

def granted (address : ℕ) : Granted := ⟨true, true, some (address, [0])⟩

def byteOperations : List Operation :=
  [.insertExt [1] 0 1 false (granted 100), .insertExt [1] 0 1 false (granted 200),
    .insertExt [12] 0 1 true (granted 300), .search [12], .removeDirect 100, .search [1]]

theorem hashset_refines_set_byteOperations :
    ∃ hs results, Operation.run byteFunctions (zbxHashsetInitSlots 0 true).1 byteOperations =
        some (hs, results) ∧
      SetRun byteFunctions ∅ byteOperations results hs.contents ∧
      hs.numData = hs.contents.card ∧
      (∀ x ∈ hs.contents, ∀ y ∈ hs.contents,
        byteFunctions.compareFunc x.data y.data = 0 → x = y) ∧
      ∀ slot chain, hs.slots[slot]? = some chain →
        ∀ x ∈ chain, (byteFunctions.hashFunc x.data).toNat % hs.numSlots = slot :=
  hashset_refines_set byteFunctions_compatible 0 byteOperations (by decide)

/-- Data inserted as unique although it is stored: the set then holds it twice. -/
theorem uniq_stores_twice :
    Operation.run byteFunctions (zbxHashsetInitSlots 0 true).1
        [.insertExt [1] 0 1 false (granted 100), .insertExt [1] 0 1 true (granted 200)] =
      some (⟨11, 2, [[], [⟨200, 1, [1]⟩, ⟨100, 1, [1]⟩], [], [], [], [], [], [], [], [], []]⟩,
        [some 100, some 200]) := by
  decide

end Zabbix.Algo
