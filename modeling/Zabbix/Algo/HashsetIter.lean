import Zabbix.Algo.HashsetRefinement

/-!
# Iterating over a hash set

The iterator of `hashset.c`. Entries may be removed at the iterator while it goes over the set;
an iterator that is used where it does not stand at an entry, or that follows an entry that was
freed, is undefined.
-/

namespace Zabbix.Algo

open List Option

variable {fn : HashFunctions} {hs hs' : Hashset} {entry : Entry}
variable {front back : List Entry} {left right : List (List Entry)} {visited : List (Entry × Bool)}

structure HashsetIter where
  slot : ℤ
  entry : Option ℕ
  deriving DecidableEq

def zbxHashsetIterReset (iter : HashsetIter) : HashsetIter := { iter with slot := -1 }

def chainNext (address : ℕ) : List Entry → Option (Option Entry)
  | [] => none
  | entry :: rest => if entry.address = address then some rest.head? else chainNext address rest

def Hashset.next (hs : Hashset) (address : ℕ) : Option (Option Entry) :=
  hs.slots.findSome? (chainNext address)

/-- The loop of `zbx_hashset_iter_next` over the slots from `slot` on. -/
def iterScan (numSlots : ℕ) (iter : HashsetIter) :
    ℕ → List (List Entry) → Option (HashsetIter × Option Entry)
  | slot, [] => if slot = numSlots then some ({ iter with slot := -2 }, none) else none
  | slot, chain :: chains =>
    if slot = numSlots then some ({ iter with slot := -2 }, none)
    else
      match chain with
      | [] => iterScan numSlots iter (slot + 1) chains
      | entry :: _ => some (⟨slot, some entry.address⟩, some entry)

def zbxHashsetIterNext (hs : Hashset) (iter : HashsetIter) : Option (HashsetIter × Option Entry) :=
  let slot := (iter.slot + 1).toNat
  let scan := iterScan hs.numSlots iter slot (hs.slots.drop slot)
  if iter.slot = -2 then some (iter, none)
  else if iter.slot = -1 then scan
  else
    match iter.entry with
    | none => scan
    | some address => (hs.next address).bind fun
      | some entry => some ({ iter with entry := some entry.address }, some entry)
      | none => scan

def unlinkNext (address : ℕ) : List Entry → Option (List Entry × ℕ)
  | prev :: entry :: rest =>
    if entry.address = address then some (prev :: rest, prev.address)
    else (unlinkNext address (entry :: rest)).map fun (chain, before) => (prev :: chain, before)
  | _ => none

def zbxHashsetIterRemove (hs : Hashset) (iter : HashsetIter) : Option (Hashset × HashsetIter) :=
  if iter.slot = -1 ∨ iter.slot = -2 then none
  else
    iter.entry.bind fun address =>
      hs.slots[iter.slot.toNat]?.bind fun
        | [] => none
        | entry :: rest =>
          if entry.address = address then
            some (⟨hs.numSlots, hs.numData - 1, hs.slots.set iter.slot.toNat rest⟩,
              ⟨iter.slot - 1, none⟩)
          else
            (unlinkNext address (entry :: rest)).map fun (chain, before) =>
              (⟨hs.numSlots, hs.numData - 1, hs.slots.set iter.slot.toNat chain⟩,
                { iter with entry := some before })

/-- The loop of a caller: it visits entries and removes those that it chooses by what it has
visited and removed so far. -/
def iterate (choice : List (Entry × Bool) → Entry → Bool) :
    ℕ → Hashset → HashsetIter → List (Entry × Bool) → Option (List (Entry × Bool) × Hashset)
  | 0, _, _, _ => none
  | fuel + 1, hs, iter, visited =>
    (zbxHashsetIterNext hs iter).bind fun
      | (_, none) => some (visited, hs)
      | (iter, some entry) =>
        if choice visited entry then
          (zbxHashsetIterRemove hs iter).bind fun (hs, iter) =>
            iterate choice fuel hs iter (visited ++ [(entry, true)])
        else iterate choice fuel hs iter (visited ++ [(entry, false)])

structure Hashset.Linked (hs : Hashset) : Prop where
  length : hs.slots.length = hs.numSlots
  addresses : (hs.slots.flatten.map Entry.address).Nodup
  count : hs.numData = hs.slots.flatten.length

structure Hashset.Within (hs' hs : Hashset) : Prop where
  numSlots : hs'.numSlots = hs.numSlots
  chains : ∀ (slot : ℕ) (chain' : List Entry), hs'.slots[slot]? = some chain' →
    ∃ chain, hs.slots[slot]? = some chain ∧ chain'.Sublist chain

theorem Hashset.Within.refl (hs : Hashset) : hs.Within hs :=
  ⟨rfl, fun _ chain hchain => ⟨chain, hchain, Sublist.refl chain⟩⟩

theorem Hashset.Within.trans {hs'' : Hashset} (h' : hs''.Within hs') (h : hs'.Within hs) :
    hs''.Within hs := by
  constructor
  · rw [h'.numSlots, h.numSlots]
  · intro slot chain'' hchain''
    obtain ⟨chain', hchain', hsub'⟩ := h'.chains slot chain'' hchain''
    obtain ⟨chain, hchain, hsub⟩ := h.chains slot chain' hchain'
    exact ⟨chain, hchain, hsub'.trans hsub⟩

structure IterAt (hs : Hashset) (iter : HashsetIter) (before : List Entry) (entry : Entry)
    (rest : List Entry) : Prop where
  linked : hs.Linked
  place : ∃ left front back right, hs.slots = left ++ (front ++ entry :: back) :: right ∧
    iter = ⟨left.length, some entry.address⟩ ∧ before = left.flatten ++ front ∧
      rest = back ++ right.flatten

inductive IterBefore (hs : Hashset) (iter : HashsetIter) : List Entry → List Entry → Prop
  | atEntry {before rest : List Entry} {entry : Entry} (h : IterAt hs iter before entry rest) :
      IterBefore hs iter (before ++ [entry]) rest
  | atSlot {left right : List (List Entry)} (hlinked : hs.Linked) (hslots : hs.slots = left ++ right)
      (hslot : iter.slot + 1 = left.length) (hentry : left = [] ∨ iter.entry = none) :
      IterBefore hs iter left.flatten right.flatten

variable {iter : HashsetIter} {before rest : List Entry}

theorem chainNext_of_not_mem {address : ℕ} {chain : List Entry}
    (h : address ∉ chain.map Entry.address) : chainNext address chain = none := by
  induction chain with
  | nil => rfl
  | cons entry chain ih =>
    rw [map_cons, mem_cons, not_or] at h
    rw [chainNext, if_neg (Ne.symm h.1), ih h.2]

theorem chainNext_append (h : entry.address ∉ front.map Entry.address) :
    chainNext entry.address (front ++ entry :: back) = some back.head? := by
  induction front with
  | nil => exact if_pos rfl
  | cons first front ih =>
    rw [map_cons, mem_cons, not_or] at h
    rw [cons_append, chainNext, if_neg (Ne.symm h.1), ih h.2]

theorem unlinkNext_append {prev : Entry} (back : List Entry)
    (h : entry.address ∉ (front ++ [prev]).map Entry.address) :
    unlinkNext entry.address (front ++ prev :: entry :: back) =
      some (front ++ prev :: back, prev.address) := by
  induction front with
  | nil => exact if_pos rfl
  | cons first front ih =>
    rw [cons_append, map_cons, mem_cons, not_or] at h
    have hrest := ih h.2
    cases front with
    | nil =>
      have hne : prev.address ≠ entry.address := by
        intro heq
        exact h.2 (by simp [heq])
      rw [nil_append] at hrest
      rw [singleton_append, unlinkNext, if_neg hne, hrest, map_some]
      rfl
    | cons second front =>
      have hne : second.address ≠ entry.address := by
        intro heq
        exact h.2 (by simp [heq])
      rw [cons_append] at hrest
      rw [cons_append, cons_append, unlinkNext, if_neg hne, hrest, map_some]
      rfl

namespace IterAt

variable (h : IterAt hs iter before entry rest)

include h

theorem flatten_eq : hs.slots.flatten = before ++ entry :: rest := by
  obtain ⟨left, front, back, right, hslots, -, hbefore, hrest⟩ := h.place
  rw [hslots, hbefore, hrest]
  simp

theorem not_mem_before : entry.address ∉ before.map Entry.address := by
  have haddresses := h.linked.addresses
  rw [h.flatten_eq, map_append, map_cons, nodup_append] at haddresses
  intro hmem
  exact haddresses.2.2 _ hmem _ mem_cons_self rfl

theorem next_eq : ∃ left front back right, hs.slots = left ++ (front ++ entry :: back) :: right ∧
    iter = ⟨left.length, some entry.address⟩ ∧ before = left.flatten ++ front ∧
      rest = back ++ right.flatten ∧ hs.next entry.address = some back.head? := by
  obtain ⟨left, front, back, right, hslots, hiter, hbefore, hrest⟩ := h.place
  refine ⟨left, front, back, right, hslots, hiter, hbefore, hrest, ?_⟩
  have hnot := h.not_mem_before
  rw [hbefore, map_append, mem_append, not_or] at hnot
  have hleft : left.findSome? (chainNext entry.address) = none := by
    rw [List.findSome?_eq_none_iff]
    intro chain hchain
    apply chainNext_of_not_mem
    intro hmem
    obtain ⟨x, hx, hsame⟩ := List.mem_map.mp hmem
    exact hnot.1 (List.mem_map.mpr ⟨x, mem_flatten.mpr ⟨chain, hchain, hx⟩, hsame⟩)
  rw [Hashset.next, hslots, List.findSome?_append, hleft, none_or, List.findSome?_cons,
    chainNext_append hnot.2]

end IterAt

theorem IterBefore.linked (h : IterBefore hs iter before rest) : hs.Linked := by
  cases h with
  | atEntry h => exact h.linked
  | atSlot hlinked hslots hslot hentry => exact hlinked

theorem IterBefore.flatten_eq (h : IterBefore hs iter before rest) :
    hs.slots.flatten = before ++ rest := by
  cases h with
  | atEntry h => rw [h.flatten_eq, append_assoc, singleton_append]
  | atSlot hlinked hslots hslot hentry => rw [hslots, flatten_append]

def Proceeds (hs : Hashset) (before : List Entry) :
    List Entry → Option (HashsetIter × Option Entry) → Prop
  | [], result => ∃ iter', result = some (iter', none)
  | entry :: rest, result =>
    ∃ iter', result = some (iter', some entry) ∧ IterAt hs iter' before entry rest

theorem iterScan_spec (hlinked : hs.Linked) (hslots : hs.slots = left ++ right) :
    Proceeds hs left.flatten right.flatten (iterScan hs.numSlots iter left.length right) := by
  induction right generalizing left with
  | nil =>
    have hlast : left.length = hs.numSlots := by rw [← hlinked.length, hslots, append_nil]
    rw [iterScan, if_pos hlast]
    exact ⟨_, rfl⟩
  | cons chain right ih =>
    have hmore : left.length ≠ hs.numSlots := by
      rw [← hlinked.length, hslots, length_append, length_cons]
      omega
    cases chain with
    | nil =>
      have hsplit : hs.slots = (left ++ [[]]) ++ right := by rw [hslots, append_assoc]; rfl
      have hnext := ih hsplit
      rw [iterScan, if_neg hmore]
      simpa using hnext
    | cons entry back =>
      rw [iterScan, if_neg hmore]
      refine ⟨_, rfl, hlinked, left, [], back, right, hslots, rfl, ?_, rfl⟩
      rw [append_nil]

theorem iterNext_scan (hlinked : hs.Linked) (hslots : hs.slots = left ++ right)
    (hslot : iter.slot + 1 = left.length)
    (hscan : zbxHashsetIterNext hs iter = iterScan hs.numSlots iter (iter.slot + 1).toNat
      (hs.slots.drop (iter.slot + 1).toNat)) :
    Proceeds hs left.flatten right.flatten (zbxHashsetIterNext hs iter) := by
  have hfrom : hs.slots.drop left.length = right := by rw [hslots, drop_left]
  rw [hscan, hslot, Int.toNat_natCast, hfrom]
  exact iterScan_spec hlinked hslots

theorem iterNext_spec (h : IterBefore hs iter before rest) :
    Proceeds hs before rest (zbxHashsetIterNext hs iter) := by
  cases h with
  | atSlot hlinked hslots hslot hentry =>
    apply iterNext_scan hlinked hslots hslot
    rw [zbxHashsetIterNext, if_neg (by omega)]
    rcases hentry with hfirst | hnone
    · rw [hfirst, length_nil] at hslot
      exact if_pos (by omega)
    · rw [hnone]
      exact ite_self _
  | @atEntry before _ entry h =>
    obtain ⟨left, front, back, right, hslots, hiter, hbefore, hrest, hnext⟩ := h.next_eq
    have hslot : iter.slot = left.length := by rw [hiter]
    have hentry : iter.entry = some entry.address := by rw [hiter]
    cases back with
    | nil =>
      have hsplit : hs.slots = (left ++ [front ++ [entry]]) ++ right := by rw [hslots]; simp
      have hflat : (left ++ [front ++ [entry]]).flatten = before ++ [entry] := by
        rw [hbefore]
        simp
      rw [hrest, nil_append, ← hflat]
      apply iterNext_scan h.linked hsplit
      · rw [hslot]
        simp
      · rw [zbxHashsetIterNext, if_neg (by omega), if_neg (by omega), hentry]
        simp only [hnext, List.head?_nil, bind_some]
    | cons after back =>
      rw [hrest, cons_append]
      refine ⟨{ iter with entry := some after.address }, ?_, h.linked, left, front ++ [entry], back,
        right, ?_, ?_, ?_, rfl⟩
      · rw [zbxHashsetIterNext, if_neg (by omega), if_neg (by omega), hentry]
        simp only [hnext, List.head?_cons, bind_some]
      · rw [hslots, append_assoc]
        rfl
      · rw [hslot]
      · rw [hbefore, append_assoc]

theorem unlink_linked (hlinked : hs.Linked)
    (hslots : hs.slots = left ++ (front ++ entry :: back) :: right) :
    hs.slots.set left.length (front ++ back) = left ++ (front ++ back) :: right ∧
      Hashset.Linked ⟨hs.numSlots, hs.numData - 1, left ++ (front ++ back) :: right⟩ ∧
      Hashset.Within ⟨hs.numSlots, hs.numData - 1, left ++ (front ++ back) :: right⟩ hs := by
  have hsub : (front ++ back).Sublist (front ++ entry :: back) :=
    (Sublist.refl front).append (sublist_cons_self entry back)
  have hflat : (left ++ (front ++ back) :: right).flatten.Sublist hs.slots.flatten := by
    rw [hslots, flatten_append, flatten_append, flatten_cons, flatten_cons]
    exact (Sublist.refl _).append (hsub.append (Sublist.refl _))
  refine ⟨?_, ⟨?_, ?_, ?_⟩, ?_⟩
  · rw [hslots, set_append_right _ _ (Nat.le_refl _), Nat.sub_self, set_cons_zero]
  · rw [← hlinked.length, hslots, length_append, length_append]
    rfl
  · exact hlinked.addresses.sublist (hflat.map Entry.address)
  · rw [hlinked.count, hslots]
    simp
    omega
  · refine ⟨rfl, ?_⟩
    intro slot chain' hchain'
    rw [hslots]
    rcases lt_trichotomy slot left.length with hlt | heq | hgt
    · rw [List.getElem?_append_left hlt] at hchain'
      refine ⟨chain', ?_, Sublist.refl chain'⟩
      rw [List.getElem?_append_left hlt, hchain']
    · subst heq
      rw [List.getElem?_append_right (Nat.le_refl _), Nat.sub_self, List.getElem?_cons_zero,
        Option.some.injEq] at hchain'
      subst hchain'
      refine ⟨front ++ entry :: back, ?_, hsub⟩
      rw [List.getElem?_append_right (Nat.le_refl _), Nat.sub_self, List.getElem?_cons_zero]
    · obtain ⟨k, rfl⟩ := Nat.exists_eq_add_of_lt hgt
      rw [List.getElem?_append_right (by omega),
        show left.length + k + 1 - left.length = k + 1 by omega, List.getElem?_cons_succ] at hchain'
      refine ⟨chain', ?_, Sublist.refl chain'⟩
      rw [List.getElem?_append_right (by omega),
        show left.length + k + 1 - left.length = k + 1 by omega, List.getElem?_cons_succ, hchain']

theorem iterRemove_spec (h : IterAt hs iter before entry rest) :
    ∃ hs' iter', zbxHashsetIterRemove hs iter = some (hs', iter') ∧ hs'.Within hs ∧
      IterBefore hs' iter' before rest := by
  obtain ⟨left, front, back, right, hslots, hiter, hbefore, hrest⟩ := h.place
  have hnot := h.not_mem_before
  rw [hbefore, map_append, mem_append, not_or] at hnot
  obtain ⟨hset, hlinked, hwithin⟩ := unlink_linked h.linked hslots
  have hchain : hs.slots[left.length]? = some (front ++ entry :: back) := by
    rw [hslots, List.getElem?_append_right (Nat.le_refl _), Nat.sub_self, List.getElem?_cons_zero]
  refine ⟨⟨hs.numSlots, hs.numData - 1, left ++ (front ++ back) :: right⟩, ?_⟩
  have hstands : ¬((left.length : ℤ) = -1 ∨ (left.length : ℤ) = -2) := by omega
  rw [zbxHashsetIterRemove, hiter, if_neg hstands, bind_some, Int.toNat_natCast, hchain,
    bind_some, hbefore, hrest]
  cases front using reverseRecOn with
  | nil =>
    rw [nil_append] at hset ⊢
    refine ⟨⟨left.length - 1, none⟩, ?_, hwithin, ?_⟩
    · simp only [nil_append, if_true, hset]
    · rw [append_nil, ← flatten_cons]
      apply IterBefore.atSlot hlinked
      · rfl
      · simp
      · exact Or.inr rfl
  | append_singleton front prev =>
    have hunlink := unlinkNext_append back hnot.2
    refine ⟨⟨left.length, some prev.address⟩, ?_, hwithin, ?_⟩
    · have hfirst : ∃ first others, front ++ prev :: entry :: back = first :: others ∧
          first.address ≠ entry.address := by
        cases front with
        | nil => exact ⟨prev, entry :: back, rfl, fun heq => hnot.2 (by simp [heq])⟩
        | cons first front =>
          exact ⟨first, front ++ prev :: entry :: back, rfl, fun heq => hnot.2 (by simp [heq])⟩
      obtain ⟨first, others, hcons, hne⟩ := hfirst
      rw [append_assoc, singleton_append] at hset
      rw [append_assoc, singleton_append, hcons]
      simp only [if_neg hne, ← hcons, hunlink, map_some, hset]
      rw [append_assoc, singleton_append]
    · rw [← append_assoc]
      apply IterBefore.atEntry
      refine ⟨hlinked, left, front, back, right, ?_, rfl, rfl, rfl⟩
      rw [append_assoc]
      rfl

def stayed (visited : List (Entry × Bool)) : List Entry :=
  (visited.filter fun v => !v.2).map Prod.fst

theorem stayed_append (visited : List (Entry × Bool)) (entry : Entry) (removed : Bool) :
    stayed (visited ++ [(entry, removed)]) = stayed visited ++ if removed then [] else [entry] := by
  rw [stayed, filter_append, map_append]
  cases removed <;> rfl

def Follows (choice : List (Entry × Bool) → Entry → Bool) (visited : List (Entry × Bool)) : Prop :=
  ∀ front entry removed back, visited = front ++ (entry, removed) :: back →
    removed = choice front entry

theorem follows_append {choice : List (Entry × Bool) → Entry → Bool} (h : Follows choice visited)
    (entry : Entry) :
    Follows choice (visited ++ [(entry, choice visited entry)]) := by
  intro front x removed back hsplit
  cases back using reverseRecOn with
  | nil =>
    obtain ⟨hfront, hlast⟩ := append_inj' hsplit rfl
    rw [List.cons.injEq, Prod.mk.injEq] at hlast
    rw [← hfront, ← hlast.1.1, ← hlast.1.2]
  | append_singleton back last =>
    rw [← cons_append, ← append_assoc] at hsplit
    exact h front x removed back (append_inj' hsplit rfl).1

theorem iterate_spec (choice : List (Entry × Bool) → Entry → Bool)
    (h : IterBefore hs iter (stayed visited) rest) (hfollows : Follows choice visited) {fuel : ℕ}
    (hfuel : rest.length < fuel) :
    ∃ visited' hs', iterate choice fuel hs iter visited = some (visited', hs') ∧
      visited'.map Prod.fst = visited.map Prod.fst ++ rest ∧ Follows choice visited' ∧
      hs'.Linked ∧ hs'.Within hs ∧ hs'.slots.flatten = stayed visited' := by
  induction rest generalizing hs iter visited fuel with
  | nil =>
    obtain ⟨fuel, rfl⟩ := Nat.exists_eq_add_of_lt hfuel
    obtain ⟨iter', hnext⟩ := iterNext_spec h
    refine ⟨visited, hs, ?_, (append_nil _).symm, hfollows, h.linked, .refl hs, ?_⟩
    · rw [iterate, hnext, bind_some]
    · rw [h.flatten_eq, append_nil]
  | cons entry rest ih =>
    cases fuel with
    | zero => exact absurd hfuel (Nat.not_lt_zero _)
    | succ fuel =>
      rw [length_cons, Nat.add_lt_add_iff_right] at hfuel
      obtain ⟨iter₁, hnext, hat⟩ := iterNext_spec h
      have hvisit := follows_append hfollows entry
      rw [iterate, hnext, bind_some]
      cases hchoice : choice visited entry with
      | true =>
        obtain ⟨hs₁, iter₂, hremove, hwithin₁, hbefore⟩ := iterRemove_spec hat
        rw [hchoice] at hvisit
        have hstayed : stayed (visited ++ [(entry, true)]) = stayed visited := by
          rw [stayed_append, if_pos rfl, append_nil]
        rw [← hstayed] at hbefore
        obtain ⟨visited', hs', hrun, hvisited, hfollows', hlinked, hwithin, hflat⟩ :=
          ih hbefore hvisit hfuel
        refine ⟨visited', hs', ?_, ?_, hfollows', hlinked, hwithin.trans hwithin₁, hflat⟩
        · simp only [hchoice, if_true, hremove, bind_some, hrun]
        · rw [hvisited, map_append, append_assoc]
          rfl
      | false =>
        rw [hchoice] at hvisit
        have hbefore := IterBefore.atEntry hat
        have hstayed : stayed (visited ++ [(entry, false)]) = stayed visited ++ [entry] := by
          rw [stayed_append]
          rfl
        rw [← hstayed] at hbefore
        obtain ⟨visited', hs', hrun, hvisited, hfollows', hlinked, hwithin, hflat⟩ :=
          ih hbefore hvisit hfuel
        refine ⟨visited', hs', ?_, ?_, hfollows', hlinked, hwithin, hflat⟩
        · simp only [hchoice, Bool.false_eq_true, if_false, hrun]
        · rw [hvisited, map_append, append_assoc]
          rfl

theorem stayed_sublist (visited : List (Entry × Bool)) :
    (stayed visited).Sublist (visited.map Prod.fst) :=
  Sublist.map Prod.fst filter_sublist

theorem reset_before (iter : HashsetIter) (h : hs.Linked) :
    IterBefore hs (zbxHashsetIterReset iter) (stayed []) hs.slots.flatten := by
  have hstart : hs.slots = [] ++ hs.slots := rfl
  exact .atSlot h hstart rfl (Or.inl rfl)

theorem Hashset.WellFormed.of_within (h : hs.WellFormed fn) (hlinked : hs'.Linked)
    (hwithin : hs'.Within hs) (hsub : hs'.slots.flatten.Sublist hs.slots.flatten) :
    hs'.WellFormed fn := by
  refine ⟨hlinked.length, ?_, ?_, ?_, hlinked.addresses, hlinked.count⟩
  · intro slot chain' hchain' x hx
    obtain ⟨chain, hchain, hchainSub⟩ := hwithin.chains slot chain' hchain'
    rw [hwithin.numSlots]
    exact h.placed slot chain hchain x (hchainSub.subset hx)
  · intro x hx
    exact h.hashed x (hsub.subset hx)
  · exact h.distinct.sublist hsub

/-- Whatever a caller removes, it visits every entry once, and the other entries are left, counted
and each in its chain. -/
theorem hashsetIter_visits_once (h : hs.Linked) (iter : HashsetIter)
    (choice : List (Entry × Bool) → Entry → Bool) {fuel : ℕ}
    (hfuel : hs.slots.flatten.length < fuel) :
    ∃ visited hs', iterate choice fuel hs (zbxHashsetIterReset iter) [] = some (visited, hs') ∧
      visited.map Prod.fst = hs.slots.flatten ∧ hs.slots.flatten.Nodup ∧
      Follows choice visited ∧ hs'.slots.flatten = stayed visited ∧
      hs'.numData = hs'.slots.flatten.length ∧ ∀ fn, hs.WellFormed fn → hs'.WellFormed fn := by
  have hfollows : Follows choice [] := by
    intro front entry removed back hsplit
    cases front <;> cases hsplit
  obtain ⟨visited, hs', hrun, hvisited, hfollowed, hlinked, hwithin, hflat⟩ :=
    iterate_spec choice (reset_before iter h) hfollows hfuel
  refine ⟨visited, hs', hrun, hvisited, h.addresses.of_map _, hfollowed, hflat, hlinked.count, ?_⟩
  intro fn hwell
  apply hwell.of_within hlinked hwithin
  rw [hflat, ← nil_append hs.slots.flatten]
  exact hvisited ▸ stayed_sublist visited

def threeEntries : Hashset :=
  ⟨3, 3, [[⟨100, 0, [0]⟩, ⟨200, 3, [3]⟩], [], [⟨300, 2, [2]⟩]]⟩

theorem threeEntries_linked : threeEntries.Linked := ⟨rfl, by decide, rfl⟩

theorem hashsetIter_visits_once_threeEntries :
    ∃ visited hs', iterate (fun visited _ => visited.length < 2) 4 threeEntries
        (zbxHashsetIterReset ⟨0, none⟩) [] = some (visited, hs') ∧
      visited.map Prod.fst = threeEntries.slots.flatten ∧ threeEntries.slots.flatten.Nodup ∧
      Follows (fun visited _ => visited.length < 2) visited ∧ hs'.slots.flatten = stayed visited ∧
      hs'.numData = hs'.slots.flatten.length ∧
      ∀ fn, threeEntries.WellFormed fn → hs'.WellFormed fn :=
  hashsetIter_visits_once threeEntries_linked ⟨0, none⟩ _ (by decide)

end Zabbix.Algo
