import Mathlib.Data.List.Basic

/-!
# Doubly linked lists in a word memory

A node is the address of a record whose words at `prevOff` and `nextOff` point to its
neighbours, zero standing for none.
-/

namespace Zabbix.DoublyLinked

open List Function

variable (prevOff nextOff : ℕ)

def Linked (mem : ℕ → ℕ) : ℕ → List ℕ → ℕ → Prop
  | _, [], _ => True
  | prev, p :: ps, next =>
    mem (p + prevOff) = prev ∧ mem (p + nextOff) = ps.headD next ∧ Linked mem p ps next

def Apart (nodes : List ℕ) : Prop :=
  ∀ p ∈ nodes, ∀ q ∈ nodes, p + prevOff ≠ q + nextOff

variable {prevOff nextOff} {mem mem' : ℕ → ℕ} {prev next p : ℕ} {ps qs : List ℕ}

theorem Apart.subset (h : Apart prevOff nextOff qs) (hsub : ps ⊆ qs) : Apart prevOff nextOff ps :=
  fun p hp q hq => h p (hsub hp) q (hsub hq)

theorem linked_append : Linked prevOff nextOff mem prev (ps ++ qs) next ↔
    Linked prevOff nextOff mem prev ps (qs.headD next) ∧
      Linked prevOff nextOff mem (ps.getLastD prev) qs next := by
  induction ps generalizing prev with
  | nil => simp [Linked]
  | cons p ps ih =>
    have hhead : (ps ++ qs).headD next = ps.headD (qs.headD next) := by cases ps <;> rfl
    have hlast : (p :: ps).getLastD prev = ps.getLastD p := by cases ps <;> rfl
    simp only [cons_append, Linked, ih, hhead, hlast]
    tauto

theorem Linked.frame (h : Linked prevOff nextOff mem prev ps next)
    (hmem : ∀ q ∈ ps, mem' (q + prevOff) = mem (q + prevOff) ∧
      mem' (q + nextOff) = mem (q + nextOff)) :
    Linked prevOff nextOff mem' prev ps next := by
  induction ps generalizing prev with
  | nil => trivial
  | cons p ps ih =>
    obtain ⟨hprev, hnext, hrest⟩ := h
    have hp := hmem p (by simp)
    exact ⟨hp.1.trans hprev, hp.2.trans hnext, ih hrest fun q hq => hmem q (by simp [hq])⟩

theorem Linked.frame_update (h : Linked prevOff nextOff mem prev ps next) {a : ℕ} (v : ℕ)
    (ha : ∀ q ∈ ps, a ≠ q + prevOff ∧ a ≠ q + nextOff) :
    Linked prevOff nextOff (update mem a v) prev ps next :=
  h.frame fun q hq => ⟨update_of_ne (ha q hq).1.symm v mem, update_of_ne (ha q hq).2.symm v mem⟩

theorem Linked.setPrev (h : Linked prevOff nextOff mem prev (p :: ps) next) (hnodup : (p :: ps).Nodup)
    (hapart : Apart prevOff nextOff (p :: ps)) (v : ℕ) :
    Linked prevOff nextOff (update mem (p + prevOff) v) v (p :: ps) next := by
  obtain ⟨-, hnext, hrest⟩ := h
  refine ⟨update_self _ _ _, ?_, hrest.frame_update v fun q hq => ⟨?_, ?_⟩⟩
  · rw [update_of_ne (hapart p (by simp) p (by simp)).symm]
    exact hnext
  · intro heq
    obtain rfl : p = q := Nat.add_right_cancel heq
    exact (nodup_cons.mp hnodup).1 hq
  · exact hapart p (by simp) q (by simp [hq])

theorem Linked.setNext (h : Linked prevOff nextOff mem prev (ps ++ [p]) next)
    (hnodup : (ps ++ [p]).Nodup) (hapart : Apart prevOff nextOff (ps ++ [p])) (v : ℕ) :
    Linked prevOff nextOff (update mem (p + nextOff) v) prev (ps ++ [p]) v := by
  obtain ⟨hps, hp, -, -⟩ := linked_append.mp h
  refine linked_append.mpr ⟨hps.frame_update v fun q hq => ⟨?_, ?_⟩, ?_, ?_, trivial⟩
  · exact (hapart q (by simp [hq]) p (by simp)).symm
  · intro heq
    obtain rfl : p = q := Nat.add_right_cancel heq
    exact (nodup_append.mp hnodup).2.2 p hq p (by simp) rfl
  · rw [update_of_ne (hapart p (by simp) p (by simp))]
    exact hp
  · exact update_self _ _ _

variable (prevOff nextOff)

def pushFront (mem : ℕ → ℕ) (first p : ℕ) : ℕ → ℕ :=
  let mem := if first = 0 then mem else update mem (first + prevOff) p
  update (update mem (p + prevOff) 0) (p + nextOff) first

def unlink (mem : ℕ → ℕ) (p : ℕ) : ℕ → ℕ :=
  let prev := mem (p + prevOff)
  let next := mem (p + nextOff)
  let mem := if prev = 0 then mem else update mem (prev + nextOff) next
  if next = 0 then mem else update mem (next + prevOff) prev

variable {prevOff nextOff}

theorem pushFront_linked (h : Linked prevOff nextOff mem 0 ps 0) (hnodup : (p :: ps).Nodup)
    (hapart : Apart prevOff nextOff (p :: ps)) (hzero : 0 ∉ ps) :
    Linked prevOff nextOff (pushFront prevOff nextOff mem (ps.headD 0) p) 0 (p :: ps) 0 := by
  have hp : ∀ q ∈ ps, p ≠ q := fun q hq heq => (nodup_cons.mp hnodup).1 (heq ▸ hq)
  have hself : p + prevOff ≠ p + nextOff := hapart p (by simp) p (by simp)
  have htail : Linked prevOff nextOff
      (if ps.headD 0 = 0 then mem else update mem (ps.headD 0 + prevOff) p) p ps 0 := by
    cases ps with
    | nil => trivial
    | cons q qs =>
      have hq : q ≠ 0 := fun heq => hzero (by simp [heq])
      rw [headD_cons, if_neg hq]
      exact h.setPrev hnodup.of_cons (hapart.subset (by simp)) p
  refine ⟨?_, update_self _ _ _, ?_⟩
  · show update _ (p + nextOff) _ (p + prevOff) = 0
    rw [update_of_ne hself, update_self]
  · refine (htail.frame_update 0 fun q hq => ⟨?_, ?_⟩).frame_update _ fun q hq => ⟨?_, ?_⟩
    · exact fun heq => hp q hq (Nat.add_right_cancel heq)
    · exact hapart p (by simp) q (by simp [hq])
    · exact (hapart q (by simp [hq]) p (by simp)).symm
    · exact fun heq => hp q hq (Nat.add_right_cancel heq)

theorem Linked.setLast (h : Linked prevOff nextOff mem 0 ps next) (hnodup : ps.Nodup)
    (hapart : Apart prevOff nextOff ps) (hzero : 0 ∉ ps) (v : ℕ) :
    Linked prevOff nextOff (if ps.getLastD 0 = 0 then mem
      else update mem (ps.getLastD 0 + nextOff) v) 0 ps v := by
  rcases eq_nil_or_concat' ps with rfl | ⟨front, last, rfl⟩
  · trivial
  · rw [getLastD_concat, if_neg fun heq => hzero (by simp [heq])]
    exact h.setNext hnodup hapart v

theorem Linked.setFirst (h : Linked prevOff nextOff mem prev ps 0) (hnodup : ps.Nodup)
    (hapart : Apart prevOff nextOff ps) (hzero : 0 ∉ ps) (v : ℕ) :
    Linked prevOff nextOff (if ps.headD 0 = 0 then mem
      else update mem (ps.headD 0 + prevOff) v) v ps 0 := by
  cases ps with
  | nil => trivial
  | cons p ps =>
    rw [headD_cons, if_neg fun heq => hzero (by simp [heq])]
    exact h.setPrev hnodup hapart v

theorem getLastD_mem (h : ps.getLastD 0 ≠ 0) : ps.getLastD 0 ∈ ps := by
  rcases eq_nil_or_concat' ps with rfl | ⟨front, last, rfl⟩
  · exact absurd rfl h
  · simp

theorem headD_mem (h : ps.headD 0 ≠ 0) : ps.headD 0 ∈ ps := by
  cases ps with
  | nil => exact absurd rfl h
  | cons p ps => simp

theorem unlink_linked (h : Linked prevOff nextOff mem 0 (ps ++ p :: qs) 0)
    (hnodup : (ps ++ p :: qs).Nodup) (hapart : Apart prevOff nextOff (ps ++ p :: qs))
    (hzero : 0 ∉ ps ++ p :: qs) :
    Linked prevOff nextOff (unlink prevOff nextOff mem p) 0 (ps ++ qs) 0 := by
  obtain ⟨hps, hprev, hnext, hqs⟩ := linked_append.mp h
  have hps_sub : ps ⊆ ps ++ p :: qs := subset_append_left _ _
  have hqs_sub : qs ⊆ ps ++ p :: qs := subset_append_of_subset_right _ (subset_cons_self p qs)
  have hps_nodup : ps.Nodup := (nodup_append.mp hnodup).1
  have hqs_nodup : qs.Nodup := (nodup_append.mp hnodup).2.1.of_cons
  have hdisjoint : ∀ a ∈ ps, ∀ b ∈ qs, a ≠ b := fun a ha b hb =>
    (nodup_append.mp hnodup).2.2 a ha b (by simp [hb])
  unfold unlink
  simp only [hprev, hnext]
  -- the link forward over `p`, then the one back
  have hps₁ := hps.setLast hps_nodup (hapart.subset hps_sub) (fun hz => hzero (hps_sub hz))
    (qs.headD 0)
  have hqs₁ : Linked prevOff nextOff (if ps.getLastD 0 = 0 then mem
      else update mem (ps.getLastD 0 + nextOff) (qs.headD 0)) p qs 0 := by
    split
    · exact hqs
    · next hlast =>
      have hmem := getLastD_mem hlast
      refine hqs.frame_update _ fun b hb => ⟨?_, ?_⟩
      · exact (hapart b (hqs_sub hb) _ (hps_sub hmem)).symm
      · exact fun heq => hdisjoint _ hmem b hb (Nat.add_right_cancel heq)
  refine linked_append.mpr ⟨?_, hqs₁.setFirst hqs_nodup (hapart.subset hqs_sub)
    (fun hz => hzero (hqs_sub hz)) _⟩
  split
  · exact hps₁
  · next hfirst =>
    have hmem := headD_mem hfirst
    refine hps₁.frame_update _ fun a ha => ⟨?_, ?_⟩
    · exact fun heq => hdisjoint a ha _ hmem (Nat.add_right_cancel heq).symm
    · exact hapart _ (hqs_sub hmem) a (hps_sub ha)

theorem unlink_head (h : Linked prevOff nextOff mem 0 (ps ++ p :: qs) 0)
    (hzero : 0 ∉ ps ++ p :: qs) :
    (if mem (p + prevOff) = 0 then mem (p + nextOff) else (ps ++ p :: qs).headD 0) =
      (ps ++ qs).headD 0 := by
  obtain ⟨-, hprev, hnext, -⟩ := linked_append.mp h
  rw [hprev, hnext]
  cases ps with
  | nil => simp
  | cons q ps =>
    have hlast : (q :: ps).getLastD 0 ≠ 0 := by
      intro heq
      have hmem : (q :: ps).getLastD 0 ∈ q :: ps := by
        rcases eq_nil_or_concat' (q :: ps) with hnil | ⟨front, last, hconcat⟩
        · cases hnil
        · rw [hconcat]
          simp
      rw [heq] at hmem
      exact hzero (mem_append_left _ hmem)
    rw [if_neg hlast]
    rfl

theorem pushFront_of_ne {a first : ℕ} (hp : a ≠ p + prevOff ∧ a ≠ p + nextOff)
    (hfirst : first ≠ 0 → a ≠ first + prevOff) :
    pushFront prevOff nextOff mem first p a = mem a := by
  unfold pushFront
  rw [update_of_ne hp.2, update_of_ne hp.1]
  split
  · rfl
  · next hne => exact update_of_ne (hfirst hne) _ _

theorem unlink_of_ne (h : Linked prevOff nextOff mem 0 (ps ++ p :: qs) 0) {a : ℕ}
    (ha : ∀ q ∈ ps ++ qs, a ≠ q + prevOff ∧ a ≠ q + nextOff) :
    unlink prevOff nextOff mem p a = mem a := by
  obtain ⟨-, hprev, hnext, -⟩ := linked_append.mp h
  have hlast : ps.getLastD 0 ≠ 0 → a ≠ ps.getLastD 0 + nextOff := fun hne =>
    (ha _ (mem_append_left _ (getLastD_mem hne))).2
  have hfirst : qs.headD 0 ≠ 0 → a ≠ qs.headD 0 + prevOff := fun hne =>
    (ha _ (mem_append_right _ (headD_mem hne))).1
  unfold unlink
  simp only [hprev, hnext]
  have hback : (if ps.getLastD 0 = 0 then mem
      else update mem (ps.getLastD 0 + nextOff) (qs.headD 0)) a = mem a := by
    split
    · rfl
    · next hne => exact update_of_ne (hlast hne) _ _
  split
  · exact hback
  · next hne => exact (update_of_ne (hfirst hne) _ _).trans hback

end Zabbix.DoublyLinked
