import Mathlib.Data.List.Basic
import Mathlib.Logic.Equiv.Basic

/-!
# Heap order of lists

A list is read as a binary tree in level order. Sifting moves an element that may be out of
order, the hole, along one path until the list is ordered.
-/

namespace Zabbix.HeapOrder

variable {α : Type*} {le : α → α → Prop} {l : List α} {i j hole child : ℕ} {x : α}

def LeAt (le : α → α → Prop) (l : List α) (i j : ℕ) : Prop := ∀ x ∈ l[i]?, ∀ y ∈ l[j]?, le x y

def Ordered (le : α → α → Prop) (l : List α) : Prop := ∀ i, 0 < i → LeAt le l ((i - 1) / 2) i

structure HoleOrder (le : α → α → Prop) (l : List α) (hole : ℕ) : Prop where
  except : ∀ i, 0 < i → i ≠ hole → (i - 1) / 2 ≠ hole → LeAt le l ((i - 1) / 2) i
  grand : 0 < hole → ∀ i, 0 < i → (i - 1) / 2 = hole → LeAt le l ((hole - 1) / 2) i

structure UpOrder (le : α → α → Prop) (l : List α) (hole : ℕ) : Prop where
  around : HoleOrder le l hole
  below : ∀ i, 0 < i → (i - 1) / 2 = hole → i ≠ hole → LeAt le l hole i

structure DownOrder (le : α → α → Prop) (l : List α) (hole : ℕ) : Prop where
  around : HoleOrder le l hole
  above : 0 < hole → LeAt le l ((hole - 1) / 2) hole

theorem leAt_of_length_le (h : l.length ≤ j) : LeAt le l i j := by
  intro x _ y hy
  rw [List.getElem?_eq_none h] at hy
  cases hy

theorem UpOrder.ordered (h : UpOrder le l hole) (hle : 0 < hole → LeAt le l ((hole - 1) / 2) hole) :
    Ordered le l := by
  intro i hi
  by_cases hih : i = hole
  · subst hih
    exact hle hi
  · by_cases hparent : (i - 1) / 2 = hole
    · rw [hparent]
      exact h.below i hi hparent hih
    · exact h.around.except i hi hih hparent

theorem DownOrder.ordered (h : DownOrder le l hole)
    (hle : ∀ i, 0 < i → (i - 1) / 2 = hole → i ≠ hole → LeAt le l hole i) : Ordered le l :=
  UpOrder.ordered ⟨h.around, hle⟩ h.above

theorem Ordered.leAt (h : Ordered le l) (htrans : ∀ a b c, le a b → le b c → le a c)
    (hrefl : ∀ a, le a a) (i : ℕ) : LeAt le l 0 i := by
  induction i using Nat.strongRecOn with
  | ind i ih =>
    obtain rfl | hi := Nat.eq_zero_or_pos i
    · intro x hx y hy
      obtain rfl := Option.mem_unique hx hy
      exact hrefl x
    · intro x hx y hy
      have hlt : i < l.length := (List.getElem?_eq_some_iff.mp hy).1
      have hparent : (i - 1) / 2 < l.length := by omega
      have hz := List.getElem?_eq_getElem hparent
      exact htrans _ _ _ (ih _ (by omega) x hx _ hz) (h i hi _ hz y hy)

def swapAt (l : List α) (i j : ℕ) : List α :=
  match l[i]?, l[j]? with
  | some x, some y => (l.set i y).set j x
  | _, _ => l

theorem swapAt_eq (hi : i < l.length) (hj : j < l.length) :
    swapAt l i j = (l.set i l[j]).set j l[i] := by
  rw [swapAt, List.getElem?_eq_getElem hi, List.getElem?_eq_getElem hj]

theorem length_swapAt : (swapAt l i j).length = l.length := by
  unfold swapAt
  split <;> simp

theorem swapAt_perm (hi : i < l.length) (hj : j < l.length) : (swapAt l i j).Perm l := by
  rw [swapAt_eq hi hj]
  exact List.set_set_perm hi hj

theorem getElem?_swapAt (hi : i < l.length) (hj : j < l.length) (k : ℕ) :
    (swapAt l i j)[k]? = l[Equiv.swap i j k]? := by
  rw [swapAt_eq hi hj, List.getElem?_set]
  by_cases hjk : j = k
  · subst hjk
    rw [if_pos rfl, Equiv.swap_apply_right, if_pos (by simpa using hj), List.getElem?_eq_getElem hi]
  · rw [if_neg hjk, List.getElem?_set]
    by_cases hik : i = k
    · subst hik
      rw [if_pos rfl, Equiv.swap_apply_left, if_pos hi, List.getElem?_eq_getElem hj]
    · rw [if_neg hik, Equiv.swap_apply_of_ne_of_ne (Ne.symm hik) (Ne.symm hjk)]

theorem leAt_swapAt (hi : i < l.length) (hj : j < l.length) {a b : ℕ} :
    LeAt le (swapAt l i j) a b ↔ LeAt le l (Equiv.swap i j a) (Equiv.swap i j b) := by
  unfold LeAt
  rw [getElem?_swapAt hi hj, getElem?_swapAt hi hj]

section Sift

variable (htrans : ∀ a b c, le a b → le b c → le a c)

include htrans

theorem LeAt.trans {k : ℕ} (hij : LeAt le l i j) (hjk : LeAt le l j k) (hj : j < l.length) :
    LeAt le l i k := by
  intro x hx y hy
  have hz := List.getElem?_eq_getElem hj
  exact htrans _ _ _ (hij x hx _ hz) (hjk _ hz y hy)

theorem HoleOrder.up (h : HoleOrder le l hole) (hpos : 0 < hole) (hlt : hole < l.length)
    (hle : LeAt le l hole ((hole - 1) / 2)) :
    UpOrder le (swapAt l ((hole - 1) / 2) hole) ((hole - 1) / 2) := by
  have hp : (hole - 1) / 2 < l.length := by omega
  have hself {k : ℕ} (hk : k ≠ (hole - 1) / 2) (hk' : k ≠ hole) :
      Equiv.swap ((hole - 1) / 2) hole k = k := Equiv.swap_apply_of_ne_of_ne hk hk'
  -- what is below the new hole is below the old parent
  have hbelow {i : ℕ} (hi : 0 < i) (hparent : (i - 1) / 2 = (hole - 1) / 2) (hih : i ≠ hole) :
      LeAt le l ((hole - 1) / 2) i := by
    rw [← hparent]
    exact h.except i hi hih (by omega)
  refine ⟨⟨fun i hi hip hparent => ?_, fun hp0 i hi hparent => ?_⟩,
    fun i hi hparent hip => ?_⟩ <;> rw [leAt_swapAt hp hlt]
  · by_cases hih : i = hole
    · exact absurd (by rw [hih]) hparent
    · rw [hself hip hih]
      by_cases hq : (i - 1) / 2 = hole
      · rw [hq, Equiv.swap_apply_right]
        exact h.grand hpos i hi hq
      · rw [hself hparent hq]
        exact h.except i hi hih hq
  · rw [hself (k := ((hole - 1) / 2 - 1) / 2) (by omega) (by omega)]
    have hgrand : LeAt le l (((hole - 1) / 2 - 1) / 2) ((hole - 1) / 2) :=
      h.except _ hp0 (by omega) (by omega)
    by_cases hih : i = hole
    · rw [hih, Equiv.swap_apply_right]
      exact hgrand
    · rw [hself (by omega) hih]
      exact hgrand.trans htrans (hbelow hi hparent hih) hp
  · rw [Equiv.swap_apply_left]
    by_cases hih : i = hole
    · rw [hih, Equiv.swap_apply_right]
      exact hle
    · rw [hself hip hih]
      exact hle.trans htrans (hbelow hi hparent hih) hp

omit htrans in
theorem DownOrder.down (h : DownOrder le l hole) (hc : 0 < child) (hparent : (child - 1) / 2 = hole)
    (hlt : child < l.length) (hle : LeAt le l child hole)
    (hsibling : ∀ i, 0 < i → (i - 1) / 2 = hole → LeAt le l child i) :
    DownOrder le (swapAt l hole child) child := by
  have hh : hole < l.length := by omega
  have hself {k : ℕ} (hk : k ≠ hole) (hk' : k ≠ child) : Equiv.swap hole child k = k :=
    Equiv.swap_apply_of_ne_of_ne hk hk'
  refine ⟨⟨fun i hi hic hq => ?_, fun _ i hi hq => ?_⟩, fun _ => ?_⟩ <;> rw [leAt_swapAt hh hlt]
  · by_cases hih : i = hole
    · subst hih
      rw [Equiv.swap_apply_left, hself (by omega) (by omega)]
      exact h.around.grand hi child hc hparent
    · rw [hself hih hic]
      by_cases hqh : (i - 1) / 2 = hole
      · rw [hqh, Equiv.swap_apply_left]
        exact hsibling i hi hqh
      · rw [hself hqh hq]
        exact h.around.except i hi hih hqh
  · rw [hparent, Equiv.swap_apply_left, hself (by omega) (by omega), ← hq]
    exact h.around.except i hi (by omega) (by omega)
  · rw [hparent, Equiv.swap_apply_left, Equiv.swap_apply_right]
    exact hle

omit htrans in
theorem child_cases (hi : 0 < i) (hparent : (i - 1) / 2 = hole) :
    i = 2 * hole + 1 ∨ i = 2 * hole + 2 := by omega

omit htrans in
theorem DownOrder.stop (h : DownOrder le l hole) (hleft : LeAt le l hole (2 * hole + 1))
    (hright : LeAt le l hole (2 * hole + 2)) : Ordered le l := by
  refine h.ordered fun i hi hparent _ => ?_
  obtain rfl | rfl := child_cases hi hparent
  · exact hleft
  · exact hright

omit htrans in
theorem DownOrder.toChild (h : DownOrder le l hole)
    (hc : child = 2 * hole + 1 ∨ child = 2 * hole + 2) (hlt : child < l.length)
    (hle : LeAt le l child hole) (hleft : LeAt le l child (2 * hole + 1))
    (hright : LeAt le l child (2 * hole + 2)) : DownOrder le (swapAt l hole child) child := by
  refine h.down (by omega) (by omega) hlt hle fun i hi hparent => ?_
  obtain rfl | rfl := child_cases hi hparent
  · exact hleft
  · exact hright

theorem Ordered.set (h : Ordered le l) (hlt : hole < l.length) : HoleOrder le (l.set hole x) hole := by
  have hother {a b : ℕ} (ha : a ≠ hole) (hb : b ≠ hole) (hab : LeAt le l a b) :
      LeAt le (l.set hole x) a b := by
    unfold LeAt
    rw [List.getElem?_set_ne (Ne.symm ha), List.getElem?_set_ne (Ne.symm hb)]
    exact hab
  refine ⟨fun i hi hih hparent => hother hparent hih (h i hi), fun hpos i hi hparent => ?_⟩
  refine hother (by omega) (by omega) ((h hole hpos).trans htrans ?_ hlt)
  rw [← hparent]
  exact h i hi

end Sift

theorem Ordered.append (h : Ordered le l) (x : α) : UpOrder le (l ++ [x]) l.length := by
  have hlen {i : ℕ} (hi : l.length < i) : (l ++ [x]).length ≤ i := by simp; omega
  refine ⟨⟨fun i hi hih hparent => ?_, fun _ i hi hparent => ?_⟩, fun i hi hparent hih => ?_⟩
  · by_cases hlt : i < l.length
    · intro a ha b hb
      rw [List.getElem?_append_left (by omega)] at ha
      rw [List.getElem?_append_left hlt] at hb
      exact h i hi a ha b hb
    · exact leAt_of_length_le (hlen (by omega))
  · exact leAt_of_length_le (hlen (by omega))
  · exact leAt_of_length_le (hlen (by omega))

theorem Ordered.dropLast (h : Ordered le l) : Ordered le l.dropLast := by
  intro i hi a ha b hb
  rw [List.getElem?_dropLast] at ha hb
  split at ha
  · split at hb
    · exact h i hi a ha b hb
    · cases hb
  · cases ha

end Zabbix.HeapOrder
