import Mathlib.Data.List.Count
import Mathlib.Data.List.Perm.Basic

/-!
# Vectors whose order does not matter

An element is taken out of a vector by putting the last one in its place. What is left is
described by how often it has each element.
-/

namespace Zabbix.Vector

open List

variable {α : Type*} {l : List α} {a : α} {index : ℕ}

theorem perm_set (h : l[index]? = some a) :
    ∃ rest, l.Perm (a :: rest) ∧ ∀ b, (l.set index b).Perm (b :: rest) := by
  obtain ⟨hlt, rfl⟩ := List.getElem?_eq_some_iff.mp h
  exact ⟨l.eraseIdx index, (getElem_cons_eraseIdx_perm hlt).symm,
    fun b => set_perm_cons_eraseIdx hlt b⟩

theorem perm_replace {last : α} (h : l[index]? = some a) (hlast : l.getLast? = some last) :
    l.Perm (a :: l.dropLast.set index last) := by
  have hsplit := perm_append_singleton last l.dropLast
  rw [dropLast_append_getLast? last hlast] at hsplit
  have hlt := (List.getElem?_eq_some_iff.mp h).1
  by_cases hindex : index = l.length - 1
  · rw [getLast?_eq_getElem?, ← hindex, h] at hlast
    obtain rfl := Option.some.inj hlast
    rw [set_eq_of_length_le (by rw [length_dropLast]; omega)]
    exact hsplit
  · have h' : l.dropLast[index]? = some a := by
      rw [List.getElem?_dropLast, if_pos (by omega), h]
    obtain ⟨rest, hrest, hset⟩ := perm_set h'
    exact hsplit.trans ((hrest.cons last).trans
      ((Perm.swap _ _ _).trans ((hset last).symm.cons a)))

def removeNoorder (l : List α) (index : ℕ) : List α :=
  match l.getLast? with
  | none => l
  | some last => l.dropLast.set index last

theorem perm_removeNoorder (h : l[index]? = some a) : l.Perm (a :: removeNoorder l index) := by
  have hne : l ≠ [] := by
    rintro rfl
    simp at h
  have hlast := getLast?_eq_some_getLast hne
  rw [removeNoorder, hlast]
  exact perm_replace h hlast

theorem length_removeNoorder (h : l[index]? = some a) :
    l.length = (removeNoorder l index).length + 1 := by
  rw [(perm_removeNoorder h).length_eq, length_cons]

theorem take_removeNoorder (h : l[index]? = some a) :
    (removeNoorder l index).take index = l.take index := by
  have hne : l ≠ [] := by
    rintro rfl
    simp at h
  have hlt := (List.getElem?_eq_some_iff.mp h).1
  rw [removeNoorder, getLast?_eq_some_getLast hne]
  show List.take index (l.dropLast.set index (l.getLast hne)) = l.take index
  rw [take_set_of_le (Nat.le_refl index), dropLast_eq_take, take_take, Nat.min_eq_left (by omega)]

variable [DecidableEq α]

def removeValue (l : List α) (a : α) : List α :=
  match l.idxOf? a with
  | none => l
  | some index => removeNoorder l index

theorem removeValue_of_notMem (h : a ∉ l) : removeValue l a = l := by
  rw [removeValue, idxOf?_eq_none_iff.mpr h]

theorem perm_removeValue (h : a ∈ l) : l.Perm (a :: removeValue l a) := by
  obtain ⟨index, hindex⟩ := Option.isSome_iff_exists.mp (isSome_idxOf?.mpr h)
  rw [removeValue, hindex]
  refine perm_removeNoorder (List.getElem?_eq_some_iff.mpr ?_)
  obtain ⟨hlt, heq, -⟩ := idxOf?_eq_some_iff.mp hindex
  exact ⟨hlt, heq⟩

theorem nodup_removeValue (h : l.Nodup) : (removeValue l a).Nodup := by
  by_cases hmem : a ∈ l
  · exact (nodup_cons.mp ((perm_removeValue hmem).nodup_iff.mp h)).2
  · rwa [removeValue_of_notMem hmem]

theorem mem_removeValue (h : l.Nodup) {b : α} : b ∈ removeValue l a ↔ b ≠ a ∧ b ∈ l := by
  by_cases hmem : a ∈ l
  · have hnot := (nodup_cons.mp ((perm_removeValue hmem).nodup_iff.mp h)).1
    rw [(perm_removeValue hmem).mem_iff, mem_cons]
    constructor
    · exact fun hb => ⟨fun heq => hnot (heq ▸ hb), .inr hb⟩
    · rintro ⟨hne, rfl | hb⟩
      · exact absurd rfl hne
      · exact hb
  · rw [removeValue_of_notMem hmem]
    exact ⟨fun hb => ⟨fun heq => hmem (heq ▸ hb), hb⟩, And.right⟩

end Zabbix.Vector
