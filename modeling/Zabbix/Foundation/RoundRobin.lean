import Mathlib.Data.List.Basic
import Mathlib.Logic.Function.Iterate

/-!
# Taking turns

The head of a queue is changed and goes to its end. After `k` turns the head is element
`k % n` of the queue there was at first, changed `k / n` times.
-/

namespace Zabbix

open Nat

variable {α : Type*} {f : α → α} {l : List α} {k i : ℕ}

def advance (f : α → α) : List α → List α
  | [] => []
  | a :: rest => rest ++ [f a]

def turns (f : α → α) (l : List α) : ℕ → List α
  | 0 => l
  | k + 1 => advance f (turns f l k)

theorem length_advance (f : α → α) (l : List α) : (advance f l).length = l.length := by
  cases l with
  | nil => rfl
  | cons a rest => rw [advance, List.length_append, List.length_cons]; rfl

@[simp] theorem length_turns (f : α → α) (l : List α) (k : ℕ) : (turns f l k).length = l.length := by
  induction k with
  | zero => rfl
  | succ k ih => rw [turns, length_advance, ih]

theorem turns_ne_nil (h : l ≠ []) (k : ℕ) : turns f l k ≠ [] := by
  rw [← List.length_pos_iff, length_turns]
  exact List.length_pos_iff.mpr h

theorem getElem?_advance (hi : i + 1 < l.length) : (advance f l)[i]? = l[i + 1]? := by
  cases l with
  | nil => exact absurd hi (Nat.not_lt_zero _)
  | cons a rest =>
    rw [advance, List.getElem?_append_left (lt_of_succ_lt_succ hi), List.getElem?_cons_succ]

theorem getElem?_advance_last (hi : i + 1 = l.length) : (advance f l)[i]? = l[0]?.map f := by
  cases l with
  | nil => exact absurd hi (succ_ne_zero i)
  | cons a rest =>
    have hi : i = rest.length := Nat.succ.inj hi
    rw [advance, hi, List.getElem?_append_right (Nat.le_refl _), Nat.sub_self]
    rfl

theorem getElem?_turns (f : α → α) (k : ℕ) (hi : i < l.length) :
    (turns f l k)[i]? = l[(k + i) % l.length]?.map f^[(k + i) / l.length] := by
  induction k generalizing i with
  | zero =>
    rw [Nat.zero_add, mod_eq_of_lt hi, div_eq_of_lt hi, Function.iterate_zero, Option.map_id]
    rfl
  | succ k ih =>
    by_cases hlast : i + 1 < l.length
    · have hsum : k + 1 + i = k + (i + 1) := by omega
      rw [turns, getElem?_advance (by rwa [length_turns]), ih hlast, hsum]
    · have hend : i + 1 = l.length := by omega
      have hsum : k + 1 + i = k + l.length := by omega
      rw [turns, getElem?_advance_last (by rwa [length_turns]), ih (zero_lt_of_lt hi), hsum,
        Nat.add_zero, add_mod_right, add_div_right k (zero_lt_of_lt hi), Option.map_map,
        ← Function.iterate_succ']

theorem head?_turns (f : α → α) (l : List α) (k : ℕ) :
    (turns f l k).head? = l[k % l.length]?.map f^[k / l.length] := by
  cases l with
  | nil =>
    rw [List.getElem?_nil, Option.map_none, List.head?_eq_none_iff, ← List.length_eq_zero_iff]
    exact length_turns f [] k
  | cons a rest => rw [List.head?_eq_getElem?, getElem?_turns f k (succ_pos _), Nat.add_zero]

end Zabbix
