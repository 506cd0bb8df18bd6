import Mathlib.Data.List.Basic
import Mathlib.Order.Lattice

/-!
# Runs of equal keys in a sorted list

In a list sorted by a key, what comes before a key, the run of elements with it and what comes
behind it are the elements with a smaller, with this and with a greater key.
-/

namespace Zabbix

open List

variable {α κ : Type*} [LinearOrder κ] {key : α → κ} {k : κ} {a : α} {l : List α}
  {p q : α → Bool}

def SortedBy (key : α → κ) (l : List α) : Prop := l.Pairwise fun a b => key a ≤ key b

namespace SortedBy

theorem tail (h : SortedBy key (a :: l)) : SortedBy key l := (pairwise_cons.mp h).2

theorem head_le (h : SortedBy key (a :: l)) : ∀ b ∈ a :: l, key a ≤ key b := by
  intro b hb
  obtain rfl | hb := mem_cons.mp hb
  · exact le_rfl
  · exact (pairwise_cons.mp h).1 b hb

variable (h : SortedBy key l)

include h

theorem filter (p : α → Bool) : SortedBy key (l.filter p) := List.Pairwise.filter p h

theorem sublist {l' : List α} (hsub : l'.Sublist l) : SortedBy key l' :=
  List.Pairwise.sublist hsub h

theorem dropWhile_lt (hp : ∀ a, p a = true ↔ key a < k) (hq : ∀ a, q a = true ↔ k ≤ key a)
    : l.dropWhile p = l.filter q := by
  induction l with
  | nil => rfl
  | cons a l ih =>
    by_cases hlt : key a < k
    · rw [dropWhile_cons_of_pos ((hp a).mpr hlt), ih h.tail,
        filter_cons_of_neg (mt (hq a).mp (not_le.mpr hlt))]
    · rw [dropWhile_cons_of_neg (mt (hp a).mp hlt)]
      refine (filter_eq_self.mpr fun b hb => ?_).symm
      exact (hq b).mpr ((not_lt.mp hlt).trans (h.head_le b hb))

theorem takeWhile_eq (hge : ∀ a ∈ l, k ≤ key a) (hp : ∀ a, p a = true ↔ key a = k)
    : l.takeWhile p = l.filter p := by
  induction l with
  | nil => rfl
  | cons a l ih =>
    by_cases heq : key a = k
    · rw [takeWhile_cons_of_pos ((hp a).mpr heq), filter_cons_of_pos ((hp a).mpr heq),
        ih h.tail fun b hb => hge b (mem_cons_of_mem a hb)]
    · have hlt : k < key a := lt_of_le_of_ne (hge a mem_cons_self) (Ne.symm heq)
      rw [takeWhile_cons_of_neg (mt (hp a).mp heq)]
      refine (filter_eq_nil_iff.mpr fun b hb => ?_).symm
      exact mt (hp b).mp (hlt.trans_le (h.head_le b hb)).ne'

theorem dropWhile_eq (hge : ∀ a ∈ l, k ≤ key a) (hp : ∀ a, p a = true ↔ key a = k)
    (hq : ∀ a, q a = true ↔ k < key a) :
    l.dropWhile p = l.filter q := by
  induction l with
  | nil => rfl
  | cons a l ih =>
    by_cases heq : key a = k
    · rw [dropWhile_cons_of_pos ((hp a).mpr heq), filter_cons_of_neg (mt (hq a).mp heq.le.not_gt),
        ih h.tail fun b hb => hge b (mem_cons_of_mem a hb)]
    · have hlt : k < key a := lt_of_le_of_ne (hge a mem_cons_self) (Ne.symm heq)
      rw [dropWhile_cons_of_neg (mt (hp a).mp heq)]
      refine (filter_eq_self.mpr fun b hb => ?_).symm
      exact (hq b).mpr (hlt.trans_le (h.head_le b hb))

omit h

end SortedBy

end Zabbix
