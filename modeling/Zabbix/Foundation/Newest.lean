import Mathlib.Data.List.DropRight
import Mathlib.Data.List.Perm.Basic
import Mathlib.Data.List.Sort

/-!
# The greatest elements of a list

So many of the elements with the greatest keys, in descending order; which of the elements with the
smallest key among them are taken is left open.
-/

namespace Zabbix

open List

variable {α κ : Type*} [LinearOrder κ] {key : α → κ} {count k : ℕ} {l r w : List α} {z : α} {s : κ}
  {p : α → Bool}

def Descending (key : α → κ) (l : List α) : Prop := l.Pairwise fun a b => key b ≤ key a

structure NewestBy (key : α → κ) (count : ℕ) (l r : List α) : Prop where
  sorted : Descending key r
  length : r.length = min count l.length
  rest : ∃ rest, (r ++ rest).Perm l ∧ ∀ a ∈ r, ∀ b ∈ rest, key b ≤ key a

theorem length_filter_lt_of_mem {a : α} (ha : a ∈ l) (hp : ¬p a = true) :
    (l.filter p).length < l.length := by
  refine lt_of_le_of_ne (length_filter_le p l) fun heq => hp ?_
  exact (length_filter_eq_length_iff.mp heq) a ha

namespace Descending

variable (h : Descending key l)

include h

theorem sublist (hsub : r.Sublist l) : Descending key r := List.Pairwise.sublist hsub h

theorem dropWhile_eq (hp : ∀ a ∈ l, ∀ b, key b ≤ key a → p a = false → p b = false) :
    l.dropWhile p = l.filter fun a => !p a := by
  induction l with
  | nil => rfl
  | cons a l ih =>
    obtain ⟨ha, hl⟩ := pairwise_cons.mp h
    by_cases hpa : p a = true
    · rw [dropWhile_cons_of_pos hpa, filter_cons_of_neg (by simp [hpa])]
      exact ih hl fun b hb => hp b (mem_cons_of_mem a hb)
    · rw [dropWhile_cons_of_neg hpa]
      refine (filter_eq_self.mpr fun b hb => ?_).symm
      have hfalse : p a = false := Bool.eq_false_iff.mpr hpa
      obtain rfl | hb := mem_cons.mp hb
      · rw [hfalse]
        rfl
      · rw [hp a mem_cons_self b (ha b hb) hfalse]
        rfl

theorem rdropWhile_eq (hp : ∀ a ∈ l, ∀ b, key a ≤ key b → p a = false → p b = false) :
    l.rdropWhile p = l.filter fun a => !p a := by
  induction l using List.reverseRecOn with
  | nil => rfl
  | append_singleton l a ih =>
    obtain ⟨hl, -, ha⟩ := pairwise_append.mp h
    by_cases hpa : p a = true
    · rw [rdropWhile_concat_pos p l a hpa, filter_append, ih hl fun b hb => hp b
        (mem_append_left _ hb)]
      simp [hpa]
    · rw [rdropWhile_concat_neg p l a hpa]
      refine (filter_eq_self.mpr fun b hb => ?_).symm
      have hfalse : p a = false := Bool.eq_false_iff.mpr hpa
      obtain hb | hb := mem_append.mp hb
      · rw [hp a (by simp) b (ha b hb a (mem_singleton_self a)) hfalse]
        rfl
      · rw [mem_singleton.mp hb, hfalse]
        rfl

theorem filter_take (hp : ∀ a ∈ l, ∀ b, key b ≤ key a → p a = false → p b = false) (k : ℕ) :
    (l.take k).filter p = (l.filter p).take k := by
  induction l generalizing k with
  | nil => rw [take_nil, filter_nil, take_nil]
  | cons a l ih =>
    obtain ⟨ha, hl⟩ := pairwise_cons.mp h
    cases k with
    | zero => rw [take_zero, take_zero, filter_nil]
    | succ k =>
      rw [take_succ_cons]
      by_cases hpa : p a = true
      · rw [filter_cons_of_pos hpa, filter_cons_of_pos hpa, take_succ_cons,
          ih hl fun b hb => hp b (mem_cons_of_mem a hb)]
      · have hnone : ∀ m : List α, (∀ b ∈ m, b ∈ l) → m.filter p = [] := by
          intro m hm
          refine filter_eq_nil_iff.mpr fun b hb => ?_
          rw [hp a mem_cons_self b (ha b (hm b hb)) (Bool.eq_false_iff.mpr hpa)]
          exact Bool.false_ne_true
        rw [filter_cons_of_neg hpa, filter_cons_of_neg hpa,
          hnone l fun b hb => hb, hnone _ fun b hb => mem_of_mem_take hb, take_nil]

omit h

end Descending

theorem insertionSort_descending (key : α → κ) (l : List α) :
    Descending key (l.insertionSort fun a b => key b ≤ key a) := by
  have htotal : Std.Total fun a b : α => key b ≤ key a := ⟨fun a b => le_total (key b) (key a)⟩
  have htrans : IsTrans α fun a b => key b ≤ key a := ⟨fun _ _ _ hab hbc => hbc.trans hab⟩
  exact pairwise_insertionSort _ l

namespace NewestBy

theorem perm_of_lt (h : NewestBy key count l r) (hlt : r.length < count) : r.Perm l := by
  obtain ⟨rest, hrest, -⟩ := h.rest
  have hlength := h.length
  have hsplit := hrest.length_eq
  rw [length_append] at hsplit
  have hnil : rest = [] := length_eq_zero_iff.mp (by omega)
  rw [hnil, append_nil] at hrest
  exact hrest

theorem mem (h : NewestBy key count l r) {a : α} (ha : a ∈ r) : a ∈ l := by
  obtain ⟨rest, hrest, -⟩ := h.rest
  exact hrest.mem_iff.mp (mem_append_left rest ha)

variable (h : NewestBy key count l (r ++ [z]))

include h

theorem filter_gt :
    ((r ++ [z]).filter fun a => key z < key a).Perm (l.filter fun a => key z < key a) := by
  obtain ⟨rest, hrest, hle⟩ := h.rest
  have hnone : (rest.filter fun a => key z < key a) = [] := by
    refine filter_eq_nil_iff.mpr fun b hb => ?_
    rw [decide_eq_true_iff, not_lt]
    exact hle z (mem_append_right r (mem_singleton_self z)) b hb
  have hfilter := hrest.filter fun a => key z < key a
  rw [filter_append, hnone, append_nil] at hfilter
  exact hfilter

theorem last_le : ∀ a ∈ r ++ [z], key z ≤ key a := by
  intro a ha
  obtain ha | ha := mem_append.mp ha
  · exact (pairwise_append.mp h.sorted).2.2 a ha z (mem_singleton_self z)
  · rw [mem_singleton.mp ha]

theorem length_le : (r ++ [z]).length ≤ (l.filter fun a => key z ≤ key a).length := by
  obtain ⟨rest, hrest, -⟩ := h.rest
  have hall : ((r ++ [z]).filter fun a => key z ≤ key a) = r ++ [z] :=
    filter_eq_self.mpr fun a ha => decide_eq_true (h.last_le a ha)
  rw [← (hrest.filter fun a => key z ≤ key a).length_eq, filter_append, hall]
  exact (sublist_append_left _ _).length_le

theorem le_of_length (hs : (r ++ [z]).length ≤ (l.filter fun a => s ≤ key a).length)
    : s ≤ key z := by
  by_contra hlt
  have hgt := h.filter_gt.length_eq
  have hless : ((r ++ [z]).filter fun a => key z < key a).length < (r ++ [z]).length := by
    apply length_filter_lt_of_mem (mem_append_right r (mem_singleton_self z))
    simp
  have hsub : (l.filter fun a => s ≤ key a).length ≤ (l.filter fun a => key z < key a).length := by
    rw [← countP_eq_length_filter, ← countP_eq_length_filter]
    apply countP_mono_left
    intro a _ ha
    rw [decide_eq_true_iff] at ha ⊢
    exact lt_of_lt_of_le (not_le.mp hlt) ha
  omega

omit h

theorem append (hr : Descending key r) (hperm : r.Perm (l.filter fun a => s < key a))
    (h : NewestBy key count (l.filter fun a => key a ≤ s) w) :
    NewestBy key (r.length + count) l (r ++ w) := by
  obtain ⟨rest, hrest, hle⟩ := h.rest
  have hsplit : (r ++ (w ++ rest)).Perm l := by
    refine (hperm.append hrest).trans ?_
    have hnot : (fun a => decide (key a ≤ s)) = fun a => !decide (s < key a) := by
      funext a
      rw [← decide_not]
      exact decide_eq_decide.mpr not_lt.symm
    rw [hnot]
    exact filter_append_perm _ l
  have hgreat : ∀ a ∈ r, ∀ b ∈ w ++ rest, key b ≤ key a := by
    intro a ha b hb
    have ha' := (mem_filter.mp (hperm.mem_iff.mp ha)).2
    have hb' := (mem_filter.mp (hrest.mem_iff.mp hb)).2
    rw [decide_eq_true_iff] at ha' hb'
    exact hb'.trans ha'.le
  refine ⟨pairwise_append.mpr ⟨hr, h.sorted, fun a ha b hb => ?_⟩, ?_, rest, ?_, fun a ha b hb => ?_⟩
  · exact hgreat a ha b (mem_append_left rest hb)
  · have hlength := h.length
    have hall := hsplit.length_eq
    have hrests := hrest.length_eq
    rw [length_append, length_append] at hall
    rw [length_append] at hrests ⊢
    omega
  · rw [append_assoc]
    exact hsplit
  · obtain ha | ha := mem_append.mp ha
    · exact hgreat a ha b (mem_append_right w hb)
    · exact hle a ha b hb

theorem take_iff (hsorted : Descending key w) (hperm : w.Perm (l.filter p))
    (hp : ∀ a ∈ l, ∀ b ∈ l, p a = true → ¬p b = true → key b ≤ key a) :
    NewestBy key k l (w.take k) ↔ k ≤ w.length ∨ ∀ a ∈ l, p a = true := by
  have hlength := hperm.length_eq
  have hle := length_filter_le p l
  constructor
  · intro h
    have htake := h.length
    rw [length_take] at htake
    by_cases hk : k ≤ w.length
    · exact Or.inl hk
    · exact Or.inr (length_filter_eq_length_iff.mp (by omega))
  · intro h
    refine ⟨hsorted.sublist (take_sublist k w), ?_, w.drop k ++ l.filter fun a => !p a, ?_,
      fun a ha b hb => ?_⟩
    · rw [length_take]
      obtain hk | hall := h
      · omega
      · rw [hlength, length_filter_eq_length_iff.mpr hall]
    · rw [← append_assoc, take_append_drop]
      exact (hperm.append_right _).trans (filter_append_perm p l)
    · obtain hb | hb := mem_append.mp hb
      · have hcross := hsorted
        rw [Descending, ← take_append_drop k w, pairwise_append] at hcross
        exact hcross.2.2 a ha b hb
      · have ha' := mem_filter.mp (hperm.mem_iff.mp (mem_of_mem_take ha))
        have hb' := mem_filter.mp hb
        exact hp a ha'.1 b hb'.1 ha'.2 (by simpa using hb'.2)

theorem insertionSort_take (key : α → κ) (count : ℕ) (l : List α) :
    NewestBy key count l ((l.insertionSort fun a b => key b ≤ key a).take count) := by
  have hperm := perm_insertionSort (fun a b => key b ≤ key a) l
  have hsorted := insertionSort_descending key l
  refine ⟨hsorted.sublist (take_sublist count _), ?_,
    (l.insertionSort fun a b => key b ≤ key a).drop count, ?_, ?_⟩
  · rw [length_take, hperm.length_eq]
  · rw [take_append_drop]
    exact hperm
  · rw [Descending, ← take_append_drop count (List.insertionSort _ l), pairwise_append] at hsorted
    exact hsorted.2.2

end NewestBy

end Zabbix
