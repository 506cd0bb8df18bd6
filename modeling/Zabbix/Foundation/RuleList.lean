import Mathlib.Data.List.Basic

/-!
# Ordered lists of rules

The first rule of a list that applies decides; where none does, the default stands.
-/

namespace Zabbix

open List

variable {ρ : Type*} (applies permits : ρ → Bool)

def verdict (default : Bool) : List ρ → Bool
  | [] => default
  | r :: rules => if applies r then permits r else verdict default rules

namespace verdict

variable {applies permits} {applies' : ρ → Bool} {default : Bool} {rules rules' : List ρ} {r : ρ}

theorem append (default : Bool) (rules rules' : List ρ) :
    verdict applies permits default (rules ++ rules') =
      verdict applies permits (verdict applies permits default rules') rules := by
  induction rules with
  | nil => rfl
  | cons r rules ih => simp only [cons_append, verdict, ih]

theorem of_none (h : ∀ r ∈ rules, applies r = false) :
    verdict applies permits default rules = default := by
  induction rules with
  | nil => rfl
  | cons r rules ih =>
    obtain ⟨hr, h⟩ := forall_mem_cons.mp h
    rw [verdict, hr, if_neg Bool.false_ne_true, ih h]

theorem default_irrelevant (hr : r ∈ rules) (happ : applies r = true) (default default' : Bool) :
    verdict applies permits default rules = verdict applies permits default' rules := by
  induction rules with
  | nil => exact absurd hr not_mem_nil
  | cons s rules ih =>
    by_cases hs : applies s = true
    · simp only [verdict, if_pos hs]
    · simp only [verdict, if_neg hs]
      obtain rfl | hr := mem_cons.mp hr
      · exact absurd happ hs
      · exact ih hr

theorem redundant (h : ∀ r ∈ rules, applies r = true → permits r = default) :
    verdict applies permits default rules = default := by
  induction rules with
  | nil => rfl
  | cons r rules ih =>
    obtain ⟨hr, h⟩ := forall_mem_cons.mp h
    by_cases happ : applies r = true
    · rw [verdict, if_pos happ, hr happ]
    · rw [verdict, if_neg happ, ih h]

theorem unreachable {earlier : ρ} (hmem : earlier ∈ rules) (h : applies r = applies earlier) :
    verdict applies permits default (rules ++ r :: rules') =
      verdict applies permits default (rules ++ rules') := by
  by_cases happ : applies earlier = true
  · rw [append, append]
    exact default_irrelevant hmem happ _ _
  · rw [append, append, verdict, h, if_neg happ]

theorem congr_reached
    (h : ∀ before r after, rules = before ++ r :: after → (∀ b ∈ before, applies b = false) →
      applies' r = applies r) :
    verdict applies' permits default rules = verdict applies permits default rules := by
  induction rules with
  | nil => rfl
  | cons r rules ih =>
    have hr : applies' r = applies r := h [] r rules rfl fun b hb => absurd hb not_mem_nil
    simp only [verdict, hr]
    by_cases happ : applies r = true
    · simp only [if_pos happ]
    · simp only [if_neg happ]
      refine ih fun before s after heq hbefore => h (r :: before) s after (by rw [heq]; rfl) ?_
      exact forall_mem_cons.mpr ⟨Bool.not_eq_true _ ▸ happ, hbefore⟩

theorem eq_true_iff_of_permits (h : ∀ r ∈ rules, permits r = true) :
    verdict applies permits false rules = true ↔ ∃ r ∈ rules, applies r = true := by
  induction rules with
  | nil => simp [verdict]
  | cons r rules ih =>
    obtain ⟨hr, h⟩ := forall_mem_cons.mp h
    by_cases happ : applies r = true
    · simp [verdict, happ, hr]
    · simp [verdict, happ, ih h]

theorem map {σ : Type*} (f : σ → ρ) (rules : List σ) :
    verdict applies permits default (rules.map f) =
      verdict (fun s => applies (f s)) (fun s => permits (f s)) default rules := by
  induction rules with
  | nil => rfl
  | cons s rules ih => simp only [map_cons, verdict, ih]

end verdict

end Zabbix
