import Mathlib.Data.Int.Range
import Mathlib.Tactic.Common

/-!
# Spans of an array

What an array that is indexed by integers holds from one index to another, both included.
-/

namespace Zabbix

open List Function

variable {β γ : Type*} {f g : ℤ → β} {a b m i : ℤ} {x : β}

def span (f : ℤ → β) (a b : ℤ) : List β := (Int.range a (b + 1)).map f

theorem range_cons (h : a < b) : Int.range a b = a :: Int.range (a + 1) b := by
  have hlen : (b - a).toNat = (b - (a + 1)).toNat + 1 := by omega
  rw [Int.range, hlen, range_succ_eq_map, map_cons, map_map, Int.range]
  congr 1
  · simp
  · apply map_congr_left
    intro r _
    simp only [comp_apply]
    omega

theorem span_eq_nil (h : b < a) : span f a b = [] := by
  have hlen : (b + 1 - a).toNat = 0 := by omega
  rw [span, Int.range, hlen]
  rfl

theorem span_first (h : a ≤ b) : span f a b = f a :: span f (a + 1) b := by
  rw [span, range_cons (Int.lt_add_one_of_le h)]
  rfl

theorem mem_span : x ∈ span f a b ↔ ∃ i, a ≤ i ∧ i ≤ b ∧ f i = x := by
  simp only [span, mem_map, Int.mem_range_iff, Int.lt_add_one_iff, and_assoc]

theorem span_map (h : β → γ) (f : ℤ → β) (a b : ℤ) : (span f a b).map h = span (h ∘ f) a b := by
  rw [span, span, map_map]

theorem span_congr (h : ∀ i, a ≤ i → i ≤ b → f i = g i) : span f a b = span g a b := by
  apply map_congr_left
  intro i hi
  obtain ⟨ha, hb⟩ := Int.mem_range_iff.mp hi
  exact h i ha (Int.lt_add_one_iff.mp hb)

theorem length_span (f : ℤ → β) (a b : ℤ) : (span f a b).length = (b + 1 - a).toNat := by
  rw [span, length_map, Int.range, length_map, length_range]

theorem span_append (ham : a ≤ m + 1) (hmb : m ≤ b) :
    span f a b = span f a m ++ span f (m + 1) b := by
  obtain ⟨n, hn⟩ : ∃ n : ℕ, m + 1 = a + n := ⟨(m + 1 - a).toNat, by omega⟩
  induction n generalizing a with
  | zero =>
    have hma : m + 1 = a := by omega
    rw [span_eq_nil (by omega : m < a), hma]
    rfl
  | succ n ih =>
    have hrest := ih (a := a + 1) (by omega) (by omega)
    rw [span_first (by omega : a ≤ b), span_first (by omega : a ≤ m), hrest]
    rfl

theorem span_singleton (f : ℤ → β) (a : ℤ) : span f a a = [f a] := by
  rw [span_first (le_refl a), span_eq_nil (Int.lt_succ a)]

theorem span_last (h : a ≤ b) : span f a b = span f a (b - 1) ++ [f b] := by
  rw [span_append (m := b - 1) (by omega) (by omega), Int.sub_add_cancel, span_singleton]

theorem span_update_of_not_mem (h : i < a ∨ b < i) (x : β) :
    span (update f i x) a b = span f a b := by
  apply span_congr
  intro j ha hb
  apply update_of_ne
  omega

end Zabbix
