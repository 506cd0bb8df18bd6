import Mathlib.Algebra.Ring.Int.Defs
import Mathlib.Algebra.BigOperators.Group.List.Basic

/-!
# Postfix programs by their arities

A symbol takes `arity` values from the stack and pushes one. `depth` is the number of values
after a program, `none` when a symbol takes more than there are; `gain` is the change of the
depth without that check.
-/

namespace Zabbix.Postfix

open List

variable {α : Type*} (arity : α → ℤ)
variable {d e : ℤ}

def push (depth : ℤ) (a : α) : Option ℤ :=
  if 0 ≤ arity a ∧ arity a ≤ depth then some (depth - arity a + 1) else none

def depth (start : ℤ) : List α → Option ℤ
  | [] => some start
  | a :: program => (push arity start a).bind fun d => depth d program

def gain (program : List α) : ℤ := (program.map fun a => 1 - arity a).sum

def Valid (program : List α) : Prop := depth arity 0 program = some 1

instance (program : List α) : Decidable (Valid arity program) := inferInstanceAs (Decidable (_ = _))

theorem depth_append (d : ℤ) (p q : List α) :
    depth arity d (p ++ q) = (depth arity d p).bind fun e => depth arity e q := by
  induction p generalizing d with
  | nil => rfl
  | cons a p ih =>
    cases h : push arity d a with
    | none => simp [depth, h]
    | some e => simp [depth, h, ih]

theorem depth_append_one (d : ℤ) (p : List α) (a : α) :
    depth arity d (p ++ [a]) = (depth arity d p).bind fun e => push arity e a := by
  rw [depth_append]
  congr 1
  funext e
  cases h : push arity e a <;> simp [depth, h]

variable {arity}

variable {p : List α}

theorem depth_append_one_of_some {a : α} (h : depth arity d p = some e) (hnonneg : 0 ≤ arity a)
    (hle : arity a ≤ e) :
    depth arity d (p ++ [a]) = some (e - arity a + 1) := by
  rw [depth_append_one, h]
  exact if_pos ⟨hnonneg, hle⟩

theorem depth_append_one_of_lt {a : α} (h : depth arity d p = some e) (hlt : e < arity a) :
    depth arity d (p ++ [a]) = none := by
  rw [depth_append_one, h]
  exact if_neg fun hpush => by omega

theorem depth_append_of_none (h : depth arity d p = none) (q : List α) :
    depth arity d (p ++ q) = none := by
  rw [depth_append, h]
  rfl

theorem push_eq_some {a : α} (h : push arity d a = some e) :
    arity a ≤ d ∧ 0 ≤ arity a ∧ e = d - arity a + 1 := by
  unfold push at h
  split at h
  · next hpush => exact ⟨hpush.2, hpush.1, (Option.some.inj h).symm⟩
  · cases h

theorem depth_eq_gain (h : depth arity d p = some e) : e = d + gain arity p := by
  induction p generalizing d with
  | nil =>
    obtain rfl : d = e := Option.some.inj h
    simp [gain]
  | cons a p ih =>
    obtain ⟨c, hc, hrest⟩ := Option.bind_eq_some_iff.mp h
    obtain ⟨-, -, rfl⟩ := push_eq_some hc
    have hgain := ih hrest
    simp only [gain, map_cons, sum_cons] at hgain ⊢
    rw [hgain]
    omega

theorem depth_nonneg (h : depth arity d p = some e) (hd : 0 ≤ d) : 0 ≤ e := by
  induction p generalizing d with
  | nil =>
    obtain rfl : d = e := Option.some.inj h
    exact hd
  | cons a p ih =>
    obtain ⟨c, hc, hrest⟩ := Option.bind_eq_some_iff.mp h
    obtain ⟨hle, -, rfl⟩ := push_eq_some hc
    exact ih hrest (by omega)

variable {q : List α}

theorem gain_of_depth_append {b : ℤ} (hp : depth arity 0 p = some b)
    (h : depth arity 0 (p ++ q) = some e) : gain arity q = e - b := by
  rw [depth_append, hp] at h
  have hq := depth_eq_gain h
  omega

theorem gain_append (p q : List α) : gain arity (p ++ q) = gain arity p + gain arity q := by
  simp [gain]

theorem gain_cons (a : α) (p : List α) : gain arity (a :: p) = 1 - arity a + gain arity p := by
  simp [gain]

theorem gain_of_unary (h : ∀ a ∈ p, arity a = 1) : gain arity p = 0 := by
  induction p with
  | nil => rfl
  | cons a p ih =>
    rw [gain_cons, h a mem_cons_self, ih fun b hb => h b (mem_cons_of_mem a hb)]
    rfl

theorem gain_nonpos (h : ∀ a ∈ p, 1 ≤ arity a) : gain arity p ≤ 0 := by
  induction p with
  | nil => exact Int.le_refl 0
  | cons a p ih =>
    rw [gain_cons]
    have harity := h a mem_cons_self
    have hrest := ih fun b hb => h b (mem_cons_of_mem a hb)
    omega

theorem depth_append_unary (h : depth arity 0 p = some d) (hd : 1 ≤ d)
    (hunary : ∀ a ∈ q, arity a = 1) : depth arity 0 (p ++ q) = some d := by
  induction q generalizing p with
  | nil => rwa [append_nil]
  | cons a q ih =>
    have harity := hunary a mem_cons_self
    rw [append_cons]
    refine ih ?_ fun b hb => hunary b (mem_cons_of_mem a hb)
    refine (depth_append_one_of_some h (by omega) (by omega)).trans (congrArg some ?_)
    omega

theorem depth_append_popped {r : List α} (hgain : ∀ a ∈ q ++ r, 1 ≤ arity a)
    (h : depth arity 0 p = some (1 - gain arity (q ++ r))) :
    depth arity 0 (p ++ q) = some (1 - gain arity r) := by
  induction q generalizing p with
  | nil => rwa [append_nil]
  | cons a q ih =>
    have harity := hgain a mem_cons_self
    have hrest : ∀ b ∈ q ++ r, 1 ≤ arity b := fun b hb => hgain b (mem_cons_of_mem a hb)
    have hnonpos := gain_nonpos hrest
    rw [cons_append, gain_cons] at h
    have hone := depth_append_one_of_some (a := a) h (by omega) (by omega)
    rw [append_cons]
    refine ih hrest (hone.trans (congrArg some ?_))
    omega

end Zabbix.Postfix
