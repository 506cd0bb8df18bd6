import Mathlib.Algebra.Order.Group.Int
import Mathlib.Data.List.Nodup
import Mathlib.Data.List.TakeWhile

/-!
# Dealing to the lower ones first

Items are dealt to receivers in rounds. A round goes through the receivers in a fixed order and ends
at the first that has more than the first receiver had. All receivers stay level exactly where the
order is ascending.
-/

namespace Zabbix.Dealing

open List

variable {α : Type*} [DecidableEq α] {first : α} {rest given given' : List α} {f : α → ℤ} {p q : α}

def raise (given : List α) (f : α → ℤ) (p : α) : ℤ := f p + given.count p

theorem raise_append : raise (given ++ given') f = raise given' (raise given f) := by
  funext p
  simp only [raise, count_append, Int.natCast_add, add_assoc]

def turn (receivers : List α) (bound : ℤ) (f : α → ℤ) : List α :=
  receivers.takeWhile fun p => f p ≤ bound

omit [DecidableEq α] in
theorem turn_cons : turn (first :: rest) (f first) f = first :: turn rest (f first) f := by
  rw [turn, takeWhile_cons_of_pos (by simp), turn]

omit [DecidableEq α] in
theorem first_mem_turn (first : α) (rest : List α) (f : α → ℤ) :
    first ∈ turn (first :: rest) (f first) f := by
  rw [turn_cons]
  exact mem_cons_self

omit [DecidableEq α] in
theorem mem_turn {receivers : List α} {bound : ℤ} (h : receivers.Pairwise fun p q => f p ≤ f q)
    (hp : p ∈ receivers) (hle : f p ≤ bound) : p ∈ turn receivers bound f := by
  induction receivers with
  | nil => cases hp
  | cons first rest ih =>
    obtain ⟨hfirst, hrest⟩ := pairwise_cons.mp h
    have hbound : f first ≤ bound := by
      rcases mem_cons.mp hp with rfl | hp
      · exact hle
      · exact (hfirst p hp).trans hle
    rw [turn, takeWhile_cons_of_pos (by simpa using hbound)]
    rcases mem_cons.mp hp with rfl | hp
    · exact mem_cons_self
    · exact mem_cons_of_mem _ (ih hrest hp)

variable (first rest) in
def deal : ℕ → (α → ℤ) → List α
  | 0, _ => []
  | n + 1, f =>
    let given := (turn (first :: rest) (f first) f).take (n + 1)
    given ++ deal (n + 1 - given.length) (raise given f)
  termination_by n => n
  decreasing_by
    rw [turn_cons, take_succ_cons, length_cons]
    omega

def Level (receivers given : List α) (f : α → ℤ) : Prop :=
  ∀ p ∈ given, ∀ q ∈ receivers, raise given f p ≤ raise given f q + 1

theorem deal_short {n : ℕ} (h : n ≤ (turn (first :: rest) (f first) f).length) :
    deal first rest n f = (turn (first :: rest) (f first) f).take n := by
  cases n with
  | zero => rw [deal, take_zero]
  | succ n =>
    have hlength : ((turn (first :: rest) (f first) f).take (n + 1)).length = n + 1 := by
      rw [length_take, min_eq_left h]
    rw [deal, hlength, Nat.sub_self, deal, append_nil]

theorem deal_full (n : ℕ) :
    deal first rest ((turn (first :: rest) (f first) f).length + n) f =
      turn (first :: rest) (f first) f ++
        deal first rest n (raise (turn (first :: rest) (f first) f) f) := by
  have hpos := length_pos_of_mem (first_mem_turn first rest f)
  obtain ⟨k, hk⟩ : ∃ k, (turn (first :: rest) (f first) f).length + n = k + 1 :=
    ⟨_, (Nat.sub_add_cancel (by omega)).symm⟩
  have htake : (turn (first :: rest) (f first) f).take (k + 1) =
      turn (first :: rest) (f first) f := take_of_length_le (by omega)
  rw [hk, deal, htake, ← hk, Nat.add_sub_cancel_left]

theorem deal_subset (n : ℕ) (f : α → ℤ) : deal first rest n f ⊆ first :: rest := by
  induction n using Nat.strongRecOn generalizing f with
  | _ n ih =>
    by_cases hn : n ≤ (turn (first :: rest) (f first) f).length
    · rw [deal_short hn]
      exact ((take_sublist _ _).trans (takeWhile_sublist _)).subset
    · obtain ⟨k, rfl⟩ := Nat.exists_eq_add_of_le (not_le.mp hn).le
      have hpos := length_pos_of_mem (first_mem_turn first rest f)
      rw [deal_full]
      exact append_subset.mpr ⟨(takeWhile_sublist _).subset, ih k (by omega) _⟩

theorem length_deal (n : ℕ) (f : α → ℤ) : (deal first rest n f).length = n := by
  induction n using Nat.strongRecOn generalizing f with
  | _ n ih =>
    by_cases hn : n ≤ (turn (first :: rest) (f first) f).length
    · rw [deal_short hn, length_take, min_eq_left hn]
    · obtain ⟨k, rfl⟩ := Nat.exists_eq_add_of_le (not_le.mp hn).le
      have hpos := length_pos_of_mem (first_mem_turn first rest f)
      rw [deal_full, length_append, ih k (by omega)]

section Rounds

variable (hnodup : (first :: rest).Nodup) (hleast : ∀ p ∈ first :: rest, f first ≤ f p)
include hnodup

theorem raise_given (hsub : given.Sublist (first :: rest)) (p : α) :
    raise given f p = if p ∈ given then f p + 1 else f p := by
  split_ifs with hp
  · rw [raise, count_eq_one_of_mem (hnodup.sublist hsub) hp, Int.natCast_one]
  · rw [raise, count_eq_zero_of_not_mem hp, Int.natCast_zero, add_zero]

theorem raise_turn (p : α) : raise (turn (first :: rest) (f first) f) f p =
    if p ∈ turn (first :: rest) (f first) f then f p + 1 else f p :=
  raise_given hnodup (takeWhile_sublist _) p

include hleast

omit [DecidableEq α] hnodup in
theorem turn_least (hp : p ∈ turn (first :: rest) (f first) f) : f p = f first := by
  have hle : f p ≤ f first := by simpa using mem_takeWhile_imp hp
  exact le_antisymm hle (hleast p ((takeWhile_sublist _).subset hp))

theorem ascending_raise_iff :
    (first :: rest).Pairwise (fun p q =>
        raise (turn (first :: rest) (f first) f) f p ≤
          raise (turn (first :: rest) (f first) f) f q) ↔
      (first :: rest).Pairwise fun p q => f p ≤ f q := by
  have hraise := fun p => raise_turn (f := f) hnodup p
  have hsplit := takeWhile_append_dropWhile (l := first :: rest)
    (p := fun p => decide (f p ≤ f first))
  have hround := fun p => turn_least (p := p) hleast
  rw [← turn.eq_def] at hsplit
  generalize hgiven : turn (first :: rest) (f first) f = given at *
  generalize hlast : (first :: rest).dropWhile (fun p => decide (f p ≤ f first)) = last at *
  have hout : ∀ p ∈ last, p ∉ given := by
    intro p hp hmem
    rw [← hsplit] at hnodup
    exact (nodup_append.mp hnodup).2.2 p hmem p hp rfl
  have hin : given.Pairwise fun p q => f p ≤ f q :=
    pairwise_of_forall_mem_list fun p hp q hq => by rw [hround p hp, hround q hq]
  have hin' : given.Pairwise fun p q => raise given f p ≤ raise given f q :=
    pairwise_of_forall_mem_list fun p hp q hq => by
      rw [hraise, hraise, if_pos hp, if_pos hq, hround p hp, hround q hq]
  have hsame : last.Pairwise (fun p q => raise given f p ≤ raise given f q) ↔
      last.Pairwise fun p q => f p ≤ f q := by
    refine List.Pairwise.iff_of_mem fun hp hq => ?_
    rw [hraise, hraise, if_neg (hout _ hp), if_neg (hout _ hq)]
  have habove (h : (first :: rest).Pairwise fun p q => f p ≤ f q) {q : α} (hq : q ∈ last) :
      f first < f q := by
    refine not_le.mp fun hle => hout q hq ?_
    rw [← hgiven]
    exact mem_turn h (hsplit ▸ mem_append_right _ hq) hle
  rw [← hsplit] at habove ⊢
  rw [pairwise_append, pairwise_append, hsame]
  constructor
  · rintro ⟨-, hlast, -⟩
    refine ⟨hin, hlast, fun p hp q hq => ?_⟩
    rw [hround p hp]
    exact hleast q (hsplit ▸ mem_append_right _ hq)
  · intro h
    refine ⟨hin', h.2.1, fun p hp q hq => ?_⟩
    rw [hraise, hraise, if_pos hp, if_neg (hout q hq), hround p hp]
    exact habove (pairwise_append.mpr h) hq

omit hleast in
theorem raise_short_le {n : ℕ} (hleast : ∀ p ∈ first :: rest, f first ≤ f p)
    (hn : n ≤ (turn (first :: rest) (f first) f).length)
    (hp : f p = f first ∨ p ∈ deal first rest n f) :
    raise (deal first rest n f) f p ≤ f first + 1 := by
  rw [deal_short hn] at hp ⊢
  have hsub : ((turn (first :: rest) (f first) f).take n).Sublist (first :: rest) :=
    (take_sublist _ _).trans (takeWhile_sublist _)
  have hsame : f p = f first := by
    rcases hp with hp | hp
    · exact hp
    · exact turn_least hleast (mem_of_mem_take hp)
  rw [raise_given hnodup hsub]
  split_ifs <;> omega

omit hleast in
theorem level_of_ascending (n : ℕ) (h : (first :: rest).Pairwise fun p q => f p ≤ f q)
    (hp : p ∈ first :: rest) (hlevel : f p = f first ∨ p ∈ deal first rest n f)
    (hq : q ∈ first :: rest) :
    raise (deal first rest n f) f p ≤ raise (deal first rest n f) f q + 1 := by
  induction n using Nat.strongRecOn generalizing f with
  | _ n ih =>
    have hleast : ∀ p ∈ first :: rest, f first ≤ f p := by
      intro p hp
      rcases mem_cons.mp hp with rfl | hp
      · exact le_rfl
      · exact (pairwise_cons.mp h).1 p hp
    by_cases hn : n ≤ (turn (first :: rest) (f first) f).length
    · have hgot := raise_short_le hnodup hleast hn hlevel
      have hle := hleast q hq
      have hmore : f q ≤ raise (deal first rest n f) f q := by
        rw [raise]
        omega
      omega
    · obtain ⟨k, rfl⟩ := Nat.exists_eq_add_of_le (not_le.mp hn).le
      rw [deal_full, raise_append]
      rw [deal_full] at hlevel
      have hfirst := first_mem_turn first rest f
      have hpos := length_pos_of_mem hfirst
      -- those that were level with the first one are so after the round
      have hgot : p ∈ turn (first :: rest) (f first) f →
          raise (turn (first :: rest) (f first) f) f p =
            raise (turn (first :: rest) (f first) f) f first := by
        intro hmem
        rw [raise_turn hnodup, raise_turn hnodup, if_pos hmem, if_pos hfirst, turn_least hleast hmem]
      refine ih k (by omega) ((ascending_raise_iff hnodup hleast).mpr h) ?_
      rcases hlevel with hsame | hmem
      · exact .inl (hgot (mem_turn h hp hsame.le))
      · exact (mem_append.mp hmem).imp_left hgot

omit hnodup hleast in
theorem least_of_level (h : Level (first :: rest) (deal first rest 1 f) f) (hq : q ∈ first :: rest) :
    f first ≤ f q := by
  have hone : deal first rest 1 f = [first] := by rw [deal_short] <;> simp [turn_cons]
  have hlevel := h first (by simp [hone]) q hq
  rw [hone] at hlevel
  by_cases hsame : q = first
  · rw [hsame]
  · simp only [raise, count_singleton_self, count_singleton, beq_iff_eq,
      Ne.symm hsame, if_false] at hlevel
    omega

omit hleast in
theorem ascending_of_level (h : ∀ n, Level (first :: rest) (deal first rest n f) f) :
    (first :: rest).Pairwise fun p q => f p ≤ f q := by
  have hbound (receivers : List α) : ∃ k : ℕ, ∀ p ∈ receivers, f p ≤ f first + k := by
    induction receivers with
    | nil => exact ⟨0, by simp⟩
    | cons p receivers ih =>
      obtain ⟨k, hk⟩ := ih
      refine ⟨max k (f p - f first).toNat, forall_mem_cons.mpr ⟨by omega, fun q hq => ?_⟩⟩
      have := hk q hq
      omega
  obtain ⟨k, hk⟩ := hbound (first :: rest)
  clear hbound
  -- the induction is on the rounds after which all are level
  induction k generalizing f with
  | zero =>
    refine pairwise_of_forall_mem_list fun p hp q hq => ?_
    have hbound := hk p hp
    have hle := least_of_level (h 1) hq
    omega
  | succ k ih =>
    have hleast : ∀ p ∈ first :: rest, f first ≤ f p := fun p hp => least_of_level (h 1) hp
    have hfirst := first_mem_turn first rest f
    refine (ascending_raise_iff hnodup hleast).mp (ih (fun n p hp q hq => ?_) fun p hp => ?_)
    · have hlevel := h ((turn (first :: rest) (f first) f).length + n)
      rw [deal_full] at hlevel
      have := hlevel p (mem_append_right _ hp) q hq
      rwa [raise_append] at this
    · have hle := hk p hp
      rw [raise_turn hnodup, raise_turn hnodup, if_pos hfirst]
      split_ifs with hmem
      · rw [turn_least hleast hmem]
        omega
      · omega

omit hleast in
theorem level_iff_ascending :
    (∀ n, Level (first :: rest) (deal first rest n f) f) ↔
      (first :: rest).Pairwise fun p q => f p ≤ f q := by
  refine ⟨ascending_of_level hnodup, fun h n p hp q hq => ?_⟩
  exact level_of_ascending hnodup n h (deal_subset n f hp) (.inr hp) hq

end Rounds

end Zabbix.Dealing
