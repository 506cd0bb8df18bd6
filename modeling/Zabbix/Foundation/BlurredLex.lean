import Mathlib.Order.Lattice
import Mathlib.Tactic.Common

/-!
# Lexicographic order over blurred letters

Words are compared at the first letters that differ in more than what `blur` hides, by the `rank` of
those letters. Letters that are alike need not have the same rank, so the order need not be
transitive.
-/

namespace Zabbix.BlurredLex

variable {τ β ρ : Type} [DecidableEq β] [LinearOrder ρ] {blur : τ → β} {rank : τ → ρ}
  {as bs cs : List τ}

def Before (blur : τ → β) (rank : τ → ρ) : List τ → List τ → Prop
  | a :: as, b :: bs => if blur a = blur b then Before blur rank as bs else rank a < rank b
  | [], _ :: _ => True
  | _, [] => False

/-- Where the third word has a letter between alike letters of the others, what follows is in the
order of these letters. -/
def InOrder (blur : τ → β) (rank : τ → ρ) : List τ → List τ → List τ → Prop
  | a :: as, b :: bs, c :: cs =>
    blur a = blur b →
      if blur c = blur a then InOrder blur rank as bs cs
      else rank a < rank c → rank c < rank b → Before blur rank as bs
  | _, _, _ => True

theorem before_cons {a b : τ} : Before blur rank (a :: as) (b :: bs) ↔
    if blur a = blur b then Before blur rank as bs else rank a < rank b := by
  rw [Before]

theorem Before.asymm (h : Before blur rank as bs) : ¬Before blur rank bs as := by
  induction as generalizing bs with
  | nil => simp [Before]
  | cons a as ih =>
    cases bs with
    | nil => exact False.elim h
    | cons b bs =>
      rw [before_cons] at h ⊢
      by_cases hab : blur a = blur b
      · rw [if_pos hab] at h
        rw [if_pos hab.symm]
        exact ih h
      · rw [if_neg hab] at h
        rw [if_neg (Ne.symm hab)]
        exact lt_asymm h

theorem map_blur_eq_iff (hrank : ∀ a b, blur a ≠ blur b → rank a ≠ rank b) :
    as.map blur = bs.map blur ↔ ¬Before blur rank as bs ∧ ¬Before blur rank bs as := by
  induction as generalizing bs with
  | nil => cases bs <;> simp [Before]
  | cons a as ih =>
    cases bs with
    | nil => simp [Before]
    | cons b bs =>
      rw [List.map_cons, List.map_cons, List.cons.injEq, before_cons, before_cons]
      by_cases hab : blur a = blur b
      · rw [if_pos hab, if_pos hab.symm, ← ih, and_iff_right hab]
      · rw [if_neg hab, if_neg (Ne.symm hab)]
        have hne := hrank a b hab
        constructor
        · rintro ⟨heq, -⟩
          exact absurd heq hab
        · rintro ⟨hle, hle'⟩
          exact absurd (le_antisymm (not_lt.mp hle') (not_lt.mp hle)) hne

theorem inOrder_of_trans (h : ¬Before blur rank bs cs → ¬Before blur rank as bs →
    ¬Before blur rank as cs) : InOrder blur rank as bs cs := by
  induction as generalizing bs cs with
  | nil => trivial
  | cons a as ih =>
    cases bs with
    | nil => trivial
    | cons b bs =>
      cases cs with
      | nil => trivial
      | cons c cs =>
        intro hab
        simp only [before_cons, hab, if_true] at h
        by_cases hca : blur c = blur a
        · have hbc : blur b = blur c := by rw [hca, hab]
          rw [if_pos hca]
          simp only [hbc, if_true] at h
          exact ih h
        · have hbc : blur b ≠ blur c := fun hbc => hca (by rw [hab, hbc])
          rw [if_neg hca]
          intro hac hcb
          simp only [hbc, if_false] at h
          by_contra hafter
          exact h (lt_asymm hcb) hafter hac

theorem not_before_trans (hrank : ∀ a b, blur a ≠ blur b → rank a ≠ rank b)
    (hcba : InOrder blur rank cs bs as) (hacb : InOrder blur rank as cs bs)
    (hbac : InOrder blur rank bs as cs) (hba : ¬Before blur rank bs as)
    (hcb : ¬Before blur rank cs bs) : ¬Before blur rank cs as := by
  have hstrict : ∀ {a b}, blur a ≠ blur b → ¬rank b < rank a → rank a < rank b :=
    fun hne hle => lt_of_le_of_ne (not_lt.mp hle) (hrank _ _ hne)
  induction as generalizing bs cs with
  | nil => cases cs <;> simp [Before]
  | cons a as ih =>
    cases bs with
    | nil => exact absurd trivial hba
    | cons b bs =>
      cases cs with
      | nil => exact absurd trivial hcb
      | cons c cs =>
        rw [before_cons] at hba hcb ⊢
        simp only [InOrder] at hcba hacb hbac
        by_cases hab : blur a = blur b
        · by_cases hca : blur c = blur a
          · simp only [hca, hab, if_true, true_implies] at *
            exact ih hcba hacb hbac hba hcb
          · have hcb' : blur c ≠ blur b := hab ▸ hca
            simp only [hcb', hab, if_true, if_false, true_implies] at *
            exact fun hlt => hba (hbac (hstrict hcb'.symm hcb) hlt)
        · rw [if_neg (Ne.symm hab)] at hba
          have hba := hstrict hab hba
          by_cases hca : blur c = blur a
          · have hbc := hstrict (show blur b ≠ blur c from hca ▸ Ne.symm hab)
            simp only [hca, hab, Ne.symm hab, if_true, if_false, true_implies] at *
            exact (hacb hba (hbc hcb)).asymm
          · rw [if_neg hca]
            by_cases hcb' : blur c = blur b
            · simp only [hcb', hab, if_true, if_false, true_implies] at *
              exact fun hlt => hcb (hcba hlt hba)
            · rw [if_neg hcb'] at hcb
              exact lt_asymm (lt_trans hba (hstrict (Ne.symm hcb') hcb))

end Zabbix.BlurredLex
