import Mathlib.Data.List.Infix
import Mathlib.Data.List.TakeWhile

/-!
# Patterns with a letter for any text

A pattern is a text in which one letter, the star, stands for any text. The earliest place where the
letters between two stars are found is as good as any later one.
-/

namespace Zabbix

open List

variable {α : Type*}

inductive Glob (star : α) : List α → List α → Prop
  | nil : Glob star [] []
  | star {pattern rest : List α} (skipped : List α) :
      Glob star pattern rest → Glob star (star :: pattern) (skipped ++ rest)
  | letter {c : α} {pattern rest : List α} :
      c ≠ star → Glob star pattern rest → Glob star (c :: pattern) (c :: rest)

namespace Glob

variable {star : α} {pattern text rest letters : List α} {c d : α}

@[simp] theorem nil_iff : Glob star [] text ↔ text = [] := by
  constructor
  · intro h
    cases h
    rfl
  · rintro rfl
    exact .nil

theorem star_iff :
    Glob star (star :: pattern) text ↔ ∃ rest, rest <:+ text ∧ Glob star pattern rest := by
  constructor
  · intro h
    cases h with
    | star skipped h => exact ⟨_, suffix_append _ _, h⟩
    | letter hc h => exact absurd rfl hc
  · rintro ⟨rest, ⟨skipped, rfl⟩, h⟩
    exact .star skipped h

theorem letter_iff (hc : c ≠ star) :
    Glob star (c :: pattern) text ↔ ∃ rest, text = c :: rest ∧ Glob star pattern rest := by
  constructor
  · intro h
    cases h with
    | star skipped h => exact absurd rfl hc
    | letter hc h => exact ⟨_, rfl, h⟩
  · rintro ⟨rest, rfl, h⟩
    exact .letter hc h

theorem letter_cons (hc : c ≠ star) :
    Glob star (c :: pattern) (d :: text) ↔ c = d ∧ Glob star pattern text := by
  rw [letter_iff hc]
  constructor
  · rintro ⟨rest, heq, h⟩
    cases heq
    exact ⟨rfl, h⟩
  · rintro ⟨rfl, h⟩
    exact ⟨text, rfl, h⟩

theorem not_letter_nil (hc : c ≠ star) : ¬ Glob star (c :: pattern) [] := by
  rw [letter_iff hc]
  rintro ⟨rest, heq, -⟩
  cases heq

theorem star_cons : Glob star (star :: pattern) (c :: text) ↔
    Glob star pattern (c :: text) ∨ Glob star (star :: pattern) text := by
  simp only [star_iff, suffix_cons_iff]
  constructor
  · rintro ⟨rest, rfl | hrest, h⟩
    · exact .inl h
    · exact .inr ⟨rest, hrest, h⟩
  · rintro (h | ⟨rest, hrest, h⟩)
    · exact ⟨_, .inl rfl, h⟩
    · exact ⟨rest, .inr hrest, h⟩

@[simp] theorem star_nil : Glob star (star :: pattern) [] ↔ Glob star pattern [] := by
  simp [star_iff]

theorem of_suffix (hrest : rest <:+ text) (h : Glob star (star :: pattern) rest) :
    Glob star (star :: pattern) text := by
  obtain ⟨rest', hsuffix, h⟩ := star_iff.mp h
  exact star_iff.mpr ⟨rest', hsuffix.trans hrest, h⟩

theorem star_of (h : Glob star pattern text) : Glob star (star :: pattern) text :=
  star_iff.mpr ⟨text, suffix_rfl, h⟩

@[simp] theorem star_star :
    Glob star (star :: star :: pattern) text ↔ Glob star (star :: pattern) text := by
  constructor
  · intro h
    obtain ⟨rest, hrest, h⟩ := star_iff.mp h
    exact h.of_suffix hrest
  · exact star_of

theorem of_stars (hne : pattern ≠ []) (h : ∀ c ∈ pattern, c = star) : Glob star pattern text := by
  induction pattern with
  | nil => exact absurd rfl hne
  | cons c pattern ih =>
    obtain ⟨rfl, hstars⟩ := forall_mem_cons.mp h
    by_cases hnil : pattern = []
    · subst hnil
      exact star_iff.mpr ⟨[], nil_suffix, .nil⟩
    · exact star_of (ih hnil hstars)

theorem iff_nil : Glob star pattern [] ↔ ∀ c ∈ pattern, c = star := by
  induction pattern with
  | nil => simp
  | cons c pattern ih =>
    rw [forall_mem_cons]
    by_cases hc : c = star
    · subst hc
      simpa using ih
    · simp [not_letter_nil hc, hc]

variable (hletters : star ∉ letters)

include hletters

theorem letters_append :
    Glob star (letters ++ pattern) text ↔
      ∃ rest, text = letters ++ rest ∧ Glob star pattern rest := by
  induction letters generalizing text with
  | nil => simp
  | cons c letters ih =>
    obtain ⟨hc, hletters⟩ := not_or.mp (mt mem_cons.mpr hletters)
    rw [cons_append, letter_iff (Ne.symm hc)]
    constructor
    · rintro ⟨rest, rfl, h⟩
      obtain ⟨rest', rfl, hrest⟩ := (ih hletters).mp h
      exact ⟨rest', rfl, hrest⟩
    · rintro ⟨rest, rfl, h⟩
      exact ⟨letters ++ rest, rfl, (ih hletters).mpr ⟨rest, rfl, h⟩⟩

theorem letters_iff : Glob star letters text ↔ text = letters := by
  simpa using (letters_append hletters : Glob star (letters ++ []) text ↔ _)

theorem behind_letters (h : Glob star (star :: (letters ++ star :: pattern)) (letters ++ rest)) :
    Glob star (star :: pattern) rest := by
  obtain ⟨later, hlater, h⟩ := star_iff.mp h
  obtain ⟨rest', rfl, hrest⟩ := (letters_append hletters).mp h
  have hlength : rest'.length ≤ rest.length := by simpa using hlater.length_le
  have hsuffix : rest' <:+ rest :=
    suffix_of_suffix_length_le ((suffix_append _ _).trans hlater)
      (suffix_append _ _) hlength
  exact hrest.of_suffix hsuffix

theorem length_letters_le (h : Glob star (letters ++ pattern) text) :
    letters.length ≤ text.length := by
  obtain ⟨rest, rfl, -⟩ := (letters_append hletters).mp h
  simp

omit hletters

variable [DecidableEq α]

instance decidable (star : α) : (pattern text : List α) → Decidable (Glob star pattern text)
  | [], _ => decidable_of_iff _ nil_iff.symm
  | c :: pattern, text =>
    have := decidable star pattern
    if hc : c = star then
      decidable_of_iff (∃ rest ∈ text.tails, Glob star pattern rest) (by
        subst hc
        simp [star_iff])
    else
      match text with
      | [] => isFalse (not_letter_nil hc)
      | _ :: _ => decidable_of_iff _ (letter_cons hc).symm

/-- The pattern without the stars that follow a star; `after` says that a star has come before. -/
def squeeze (star : α) : Bool → List α → List α
  | _, [] => []
  | after, c :: pattern =>
    if c = star then if after then squeeze star true pattern else c :: squeeze star true pattern
    else c :: squeeze star false pattern

theorem squeeze_after_iff (pattern text : List α) :
    (Glob star (squeeze star false pattern) text ↔ Glob star pattern text) ∧
      (Glob star (star :: squeeze star true pattern) text ↔ Glob star (star :: pattern) text) := by
  induction pattern generalizing text with
  | nil => exact ⟨Iff.rfl, Iff.rfl⟩
  | cons c pattern ih =>
    by_cases hc : c = star
    · subst hc
      have hstar : Glob c (c :: squeeze c true pattern) text ↔ Glob c (c :: pattern) text :=
        (ih text).2
      simp [squeeze, hstar]
    · have hletter (text : List α) :
          Glob star (c :: squeeze star false pattern) text ↔ Glob star (c :: pattern) text := by
        rw [letter_iff hc, letter_iff hc]
        exact exists_congr fun rest => and_congr_right fun _ => (ih rest).1
      refine ⟨by simpa [squeeze, hc] using hletter text, ?_⟩
      simp only [squeeze, if_neg hc, star_iff, hletter]

theorem squeeze_after_eq_nil : squeeze star true pattern = [] ↔ ∀ c ∈ pattern, c = star := by
  induction pattern with
  | nil => simp [squeeze]
  | cons c pattern ih =>
    by_cases hc : c = star
    · simp [squeeze, hc, ih]
    · simp [squeeze, hc]

theorem squeeze_eq_star :
    squeeze star false pattern = [star] ↔ pattern ≠ [] ∧ ∀ c ∈ pattern, c = star := by
  cases pattern with
  | nil => simp [squeeze]
  | cons c pattern =>
    by_cases hc : c = star
    · simp [squeeze, hc, squeeze_after_eq_nil]
    · simp [squeeze, hc]

theorem squeeze_iff : Glob star (squeeze star false pattern) text ↔ Glob star pattern text :=
  (squeeze_after_iff pattern text).1

end Glob

end Zabbix
