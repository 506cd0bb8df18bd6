import Mathlib.Data.List.Basic

/-!
# Chains of stages that may drop a value

A stage has a state and turns a value into another one or drops it. A chain gives every value to its
stages in turn.
-/

namespace Zabbix.Stages

section Pass

variable {σ α : Type*} (step : σ → α → Option α × σ)

def pass : σ → List α → List α
  | _, [] => []
  | s, a :: as => (step s a).1.toList ++ pass (step s a).2 as

def Along (P : σ → α → Prop) : σ → List α → Prop
  | _, [] => True
  | s, a :: as => P s a ∧ Along P (step s a).2 as

instance Along.decidable {P : σ → α → Prop} [∀ s a, Decidable (P s a)] :
    ∀ s as, Decidable (Along step P s as)
  | _, [] => .isTrue trivial
  | _, _ :: as => @instDecidableAnd _ _ _ (Along.decidable _ as)

end Pass

theorem pass_eq {σ τ α : Type*} {step : σ → α → Option α × σ} {step' : τ → α → Option α × τ}
    {R : σ → τ → Prop} {P : σ → α → Prop}
    (h : ∀ s t a, R s t → P s a → (step s a).1 = (step' t a).1 ∧ R (step s a).2 (step' t a).2)
    {s : σ} {t : τ} {as : List α} (hR : R s t) (hP : Along step P s as) :
    pass step s as = pass step' t as := by
  induction as generalizing s t with
  | nil => rfl
  | cons a as ih =>
    obtain ⟨hvalue, hstate⟩ := h s t a hR hP.1
    simp only [pass]
    rw [hvalue, ih hstate hP.2]

section Chain

variable {ι σ α : Type*} (step : ι → σ → α → Option α × σ)

def chain : List (ι × σ) → α → Option α × List (ι × σ)
  | [], a => (some a, [])
  | (i, s) :: rest, a =>
    match (step i s a).1 with
    | none => (none, (i, (step i s a).2) :: rest)
    | some b => ((chain rest b).1, (i, (step i s a).2) :: (chain rest b).2)

theorem chain_map_fst (stages : List (ι × σ)) (a : α) :
    (chain step stages a).2.map Prod.fst = stages.map Prod.fst := by
  induction stages generalizing a with
  | nil => rfl
  | cons stage rest ih =>
    simp only [chain]
    cases (step stage.1 stage.2 a).1 with
    | none => simp
    | some b => simp [ih b]

theorem pass_chain_cons (i : ι) (s : σ) (rest : List (ι × σ)) (as : List α) :
    pass (chain step) ((i, s) :: rest) as = pass (chain step) rest (pass (step i) s as) := by
  induction as generalizing s rest with
  | nil => rfl
  | cons a as ih =>
    simp only [pass, chain]
    cases hv : (step i s a).1 with
    | none => simpa using ih _ _
    | some b =>
      simp only [Option.toList_some, List.singleton_append, pass]
      rw [ih]

theorem pass_chain_nil (as : List α) : pass (chain step) [] as = as := by
  induction as with
  | nil => rfl
  | cons a as ih => simpa [pass, chain] using ih

theorem pass_chain (stages : List (ι × σ)) (as : List α) :
    pass (chain step) stages as =
      stages.foldl (fun as stage => pass (step stage.1) stage.2 as) as := by
  induction stages generalizing as with
  | nil => exact pass_chain_nil step as
  | cons stage rest ih =>
    rw [pass_chain_cons, ih]
    rfl

end Chain

end Zabbix.Stages
