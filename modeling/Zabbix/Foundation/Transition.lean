import Mathlib.Data.List.Basic

/-!
# Labelled transition systems with an executable step

`step s e` is `none` where the event `e` is not enabled in `s`. `Reach` collects the states of all
runs whose events meet a guard.
-/

namespace Zabbix.Transition

variable {σ ε : Type*}

/-- States reached from `init` by events that meet `ok` in the state they are taken in. -/
inductive Reach (init : σ → Prop) (step : σ → ε → Option σ) (ok : σ → ε → Prop) : σ → Prop
  | start {s : σ} : init s → Reach init step ok s
  | next {s t : σ} {e : ε} : Reach init step ok s → ok s e → step s e = some t →
      Reach init step ok t

def anyEvent : σ → ε → Prop := fun _ _ => True

variable {init : σ → Prop} {step : σ → ε → Option σ} {ok ok' : σ → ε → Prop}

theorem Reach.invariant {I : σ → Prop} (start : ∀ s, init s → I s)
    (preserved : ∀ s e t, I s → ok s e → step s e = some t → I t) {s : σ}
    (h : Reach init step ok s) : I s := by
  induction h with
  | start hs => exact start _ hs
  | next _ hok hstep ih => exact preserved _ _ _ ih hok hstep

def run (step : σ → ε → Option σ) : σ → List ε → Option σ
  | s, [] => some s
  | s, e :: es => (step s e).bind fun t => run step t es

def Guarded (step : σ → ε → Option σ) (ok : σ → ε → Prop) : σ → List ε → Prop
  | _, [] => True
  | s, e :: es => ok s e ∧ (step s e).elim True fun t => Guarded step ok t es

instance Guarded.decidable (step : σ → ε → Option σ) (ok : σ → ε → Prop)
    [∀ s e, Decidable (ok s e)] : ∀ s es, Decidable (Guarded step ok s es)
  | _, [] => isTrue trivial
  | s, e :: es =>
    have : Decidable ((step s e).elim True fun t => Guarded step ok t es) :=
      match step s e with
      | none => isTrue trivial
      | some t => Guarded.decidable step ok t es
    inferInstanceAs (Decidable (_ ∧ _))

theorem Reach.of_run {s : σ} (hs : Reach init step ok s) {es : List ε} {t : σ}
    (hg : Guarded step ok s es) (hr : run step s es = some t) : Reach init step ok t := by
  induction es generalizing s with
  | nil =>
    obtain rfl : s = t := by simpa [run] using hr
    exact hs
  | cons e es ih =>
    obtain ⟨u, hu, hrest⟩ := Option.bind_eq_some_iff.mp hr
    have htail : Guarded step ok u es := by
      have h := hg.2
      rw [hu] at h
      exact h
    exact ih (.next hs hg.1 hu) htail hrest

theorem Reach.exists_of_run {s : σ} (hs : Reach init step ok s) {es : List ε}
    (hg : Guarded step ok s es) {p : σ → Bool} (hp : (run step s es).any p = true) :
    ∃ t, Reach init step ok t ∧ p t = true := by
  obtain ⟨t, ht, hpt⟩ := (Option.any_eq_true p _).mp hp
  exact ⟨t, hs.of_run hg ht, hpt⟩

theorem guarded_anyEvent (s : σ) (es : List ε) : Guarded step anyEvent s es := by
  induction es generalizing s with
  | nil => trivial
  | cons e es ih =>
    refine ⟨trivial, ?_⟩
    cases step s e with
    | none => trivial
    | some t => exact ih t

end Zabbix.Transition
