import Mathlib.Tactic.Common

/-!
# Reading through a cache

Readers look a key up, and where it is missing they insert its value from the store; writers drop
what they are about to change from the cache and then change the store, all in any order.
-/

namespace Zabbix.ReadThrough

open Option Function

variable {ι κ ν σ ω : Type*}

inductive Reader (κ ν : Type*)
  | idle
  | missed (k : κ)
  | holds (k : κ) (v : ν)

inductive Writer (ω : Type*)
  | idle
  | handed (w : ω)
  | invalidated (w : ω)

structure State (ι κ ν σ ω : Type*) where
  cached : κ → Option ν
  store : σ
  reader : ι → Reader κ ν
  writer : ι → Writer ω

variable [DecidableEq ι]

/-- `right` says which values of a key the store has, `touches` which keys a write changes. Any
entry may leave the cache at any step. -/
inductive Step (right : σ → κ → ν → Prop) (apply : σ → ω → σ) (touches : ω → κ → Prop)
    (s : State ι κ ν σ ω) : State ι κ ν σ ω → Prop
  | keep (cached : κ → Option ν) : (∀ k v, cached k = some v → s.cached k = some v) →
      Step right apply touches s { s with cached }
  | miss (i : ι) (k : κ) (cached : κ → Option ν) :
      (∀ k v, cached k = some v → s.cached k = some v) →
      Step right apply touches s { s with cached, reader := update s.reader i (.missed k) }
  | read (i : ι) (k : κ) (v : ν) : s.reader i = .missed k → right s.store k v →
      Step right apply touches s { s with reader := update s.reader i (.holds k v) }
  | insert (i : ι) (k : κ) (v : ν) (cached : κ → Option ν) : s.reader i = .holds k v →
      (∀ j w, s.writer j = .invalidated w → ¬ touches w k) →
      (∀ k' v', cached k' = some v' → (k' = k ∧ v' = v) ∨ s.cached k' = some v') →
      Step right apply touches s { s with cached, reader := update s.reader i .idle }
  | hand (j : ι) (w : ω) :
      Step right apply touches s { s with writer := update s.writer j (.handed w) }
  | invalidate (j : ι) (w : ω) (cached : κ → Option ν) : s.writer j = .handed w →
      (∀ k v, cached k = some v → s.cached k = some v ∧ ¬ touches w k) →
      Step right apply touches s
        { s with cached, writer := update s.writer j (.invalidated w) }
  | commit (j : ι) (w : ω) : s.writer j = .invalidated w →
      (∀ i k v, s.reader i = .holds k v → ¬ touches w k) →
      Step right apply touches s
        { s with store := apply s.store w, writer := update s.writer j .idle }
  | abort (j : ι) : Step right apply touches s { s with writer := update s.writer j .idle }

/-- What is cached, and what readers are about to insert, is right; what writers are about to
change is not cached. -/
structure Coherent (right : σ → κ → ν → Prop) (touches : ω → κ → Prop) (s : State ι κ ν σ ω) :
    Prop where
  cached : ∀ k v, s.cached k = some v → right s.store k v
  held : ∀ i k v, s.reader i = .holds k v → right s.store k v
  invalidated : ∀ j w, s.writer j = .invalidated w → ∀ k, touches w k → s.cached k = none

variable {right : σ → κ → ν → Prop} {apply : σ → ω → σ} {touches : ω → κ → Prop}
variable {s t : State ι κ ν σ ω} {i j : ι}

omit [DecidableEq ι] in
theorem none_of_subset {cached : κ → Option ν} {k : κ}
    (h : ∀ v, cached k = some v → s.cached k = some v) (hnone : s.cached k = none) :
    cached k = none := by
  rw [eq_none_iff_forall_ne_some]
  intro v hv
  rw [h v hv] at hnone
  exact absurd hnone (some_ne_none v)

theorem holds_of_update {r : Reader κ ν} {k : κ} {v : ν} (hr : ∀ k v, r ≠ .holds k v)
    (h : update s.reader i r j = .holds k v) : s.reader j = .holds k v := by
  rw [update_apply] at h
  split_ifs at h
  · exact absurd h (hr k v)
  · exact h

theorem invalidated_of_update {w : Writer ω} {v : ω} (hw : ∀ v, w ≠ .invalidated v)
    (h : update s.writer i w j = .invalidated v) : s.writer j = .invalidated v := by
  rw [update_apply] at h
  split_ifs at h
  · exact absurd h (hw v)
  · exact h

theorem Step.coherent (frame : ∀ s w k v, ¬ touches w k → right s k v → right (apply s w) k v)
    (h : Coherent right touches s) (hstep : Step right apply touches s t) :
    Coherent right touches t := by
  cases hstep with
  | keep cached hsub =>
    refine ⟨fun k v hv => h.cached k v (hsub k v hv), h.held, fun j w hw k hk => ?_⟩
    exact none_of_subset (hsub k) (h.invalidated j w hw k hk)
  | miss i k cached hsub =>
    refine ⟨fun k v hv => h.cached k v (hsub k v hv), fun j k' v' hj => ?_, fun j w hw k hk => ?_⟩
    · exact h.held j k' v' (holds_of_update (by simp) hj)
    · exact none_of_subset (hsub k) (h.invalidated j w hw k hk)
  | read i k v _ hright =>
    refine ⟨h.cached, fun j k' v' hj => ?_, h.invalidated⟩
    change update s.reader i (.holds k v) j = .holds k' v' at hj
    rw [update_apply] at hj
    split_ifs at hj
    · obtain ⟨rfl, rfl⟩ := Reader.holds.inj hj
      exact hright
    · exact h.held j k' v' hj
  | insert i k v cached hholds hfree hinsert =>
    refine ⟨fun k' v' hv => ?_, fun j k' v' hj => ?_, fun j w hw k' hk => ?_⟩
    · obtain ⟨rfl, rfl⟩ | hv := hinsert k' v' hv
      · exact h.held i k' v' hholds
      · exact h.cached k' v' hv
    · exact h.held j k' v' (holds_of_update (by simp) hj)
    · refine none_of_subset (fun v' hv => ?_) (h.invalidated j w hw k' hk)
      obtain ⟨rfl, -⟩ | hv := hinsert k' v' hv
      · exact absurd hk (hfree j w hw)
      · exact hv
  | hand j w | abort j =>
    refine ⟨h.cached, h.held, fun j' w' hw => h.invalidated j' w' ?_⟩
    exact invalidated_of_update (by simp) hw
  | invalidate j w cached _ hsub =>
    refine ⟨fun k v hv => h.cached k v (hsub k v hv).1, h.held, fun j' w' hw k hk => ?_⟩
    change update s.writer j (.invalidated w) j' = .invalidated w' at hw
    rw [update_apply] at hw
    split_ifs at hw
    · obtain rfl := Writer.invalidated.inj hw
      exact eq_none_iff_forall_ne_some.mpr fun v hv => (hsub k v hv).2 hk
    · exact none_of_subset (fun v hv => (hsub k v hv).1) (h.invalidated j' w' hw k hk)
  | commit j w hw hfree =>
    refine ⟨fun k v hv => ?_, fun i k v hi => ?_, fun j' w' hw' => h.invalidated j' w' ?_⟩
    · -- what the write touches was dropped before
      refine frame s.store w k v (fun hk => ?_) (h.cached k v hv)
      have hnone := h.invalidated j w hw k hk
      exact some_ne_none v (hv.symm.trans hnone)
    · exact frame s.store w k v (hfree i k v hi) (h.held i k v hi)
    · exact invalidated_of_update (by simp) hw'

end Zabbix.ReadThrough
