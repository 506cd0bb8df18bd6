import Mathlib.Data.List.Basic

/-!
# Events that drain a measure

Events do not make a measure of the state larger, and productive ones make it smaller. After as many
productive events as the measure was it is zero, whatever happened between them.
-/

namespace Zabbix

open List

variable {σ ε : Type*}

structure Drains (step : σ → ε → σ) (Inv : σ → Prop) (productive : ε → Bool)
    (events : List ε) (measure : σ → ℕ) : Prop where
  keeps : ∀ s, ∀ e ∈ events, Inv s → Inv (step s e)
  le : ∀ s, ∀ e ∈ events, Inv s → measure (step s e) ≤ measure s
  lt : ∀ s, ∀ e ∈ events, Inv s → productive e = true → 0 < measure s →
    measure (step s e) < measure s

namespace Drains

variable {step : σ → ε → σ} {Inv : σ → Prop} {productive : ε → Bool} {events : List ε}
  {measure : σ → ℕ} {s : σ} {e : ε}

theorem tail (h : Drains step Inv productive (e :: events) measure) :
    Drains step Inv productive events measure :=
  ⟨fun s e he => h.keeps s e (mem_cons_of_mem _ he),
    fun s e he => h.le s e (mem_cons_of_mem _ he),
    fun s e he => h.lt s e (mem_cons_of_mem _ he)⟩

variable (h : Drains step Inv productive events measure)

include h

theorem inv (hs : Inv s) : Inv (events.foldl step s) := by
  induction events generalizing s with
  | nil => exact hs
  | cons e events ih => exact ih h.tail (h.keeps s e mem_cons_self hs)

/-- By induction on the events: a productive one is paid for by the measure. -/
theorem measure_le (hs : Inv s) :
    measure (events.foldl step s) ≤ measure s - events.countP productive := by
  induction events generalizing s with
  | nil => exact Nat.le_refl _
  | cons e events ih =>
    have hnext := ih h.tail (h.keeps s e mem_cons_self hs)
    have hle := h.le s e mem_cons_self hs
    rw [foldl_cons, countP_cons]
    split_ifs with hproductive
    · have hlt := h.lt s e mem_cons_self hs hproductive
      omega
    · omega

theorem run (hs : Inv s) (hcount : measure s ≤ events.countP productive)
    : measure (events.foldl step s) = 0 := by
  have hle := h.measure_le hs
  omega

omit h

end Drains

end Zabbix
