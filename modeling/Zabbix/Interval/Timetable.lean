import Mathlib.Data.Int.ModEq
import Mathlib.Order.Bounds.Basic

/-!
# Timetables

A timetable says which delay is in effect at every time. A check is due at the times that are
congruent to the seed modulo the delay, and never where the delay is zero.
-/

namespace Zabbix.Interval

def zbxJan2038 : ℤ := 2145916800

def intEnd : ℤ := 2 ^ 31

section

variable (delayAt : ℤ → ℕ) (seed : ℕ)

def Due (u : ℤ) : Prop := delayAt u ≠ 0 ∧ u ≡ seed [ZMOD delayAt u]

def NoneDue (now t : ℤ) : Prop := ∀ u, now < u → u < t → ¬ Due delayAt seed u

def IsNextcheck (now tmax r : ℤ) : Prop :=
  IsLeast {u | now < u ∧ u < tmax ∧ Due delayAt seed u} r ∨
    (NoneDue delayAt seed now tmax ∧ r = zbxJan2038)

/-- A search passes a time: without checks this must be before the end of time, with checks one of
the next ones must be an `int`. -/
def Passes (s : ℤ) : Prop :=
  (delayAt s = 0 → s < zbxJan2038) ∧
    (delayAt s ≠ 0 → ∃ v, s < v ∧ v < intEnd ∧ v ≡ seed [ZMOD delayAt s])

def PassesTo (now t : ℤ) : Prop := ∀ s, now ≤ s → s < t → Passes delayAt seed s

/-- When a search finds what it has to. It passes the times in front of a check that is due. Where
none is, it ends at a time without checks, the last before `tmax` or one from the end of time on, or
the first candidate from `tmax` on is the end of time. -/
def Settles (now tmax : ℤ) : Prop :=
  (∃ u, now < u ∧ u < tmax ∧ Due delayAt seed u ∧ u < intEnd ∧ PassesTo delayAt seed now u) ∨
    (NoneDue delayAt seed now tmax ∧
      ((∃ z, now ≤ z ∧ z < tmax ∧ PassesTo delayAt seed now z ∧ delayAt z = 0 ∧
          (zbxJan2038 ≤ z ∨ z + 1 = tmax)) ∨
        (PassesTo delayAt seed now tmax ∧ delayAt (tmax - 1) ≠ 0 ∧
          IsLeast {v | tmax ≤ v ∧ v ≡ seed [ZMOD delayAt (tmax - 1)]} zbxJan2038)))

end

/-! ## One span

`t` is the time to which the search has come; up to `stop` the delay does not change. -/

section

variable {delayAt : ℤ → ℕ} {seed : ℕ} {now tmax t stop : ℤ}

theorem PassesTo.not_zero (hpass : PassesTo delayAt seed now t) {z : ℤ} (hz : now ≤ z)
    (hzt : z < t) (hzero : delayAt z = 0) : z < zbxJan2038 :=
  (hpass z hz hzt).1 hzero

theorem PassesTo.zero (hpass : PassesTo delayAt seed now t)
    (hzero : ∀ s, t ≤ s → s < stop → delayAt s = 0) (hstop : stop ≤ zbxJan2038) :
    PassesTo delayAt seed now stop := by
  intro s hs hlt
  by_cases hst : s < t
  · exact hpass s hs hst
  · have hdelay := hzero s (by omega) hlt
    exact ⟨fun _ => by omega, fun hne => absurd hdelay hne⟩

theorem NoneDue.zero (hnone : NoneDue delayAt seed now t)
    (hzero : ∀ s, t ≤ s → s < stop → delayAt s = 0) : NoneDue delayAt seed now stop := by
  intro u hu hlt hdue
  by_cases hut : u < t
  · exact hnone u hu hut hdue
  · exact hdue.1 (hzero u (by omega) hlt)

theorem NoneDue.le (hnone : NoneDue delayAt seed now t) {u : ℤ} (hu : now < u)
    (hdue : Due delayAt seed u) : t ≤ u := by
  by_contra hlt
  exact hnone u hu (by omega) hdue

theorem zero_settles (hnow : now ≤ t) (hmax : t < tmax) (hnone : NoneDue delayAt seed now t)
    (hpass : PassesTo delayAt seed now t) (hzero : ∀ s, t ≤ s → s < stop → delayAt s = 0)
    (hlt : t < stop) (hstop : zbxJan2038 < stop ∨ tmax ≤ stop) :
    IsNextcheck delayAt seed now tmax zbxJan2038 ↔ Settles delayAt seed now tmax := by
  have hfree := hnone.zero hzero
  constructor
  · intro hres
    have hnext : NoneDue delayAt seed now tmax := by
      obtain hleast | ⟨hnext, -⟩ := hres
      · exfalso
        have hbehind := hfree.le hleast.1.1 hleast.1.2.2
        have := hleast.1.2.1
        omega
      · exact hnext
    refine Or.inr ⟨hnext, Or.inl ?_⟩
    by_cases hfar : max zbxJan2038 t < tmax ∧ max zbxJan2038 t < stop
    · refine ⟨max zbxJan2038 t, by omega, hfar.1, ?_, hzero _ (by omega) hfar.2, Or.inl (by omega)⟩
      by_cases hle : zbxJan2038 ≤ t
      · rw [max_eq_right hle]
        exact hpass
      · exact hpass.zero (fun s hs hs' => hzero s hs (by omega)) (by omega)
    · refine ⟨tmax - 1, by omega, by omega, ?_, hzero _ (by omega) (by omega), Or.inr (by omega)⟩
      by_cases hle : tmax - 1 ≤ t
      · intro s hs hs'
        exact hpass s hs (by omega)
      · exact hpass.zero (fun s hs hs' => hzero s hs (by omega)) (by omega)
  · intro hsettles
    obtain ⟨u, hu, hend, hdue, -, hto⟩ | ⟨hnext, -⟩ := hsettles
    · exfalso
      have hbehind := hfree.le hu hdue
      have hlate := hto.not_zero (z := stop - 1) (by omega) (by omega)
        (hzero _ (by omega) (by omega))
      omega
    · exact Or.inr ⟨hnext, rfl⟩

theorem zero_round {next : Option ℤ} (hnow : now ≤ t) (hmax : t < tmax)
    (hnone : NoneDue delayAt seed now t) (hpass : PassesTo delayAt seed now t)
    (hzero : ∀ s, t ≤ s → s < stop → delayAt s = 0) (hlt : t < stop)
    (hend : tmax ≤ stop → next = some zbxJan2038)
    (hnext : stop < tmax → NoneDue delayAt seed now stop → PassesTo delayAt seed now stop →
      ((∃ r, next = some r ∧ IsNextcheck delayAt seed now tmax r) ↔
        Settles delayAt seed now tmax)) :
    (∃ r, (if stop ≤ zbxJan2038 then next else some zbxJan2038) = some r ∧
      IsNextcheck delayAt seed now tmax r) ↔ Settles delayAt seed now tmax := by
  by_cases hgo : stop ≤ zbxJan2038 ∧ stop < tmax
  · rw [if_pos hgo.1]
    exact hnext hgo.2 (hnone.zero hzero) (hpass.zero hzero hgo.1)
  · have hres : (if stop ≤ zbxJan2038 then next else some zbxJan2038) = some zbxJan2038 := by
      split_ifs with hle
      · exact hend (by omega)
      · rfl
    rw [hres, ← zero_settles hnow hmax hnone hpass hzero hlt (by omega)]
    exact ⟨fun ⟨r, hr, hcheck⟩ => Option.some.inj hr ▸ hcheck, fun hcheck => ⟨_, rfl, hcheck⟩⟩

end

/-! ## A span with checks

`first` is the first time from `start` on that is congruent to the seed, and `start` is behind
`now`. -/

section

variable {delayAt : ℤ → ℕ} {seed delay : ℕ} {now tmax t stop start first : ℤ}

theorem PassesTo.positive (hpass : PassesTo delayAt seed now t)
    (hdelay : ∀ s, t ≤ s → s < stop → delayAt s = delay) (hpos : delay ≠ 0)
    (hfirst : IsLeast {v | start ≤ v ∧ v ≡ seed [ZMOD delay]} first) (hint : first < intEnd)
    (hle : stop ≤ first) : PassesTo delayAt seed now stop := by
  intro s hs hlt
  by_cases hst : s < t
  · exact hpass s hs hst
  · have heq := hdelay s (by omega) hlt
    refine ⟨fun hzero => absurd (heq.symm.trans hzero) hpos, fun _ => ⟨first, by omega, hint, ?_⟩⟩
    rw [heq]
    exact hfirst.1.2

theorem NoneDue.positive (hnone : NoneDue delayAt seed now t)
    (hdelay : ∀ s, t ≤ s → s < stop → delayAt s = delay)
    (hstart : ∀ u, now < u → t ≤ u → start ≤ u)
    (hfirst : IsLeast {v | start ≤ v ∧ v ≡ seed [ZMOD delay]} first) (hle : stop ≤ first) :
    NoneDue delayAt seed now stop := by
  intro u hu hlt hdue
  by_cases hut : u < t
  · exact hnone u hu hut hdue
  · have hcongr := hdue.2
    rw [hdelay u (by omega) hlt] at hcongr
    have hge := hfirst.2 ⟨hstart u hu (by omega), hcongr⟩
    omega

theorem overflow_not_settles (hnow : now ≤ t) (hmax : t < tmax)
    (hnone : NoneDue delayAt seed now t) (hpass : PassesTo delayAt seed now t)
    (hdelay : delayAt t = delay) (hpos : delay ≠ 0)
    (hstart : ∀ u, now < u → t ≤ u → start ≤ u)
    (hfirst : IsLeast {v | start ≤ v ∧ v ≡ seed [ZMOD delay]} first) (hint : intEnd ≤ first) :
    ¬ Settles delayAt seed now tmax := by
  have hstuck : ¬ Passes delayAt seed t := by
    intro hpasses
    obtain ⟨v, htv, hv, hcongr⟩ := hpasses.2 (by rwa [hdelay])
    rw [hdelay] at hcongr
    have hge := hfirst.2 ⟨hstart v (by omega) (by omega), hcongr⟩
    omega
  have hto {v : ℤ} (hv : PassesTo delayAt seed now v) : v ≤ t := by
    by_contra hlt
    exact hstuck (hv t hnow (by omega))
  intro hsettles
  obtain ⟨u, hu, -, hdue, hlt, hpassu⟩ | ⟨-, ⟨z, hz, hzmax, hpassz, hzero, hend⟩ | ⟨hpassmax, -⟩⟩ :=
    hsettles
  · obtain rfl : u = t := le_antisymm (hto hpassu) (hnone.le hu hdue)
    have hcongr := hdue.2
    rw [hdelay] at hcongr
    have hge := hfirst.2 ⟨hstart u hu le_rfl, hcongr⟩
    omega
  · have hzt := hto hpassz
    have hne : z ≠ t := by
      rintro rfl
      exact hpos (hdelay.symm.trans hzero)
    have hbefore := hpass.not_zero hz (by omega) hzero
    omega
  · have := hto hpassmax
    omega

theorem first_settles (hnow : now ≤ t) (hmax : t < tmax) (hnone : NoneDue delayAt seed now t)
    (hpass : PassesTo delayAt seed now t)
    (hdelay : ∀ s, t ≤ s → s < stop → delayAt s = delay) (hpos : delay ≠ 0) (hts : t ≤ start)
    (hns : now < start) (hstart : ∀ u, now < u → t ≤ u → start ≤ u)
    (hfirst : IsLeast {v | start ≤ v ∧ v ≡ seed [ZMOD delay]} first) (hint : first < intEnd)
    (hstop : first < stop ∨ tmax ≤ stop) :
    IsNextcheck delayAt seed now tmax first ↔ Settles delayAt seed now tmax := by
  have hsf := hfirst.1.1
  by_cases hin : first < tmax
  · -- the first check lies in the span
    have hlt : first < stop := by omega
    have hcut : ∀ s, t ≤ s → s < first → delayAt s = delay := fun s hs hs' => hdelay s hs (by omega)
    have hdue : Due delayAt seed first := by
      have heq := hdelay first (by omega) hlt
      refine ⟨by rwa [heq], ?_⟩
      rw [heq]
      exact hfirst.1.2
    have hleast : IsLeast {u | now < u ∧ u < tmax ∧ Due delayAt seed u} first := by
      refine ⟨⟨by omega, hin, hdue⟩, ?_⟩
      intro u hu
      by_contra hbefore
      exact hnone.positive hcut hstart hfirst le_rfl u hu.1 (by omega) hu.2.2
    have hto := hpass.positive hcut hpos hfirst hint le_rfl
    exact ⟨fun _ => Or.inl ⟨first, by omega, hin, hdue, hint, hto⟩, fun _ => Or.inl hleast⟩
  · -- the search has come to its end without a check
    have hcut : ∀ s, t ≤ s → s < tmax → delayAt s = delay := fun s hs hs' => hdelay s hs (by omega)
    have hfree := hnone.positive hcut hstart hfirst (by omega)
    have hto := hpass.positive hcut hpos hfirst hint (by omega)
    have hlast : delayAt (tmax - 1) = delay := hcut _ (by omega) (by omega)
    have hfirst' : IsLeast {v | tmax ≤ v ∧ v ≡ seed [ZMOD delay]} first := by
      refine ⟨⟨by omega, hfirst.1.2⟩, ?_⟩
      intro v hv
      exact hfirst.2 ⟨hstart v (by have := hv.1; omega) (by have := hv.1; omega), hv.2⟩
    constructor
    · intro hres
      obtain hleast | ⟨-, rfl⟩ := hres
      · exact absurd hleast.1.2.2 (hfree first hleast.1.1 hleast.1.2.1)
      · refine Or.inr ⟨hfree, Or.inr ⟨hto, by rwa [hlast], ?_⟩⟩
        rwa [hlast]
    · intro hsettles
      obtain ⟨u, hu, hlt, hdue, -⟩ | ⟨-, ⟨z, hz, hzmax, -, hzero, hend⟩ | ⟨-, -, hchance⟩⟩ := hsettles
      · exact absurd hdue (hfree u hu hlt)
      · exfalso
        have hzt : z < t := by
          by_contra hge
          exact hpos ((hcut z (by omega) hzmax).symm.trans hzero)
        have hbefore := hpass.not_zero hz hzt hzero
        omega
      · rw [hlast] at hchance
        exact Or.inr ⟨hfree, hfirst'.unique hchance⟩

theorem first_round (next : ℤ → Option ℤ) (hnow : now ≤ t) (hmax : t < tmax)
    (hnone : NoneDue delayAt seed now t) (hpass : PassesTo delayAt seed now t)
    (hdelay : ∀ s, t ≤ s → s < stop → delayAt s = delay) (hpos : delay ≠ 0) (hlt : t < stop)
    (hts : t ≤ start) (hns : now < start) (hstart : ∀ u, now < u → t ≤ u → start ≤ u)
    (hfirst : IsLeast {v | start ≤ v ∧ v ≡ seed [ZMOD delay]} first)
    (hend : tmax ≤ stop → next first = some first)
    (hnext : stop < tmax → NoneDue delayAt seed now stop → PassesTo delayAt seed now stop →
      ((∃ r, next first = some r ∧ IsNextcheck delayAt seed now tmax r) ↔
        Settles delayAt seed now tmax)) :
    (∃ r, ((if first < intEnd then some first else none).bind fun first =>
        if stop ≤ first then next first else some first) = some r ∧
      IsNextcheck delayAt seed now tmax r) ↔ Settles delayAt seed now tmax := by
  by_cases hint : first < intEnd
  · rw [if_pos hint, Option.bind_some]
    by_cases hgo : stop ≤ first ∧ stop < tmax
    · rw [if_pos hgo.1]
      exact hnext hgo.2 (hnone.positive hdelay hstart hfirst hgo.1)
        (hpass.positive hdelay hpos hfirst hint hgo.1)
    · have hres : (if stop ≤ first then next first else some first) = some first := by
        split_ifs with hle
        · exact hend (by omega)
        · rfl
      rw [hres, ← first_settles hnow hmax hnone hpass hdelay hpos hts hns hstart hfirst hint
        (by omega)]
      exact ⟨fun ⟨r, hr, hcheck⟩ => Option.some.inj hr ▸ hcheck, fun hcheck => ⟨_, rfl, hcheck⟩⟩
  · have hover := overflow_not_settles hnow hmax hnone hpass (hdelay t le_rfl hlt) hpos hstart hfirst
      (by omega)
    rw [if_neg hint, Option.bind_none]
    exact ⟨fun ⟨r, hr, _⟩ => (nomatch hr), fun hsettles => absurd hsettles hover⟩

end

section

variable {delayAt : ℤ → ℕ} {seed bound : ℕ} {now tmax : ℤ}

end

end Zabbix.Interval
