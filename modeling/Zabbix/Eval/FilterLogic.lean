import Zabbix.Eval.Filter
import Mathlib.Data.List.Nodup

/-!
# The logic of group filters

Filters as expressions over comparisons. Leaving out what is said about tags makes a part of
a filter weaker; below a `not` it makes the filter stronger.
-/

namespace Zabbix.Eval

open List Bool

inductive Property
  | group
  | tag
  deriving DecidableEq

inductive FilterExpr
  | compare (property : Property) (value : List Char)
  | not (e : FilterExpr)
  | and (a b : FilterExpr)
  | or (a b : FilterExpr)

abbrev Valuation := Property → List Char → Bool

def FilterItem.valuation (item : FilterItem) : Valuation
  | .group, name => item.inGroup name
  | .tag, tag => expressionItemCheckTag item tag

namespace FilterExpr

def holds (v : Valuation) : FilterExpr → Bool
  | compare property value => v property value
  | not e => !e.holds v
  | and a b => a.holds v && b.holds v
  | or a b => a.holds v || b.holds v

def unrestricted : FilterExpr → Bool
  | compare property _ => property = .tag
  | not e => e.unrestricted
  | and a b => a.unrestricted && b.unrestricted
  | or a b => a.unrestricted || b.unrestricted

def restrict : FilterExpr → FilterExpr
  | compare property value => compare property value
  | not e => not e.restrict
  | and a b =>
    if a.unrestricted then b.restrict
    else if b.unrestricted then a.restrict
    else and a.restrict b.restrict
  | or a b => or a.restrict b.restrict

def groupHolds (v : Valuation) : FilterExpr → Bool
  | compare property value => property = .tag || v property value
  | not e => e.unrestricted || !e.groupHolds v
  | and a b => a.groupHolds v && b.groupHolds v
  | or a b => a.groupHolds v || b.groupHolds v

/-- No operand is left out below an odd number of the `not`s that remain. `positive` tells
whether the number of those above the expression is even. -/
def Polar (positive : Bool) : FilterExpr → Bool
  | compare property _ => property = .group || positive
  | not e => if e.unrestricted then positive else e.Polar !positive
  | and a b =>
    if a.unrestricted || b.unrestricted then positive && a.Polar true && b.Polar true
    else a.Polar positive && b.Polar positive
  | or a b =>
    if a.unrestricted || b.unrestricted then positive else a.Polar positive && b.Polar positive

variable {e : FilterExpr} {v : Valuation}

theorem groupHolds_of_unrestricted (h : e.unrestricted = true) : e.groupHolds v = true := by
  induction e with
  | compare property value | not e ih => exact or_eq_true_iff.mpr (.inl h)
  | and a b iha ihb =>
    obtain ⟨ha, hb⟩ := and_eq_true_iff.mp h
    exact and_eq_true_iff.mpr ⟨iha ha, ihb hb⟩
  | or a b iha ihb => exact or_eq_true_iff.mpr ((or_eq_true_iff.mp h).imp iha ihb)

theorem polar_of_unrestricted (h : e.unrestricted = true) : e.Polar true = true := by
  induction e with
  | compare property value => simp [Polar]
  | not e ih => exact if_pos h
  | and a b iha ihb =>
    obtain ⟨ha, hb⟩ := and_eq_true_iff.mp h
    simp [Polar, ha, iha ha, ihb hb]
  | or a b iha ihb => exact if_pos h

theorem holds_restrict (h : e.unrestricted = false) : e.restrict.holds v = e.groupHolds v := by
  induction e with
  | compare property value =>
    have hproperty : property ≠ .tag := by simpa [unrestricted] using h
    simp [restrict, holds, groupHolds, hproperty]
  | not e ih =>
    have he : e.unrestricted = false := h
    simp [restrict, holds, groupHolds, he, ih he]
  | and a b iha ihb =>
    unfold restrict
    split
    · next ha =>
      simp only [unrestricted, ha, Bool.true_and] at h
      rw [ihb h, groupHolds, groupHolds_of_unrestricted ha, Bool.true_and]
    · next ha =>
      have ha : a.unrestricted = false := by simpa using ha
      split
      · next hb => rw [iha ha, groupHolds, groupHolds_of_unrestricted hb, Bool.and_true]
      · next hb => rw [holds, groupHolds, iha ha, ihb (by simpa using hb)]
  | or a b iha ihb =>
    obtain ⟨ha, hb⟩ := or_eq_false_iff.mp h
    rw [restrict, holds, groupHolds, iha ha, ihb hb]

theorem Polar.sound {positive : Bool} (h : e.Polar positive = true) :
    (positive = true → e.holds v = true → e.groupHolds v = true) ∧
      (positive = false → e.groupHolds v = true → e.holds v = true) := by
  induction e generalizing positive with
  | compare property value =>
    cases property with
    | group => exact ⟨fun _ hv => hv, fun _ hv => hv⟩
    | tag =>
      refine ⟨fun _ _ => rfl, fun hneg => ?_⟩
      rw [hneg] at h
      cases h
  | not e ih =>
    unfold Polar at h
    split at h
    · next hu =>
      refine ⟨fun _ _ => groupHolds_of_unrestricted hu, fun hneg => ?_⟩
      rw [hneg] at h
      cases h
    · next hu =>
      have hu : e.unrestricted = false := by simpa using hu
      obtain ⟨hpos, hneg⟩ := ih h
      simp only [holds, groupHolds, hu, Bool.false_or, not_eq_true']
      constructor
      · intro hp hv
        by_contra hg
        have := hneg (by simp [hp]) (by simpa using hg)
        rw [hv] at this
        cases this
      · intro hp hg
        by_contra hv
        have := hpos (by simp [hp]) (by simpa using hv)
        rw [hg] at this
        cases this
  | and a b iha ihb =>
    simp only [holds, groupHolds, and_eq_true]
    unfold Polar at h
    split at h
    · obtain ⟨h, hb⟩ := and_eq_true_iff.mp h
      obtain ⟨hp, ha⟩ := and_eq_true_iff.mp h
      refine ⟨fun _ hv => ⟨(iha ha).1 rfl hv.1, (ihb hb).1 rfl hv.2⟩, fun hneg => ?_⟩
      rw [hneg] at hp
      cases hp
    · obtain ⟨ha, hb⟩ := and_eq_true_iff.mp h
      exact ⟨fun hp hv => ⟨(iha ha).1 hp hv.1, (ihb hb).1 hp hv.2⟩,
        fun hp hv => ⟨(iha ha).2 hp hv.1, (ihb hb).2 hp hv.2⟩⟩
  | or a b iha ihb =>
    unfold Polar at h
    split at h
    · next hu =>
      refine ⟨fun _ _ => groupHolds_of_unrestricted hu, fun hneg => ?_⟩
      rw [hneg] at h
      cases h
    · obtain ⟨ha, hb⟩ := and_eq_true_iff.mp h
      simp only [holds, groupHolds, or_eq_true]
      exact ⟨fun hp => Or.imp ((iha ha).1 hp) ((ihb hb).1 hp),
        fun hp => Or.imp ((iha ha).2 hp) ((ihb hb).2 hp)⟩

def comparisons : FilterExpr → List (Property × List Char)
  | compare property value => [(property, value)]
  | not e => e.comparisons
  | and a b => a.comparisons ++ b.comparisons
  | or a b => a.comparisons ++ b.comparisons

theorem holds_congr {w : Valuation} (h : ∀ c ∈ e.comparisons, v c.1 c.2 = w c.1 c.2) :
    e.holds v = e.holds w ∧ e.groupHolds v = e.groupHolds w := by
  induction e with
  | compare property value =>
    have heq := h (property, value) (by simp [comparisons])
    simp only at heq
    simp [holds, groupHolds, heq]
  | not e ih =>
    obtain ⟨hh, hg⟩ := ih h
    simp [holds, groupHolds, hh, hg]
  | and a b iha ihb | or a b iha ihb =>
    obtain ⟨ha, hga⟩ := iha fun c hc => h c (mem_append_left _ hc)
    obtain ⟨hb, hgb⟩ := ihb fun c hc => h c (mem_append_right _ hc)
    simp [holds, groupHolds, ha, hb, hga, hgb]

theorem exists_valuation {a b : FilterExpr} (h : (a.comparisons ++ b.comparisons).Nodup)
    (v w : Valuation) :
    ∃ u : Valuation, (a.holds u = a.holds v ∧ a.groupHolds u = a.groupHolds v) ∧
      (b.holds u = b.holds w ∧ b.groupHolds u = b.groupHolds w) := by
  let u : Valuation := fun p c => if (p, c) ∈ a.comparisons then v p c else w p c
  refine ⟨u, holds_congr fun c hc => if_pos hc, holds_congr fun c hc => if_neg fun hca => ?_⟩
  exact (nodup_append.mp h).2.2 c hca c hc rfl

def Allowed (e : FilterExpr) (value group : Bool) : Prop :=
  if e.unrestricted then group = true
  else value = group ∨ e.Polar value = false

theorem allowed_true : e.Allowed true true := by
  unfold Allowed
  split <;> simp

theorem allowed_of_restricted (h : e.unrestricted = false) {value group : Bool}
    (hval : value = group ∨ e.Polar value = false) : e.Allowed value group := by
  unfold Allowed
  rw [if_neg (by simp [h])]
  exact hval

theorem allowed_of_unrestricted (h : e.unrestricted = true) (value : Bool) :
    e.Allowed value true := by
  unfold Allowed
  rw [if_pos h]

theorem exists_allowed (e : FilterExpr) (value : Bool) : ∃ group, e.Allowed value group := by
  cases h : e.unrestricted with
  | true => exact ⟨true, allowed_of_unrestricted h value⟩
  | false => exact ⟨value, allowed_of_restricted h (.inl rfl)⟩

theorem Allowed.and {a b : FilterExpr} {value group : Bool}
    (h : (FilterExpr.and a b).Allowed value group) :
    ∃ va ga vb gb, a.Allowed va ga ∧ b.Allowed vb gb ∧ (va && vb) = value ∧ (ga && gb) = group := by
  cases ha : a.unrestricted <;> cases hb : b.unrestricted <;>
    simp only [Allowed, unrestricted, Polar, ha, hb, Bool.and_self, Bool.and_true, Bool.and_false,
      Bool.or_self, Bool.or_true, Bool.or_false, false_eq_true, if_true, if_false] at h
  · -- both restrict groups
    rcases h with rfl | h
    · exact ⟨value, value, value, value, allowed_of_restricted ha (.inl rfl),
        allowed_of_restricted hb (.inl rfl), by simp, by simp⟩
    · rcases and_eq_false_iff.mp h with hpolar | hpolar
      · exact ⟨value, group, true, true, allowed_of_restricted ha (.inr hpolar), allowed_true,
          by simp, by simp⟩
      · exact ⟨true, true, value, group, allowed_true, allowed_of_restricted hb (.inr hpolar),
          by simp, by simp⟩
  · -- only the left one does
    rw [polar_of_unrestricted hb, Bool.and_true] at h
    rcases h with rfl | h
    · exact ⟨value, value, true, true, allowed_of_restricted ha (.inl rfl), allowed_true,
        by simp, by simp⟩
    · cases value with
      | true => exact ⟨true, group, true, true, allowed_of_restricted ha (.inr h), allowed_true,
          by simp, by simp⟩
      | false => exact ⟨group, group, false, true, allowed_of_restricted ha (.inl rfl),
          allowed_of_unrestricted hb false, by simp, by simp⟩
  · rw [polar_of_unrestricted ha, Bool.and_true] at h
    rcases h with rfl | h
    · exact ⟨true, true, value, value, allowed_true, allowed_of_restricted hb (.inl rfl),
        by simp, by simp⟩
    · cases value with
      | true => exact ⟨true, true, true, group, allowed_true, allowed_of_restricted hb (.inr h),
          by simp, by simp⟩
      | false => exact ⟨false, true, group, group, allowed_of_unrestricted ha false,
          allowed_of_restricted hb (.inl rfl), by simp, by simp⟩
  · subst h
    exact ⟨value, true, value, true, allowed_of_unrestricted ha value,
      allowed_of_unrestricted hb value, by simp, by simp⟩

theorem Allowed.or {a b : FilterExpr} {value group : Bool} (ha : a.unrestricted = false)
    (hb : b.unrestricted = false) (h : (FilterExpr.or a b).Allowed value group) :
    ∃ va ga vb gb, a.Allowed va ga ∧ b.Allowed vb gb ∧ (va || vb) = value ∧ (ga || gb) = group := by
  have hfalse {e : FilterExpr} (he : e.unrestricted = false) : e.Allowed false false :=
    allowed_of_restricted he (.inl rfl)
  simp only [Allowed, unrestricted, Polar, ha, hb, Bool.or_self, false_eq_true, if_false] at h
  rcases h with rfl | h
  · exact ⟨value, value, value, value, allowed_of_restricted ha (.inl rfl),
      allowed_of_restricted hb (.inl rfl), by simp, by simp⟩
  · rcases and_eq_false_iff.mp h with hpolar | hpolar
    · exact ⟨value, group, false, false, allowed_of_restricted ha (.inr hpolar), hfalse hb,
        by simp, by simp⟩
    · exact ⟨false, false, value, group, hfalse ha, allowed_of_restricted hb (.inr hpolar),
        by simp, by simp⟩

theorem exists_of_allowed (hnodup : e.comparisons.Nodup) {value group : Bool}
    (h : e.Allowed value group) : ∃ v, e.holds v = value ∧ e.groupHolds v = group := by
  induction e generalizing value group with
  | compare property c =>
    refine ⟨fun _ _ => value, rfl, ?_⟩
    cases property with
    | group => simpa [Allowed, unrestricted, Polar, groupHolds] using h
    | tag => exact (show group = true from h).symm
  | not e ih =>
    cases hu : e.unrestricted with
    | true =>
      obtain ⟨v, hv, -⟩ := ih hnodup (allowed_of_unrestricted hu !value)
      unfold Allowed at h
      rw [if_pos (show (not e).unrestricted = true from hu)] at h
      exact ⟨v, by simp [holds, hv], by simp [groupHolds, hu, h]⟩
    | false =>
      simp only [Allowed, unrestricted, Polar, hu, false_eq_true, if_false] at h
      obtain ⟨v, hv, hg⟩ := ih hnodup (allowed_of_restricted hu (h.imp (congrArg Bool.not) id))
      exact ⟨v, by simp [holds, hv], by simp [groupHolds, hu, hg]⟩
  | and a b iha ihb =>
    obtain ⟨va, ga, vb, gb, ha, hb, rfl, rfl⟩ := h.and
    have hnodup : (a.comparisons ++ b.comparisons).Nodup := hnodup
    obtain ⟨v, hva, hga⟩ := iha (nodup_append.mp hnodup).1 ha
    obtain ⟨w, hvb, hgb⟩ := ihb (nodup_append.mp hnodup).2.1 hb
    obtain ⟨u, ⟨hua, huga⟩, hub, hugb⟩ := exists_valuation hnodup v w
    exact ⟨u, by rw [holds, hua, hub, hva, hvb], by rw [groupHolds, huga, hugb, hga, hgb]⟩
  | or a b iha ihb =>
    have hnodup : (a.comparisons ++ b.comparisons).Nodup := hnodup
    cases hu : (or a b).unrestricted with
    | true =>
      obtain ⟨ga, ha⟩ := exists_allowed a value
      obtain ⟨gb, hb⟩ := exists_allowed b value
      obtain ⟨v, hva, -⟩ := iha (nodup_append.mp hnodup).1 ha
      obtain ⟨w, hvb, -⟩ := ihb (nodup_append.mp hnodup).2.1 hb
      obtain ⟨u, ⟨hua, -⟩, hub, -⟩ := exists_valuation hnodup v w
      unfold Allowed at h
      rw [if_pos hu] at h
      exact ⟨u, by rw [holds, hua, hub, hva, hvb, Bool.or_self],
        (groupHolds_of_unrestricted hu).trans h.symm⟩
    | false =>
      obtain ⟨hua, hub⟩ := or_eq_false_iff.mp hu
      obtain ⟨va, ga, vb, gb, ha, hb, rfl, rfl⟩ := h.or hua hub
      obtain ⟨v, hva, hga⟩ := iha (nodup_append.mp hnodup).1 ha
      obtain ⟨w, hvb, hgb⟩ := ihb (nodup_append.mp hnodup).2.1 hb
      obtain ⟨u, ⟨hua, huga⟩, hub, hugb⟩ := exists_valuation hnodup v w
      exact ⟨u, by rw [holds, hua, hub, hva, hvb], by rw [groupHolds, huga, hugb, hga, hgb]⟩

/-- What has to differ between two comparisons for them to be independent: the group, or the
name of the tag. -/
def key : Property × List Char → Property × List Char
  | (.group, name) => (.group, name)
  | (.tag, tag) => (.tag, tag.takeWhile (· ≠ ':'))

def itemTag (tag : List Char) : List Char × List Char :=
  (tag.takeWhile (· ≠ ':'), tag.drop ((tag.takeWhile (· ≠ ':')).length + 1))

def itemOf (v : Valuation) (cs : List (Property × List Char)) : FilterItem where
  inGroup := v .group
  tags := (cs.filter fun c => c.1 = .tag && v c.1 c.2).map fun c => itemTag c.2

theorem itemOf_valuation (v : Valuation) {cs : List (Property × List Char)}
    (hnodup : (cs.map key).Nodup) {c : Property × List Char} (hc : c ∈ cs) :
    (itemOf v cs).valuation c.1 c.2 = v c.1 c.2 := by
  obtain ⟨property, text⟩ := c
  cases property with
  | group => rfl
  | tag =>
    show expressionItemCheckTag (itemOf v cs) text = v .tag text
    unfold expressionItemCheckTag itemOf
    rw [Bool.eq_iff_iff, any_eq_true]
    constructor
    · rintro ⟨pair, hpair, hmatch⟩
      obtain ⟨⟨property, other⟩, hother, rfl⟩ := mem_map.mp hpair
      obtain ⟨hother, hsel⟩ := mem_filter.mp hother
      obtain ⟨hproperty, hv⟩ := and_eq_true_iff.mp hsel
      obtain rfl : property = .tag := by simpa using hproperty
      obtain ⟨hname, -⟩ := and_eq_true_iff.mp hmatch
      have hname : text.takeWhile (· ≠ ':') = other.takeWhile (· ≠ ':') := by
        simpa [itemTag] using hname
      have hkey : key (.tag, other) = key (.tag, text) := by simp only [key, hname]
      have heq := inj_on_of_nodup_map hnodup hother hc hkey
      rw [(Prod.mk.inj heq).2] at hv
      exact hv
    · intro hv
      refine ⟨itemTag text, mem_map.mpr ⟨(.tag, text), ?_, rfl⟩, ?_⟩
      · exact mem_filter.mpr ⟨hc, by simpa using hv⟩
      · simp [itemTag]

def Prefilters (e : FilterExpr) : Prop :=
  ∀ item : FilterItem, e.holds item.valuation = true → e.groupHolds item.valuation = true

theorem prefilters_of_polar (h : e.Polar true = true) : e.Prefilters :=
  fun _ => (Polar.sound h).1 rfl

theorem polar_of_prefilters (hkeys : (e.comparisons.map key).Nodup) (h : e.Prefilters) :
    e.Polar true = true := by
  by_contra hpolar
  have hpolar : e.Polar true = false := by simpa using hpolar
  have hu : e.unrestricted = false := by
    by_contra hu
    rw [polar_of_unrestricted (by simpa using hu)] at hpolar
    cases hpolar
  have hallowed : e.Allowed true false := allowed_of_restricted hu (.inr hpolar)
  obtain ⟨v, hv, hg⟩ := exists_of_allowed hkeys.of_map hallowed
  obtain ⟨hholds, hgroup⟩ := holds_congr (v := (itemOf v e.comparisons).valuation) (w := v)
    fun c hc => itemOf_valuation v hkeys hc
  have hpass := h (itemOf v e.comparisons) (hholds.trans hv)
  rw [hgroup, hg] at hpass
  cases hpass

end FilterExpr

end Zabbix.Eval
