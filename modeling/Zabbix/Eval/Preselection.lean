import Zabbix.Eval.FilterSound

/-!
# Items that a group filter preselects

The text of a group filter has one reading, so that preselecting an item means what the
expression says about groups.
-/

namespace Zabbix.Eval

open Nat List Expr TokenType

variable {m : ℕ → Bool}

theorem brace_not_mem_digits (n : ℕ) : '}' ∉ (toString n).toList := by
  intro h
  rw [toString_eq_repr, toList_repr] at h
  have hdigit := isDigit_of_mem_toDigits (by decide) (by decide) h
  revert hdigit
  decide

theorem cut_unique {c : Char} {a b x y : List Char} (ha : c ∉ a) (hb : c ∉ b)
    (h : a ++ c :: x = b ++ c :: y) : a = b := by
  induction a generalizing b with
  | nil =>
    cases b with
    | nil => rfl
    | cons d b =>
      obtain ⟨rfl, -⟩ := List.cons.inj h
      exact absurd mem_cons_self hb
  | cons d a ih =>
    cases b with
    | nil =>
      obtain ⟨rfl, -⟩ := List.cons.inj h
      exact absurd mem_cons_self ha
    | cons d' b =>
      obtain ⟨rfl, htail⟩ := List.cons.inj h
      rw [ih (fun hmem => ha (mem_cons_of_mem _ hmem))
        (fun hmem => hb (mem_cons_of_mem _ hmem)) htail]

theorem placeholder_unique {n k : ℕ} {x y : List Char}
    (h : placeholder n ++ x = placeholder k ++ y) : n = k := by
  simp only [placeholder, cons_append, append_assoc, nil_append, List.cons.injEq, true_and] at h
  have hdigits := cut_unique (brace_not_mem_digits n) (brace_not_mem_digits k) h
  rw [toString_eq_repr, toString_eq_repr, toList_repr, toList_repr] at hdigits
  rw [← ofDigitChars_ten_toDigits (n := n), hdigits, ofDigitChars_ten_toDigits]

theorem Reads.unique {s t x y : List Char} {a b : Bool} (hs : Reads m s a)
    (ht : Reads m t b) (h : s ++ x = t ++ y) : s = t ∧ a = b := by
  induction hs generalizing t b x y with
  | index n =>
    cases ht with
    | index k =>
      obtain rfl := placeholder_unique h
      exact ⟨rfl, rfl⟩
    | not ht => cases h
    | and ht hu => cases h
    | or ht hu => cases h
  | @not s a hs ih =>
    cases ht with
    | index k => cases h
    | not ht =>
      rw [append_assoc, append_assoc] at h
      obtain ⟨rfl, rfl⟩ := ih ht (append_cancel_left h)
      exact ⟨rfl, rfl⟩
    | and ht hu => cases h
    | or ht hu => cases h
  | @and s₁ s₂ a₁ a₂ hs₁ hs₂ ih₁ ih₂ =>
    cases ht with
    | index k => cases h
    | not ht => cases h
    | and ht hu =>
      simp only [cons_append, append_assoc, List.cons.injEq, true_and] at h
      obtain ⟨rfl, rfl⟩ := ih₁ ht h
      obtain ⟨rfl, rfl⟩ := ih₂ hu (append_cancel_left (append_cancel_left h))
      exact ⟨rfl, rfl⟩
    | or ht hu =>
      simp only [cons_append, append_assoc, List.cons.injEq, true_and] at h
      obtain ⟨rfl, rfl⟩ := ih₁ ht h
      cases append_cancel_left h
  | @or s₁ s₂ a₁ a₂ hs₁ hs₂ ih₁ ih₂ =>
    cases ht with
    | index k => cases h
    | not ht => cases h
    | and ht hu =>
      simp only [cons_append, append_assoc, List.cons.injEq, true_and] at h
      obtain ⟨rfl, rfl⟩ := ih₁ ht h
      cases append_cancel_left h
    | or ht hu =>
      simp only [cons_append, append_assoc, List.cons.injEq, true_and] at h
      obtain ⟨rfl, rfl⟩ := ih₁ ht h
      obtain ⟨rfl, rfl⟩ := ih₂ hu (append_cancel_left (append_cancel_left h))
      exact ⟨rfl, rfl⟩

variable {D : Type} {fl : Floating D} {expression : List Char} {e : FilterExpr}
  {tokens : List (EvalToken D)}

theorem Prepared.zbxEvalGetGroupFilter (h : Prepared expression e tokens) :
    zbxEvalGetGroupFilter expression tokens =
      .ok (if e.unrestricted then (none, [])
        else (some (template e.restrict 0).1, (template e.restrict 0).2)) := by
  obtain ⟨fragment, hfragment, hrun⟩ := h.groupFilter [] []
  have htag := hfragment.isTagExpression [] []
  rw [append_nil, nil_append] at htag
  rw [Eval.zbxEvalGetGroupFilter, hrun]
  show evalGenerateFilter expression fragment = _
  rw [evalGenerateFilter, if_neg hfragment.ne_nil, show isTagExpression fragment 0 = _ from htag]
  cases hu : e.unrestricted with
  | true => rfl
  | false =>
    have hgenerate := ((fragment_of_restricted hu).mp hfragment).generate [] []
    rw [hgenerate]
    rfl

theorem Prepared.preselected_iff (h : Prepared expression e tokens) (item : FilterItem) :
    Preselected expression tokens item ↔ e.groupHolds item.valuation = true := by
  rw [Preselected, h.zbxEvalGetGroupFilter]
  cases hu : e.unrestricted with
  | true => exact ⟨fun _ => FilterExpr.groupHolds_of_unrestricted hu, fun _ => trivial⟩
  | false =>
    have hreads := reads_template (groupsOnly_restrict hu) item (n := 0)
      (m := fun n => ((template e.restrict 0).2[n]?).any item.inGroup)
      fun i v hv => by rw [Nat.zero_add, hv]; rfl
    rw [FilterExpr.holds_restrict hu] at hreads
    show Reads _ _ true ↔ _
    constructor
    · intro htrue
      exact ((htrue.unique hreads (x := []) (y := []) rfl).2).symm
    · intro hholds
      rw [hholds] at hreads
      exact hreads

/-- No item that a filter is true for is left out before tags are looked at, exactly if the
rewrite leaves out nothing that the filter negates. -/
theorem preselected_iff_polar (hlawful : fl.Lawful) (h : Renders expression e tokens) :
    (e.Polar true = true → ∀ item,
      itemMatches fl expression (zbxEvalPrepareFilter tokens) item = true →
        Preselected expression (zbxEvalPrepareFilter tokens) item) ∧
    ((e.comparisons.map FilterExpr.key).Nodup →
      (∀ item, itemMatches fl expression (zbxEvalPrepareFilter tokens) item = true →
        Preselected expression (zbxEvalPrepareFilter tokens) item) → e.Polar true = true) := by
  have hprepared := h.prepared
  constructor
  · intro hpolar item hmatch
    rw [hprepared.itemMatches hlawful] at hmatch
    rw [hprepared.preselected_iff]
    exact FilterExpr.prefilters_of_polar hpolar item hmatch
  · intro hkeys hall
    refine FilterExpr.polar_of_prefilters hkeys fun item hholds => ?_
    rw [← hprepared.preselected_iff item]
    exact hall item ((hprepared.itemMatches hlawful item).trans hholds)

theorem wholeNumbers_lawful : wholeNumbers.Lawful := ⟨rfl, rfl, rfl, rfl⟩

def tagAndGroup : List (EvalToken ℤ) :=
  [⟨.parsed propTag, 0, ⟨0, 2⟩, .none⟩, ⟨.parsed varStr, 0, ⟨4, 6⟩, .none⟩,
    ⟨.parsed opEq, 0, ⟨3, 3⟩, .none⟩, ⟨.parsed propGroup, 0, ⟨12, 16⟩, .none⟩,
    ⟨.parsed varStr, 0, ⟨18, 20⟩, .none⟩, ⟨.parsed opEq, 0, ⟨17, 17⟩, .none⟩,
    ⟨.parsed opAnd, 0, ⟨8, 10⟩, .none⟩]

def tagAndGroupExpr : FilterExpr := .and (.compare .tag ['x']) (.compare .group ['y'])

theorem tagAndGroup_renders :
    Renders "tag=\"x\" and group=\"y\"".toList tagAndGroupExpr tagAndGroup := by
  show Renders _ _ (tagAndGroup.take 3 ++ (tagAndGroup.drop 3).take 3 ++ _)
  refine .and ?_ ?_ rfl
  · exact .equal false ⟨rfl, .inl ⟨rfl, ['x'], trivial, by decide, rfl⟩⟩ ⟨rfl, by decide⟩ rfl
  · exact .equal false ⟨rfl, .inl ⟨rfl, ['y'], trivial, by decide, rfl⟩⟩ ⟨rfl, by decide⟩ rfl

def taggedItem : FilterItem where
  inGroup name := name = ['y']
  tags := [(['x'], [])]

theorem preselected_iff_polar_tagAndGroup :
    Preselected "tag=\"x\" and group=\"y\"".toList (zbxEvalPrepareFilter tagAndGroup) taggedItem :=
  (preselected_iff_polar wholeNumbers_lawful tagAndGroup_renders).1 (by decide) taggedItem (by decide)

def untaggedItem : FilterItem where
  inGroup name := name = ['y']
  tags := []

def notTagAndGroup : List (EvalToken ℤ) :=
  [⟨.parsed propTag, 0, ⟨5, 7⟩, .none⟩, ⟨.parsed varStr, 0, ⟨9, 11⟩, .none⟩,
    ⟨.parsed opEq, 0, ⟨8, 8⟩, .none⟩, ⟨.parsed propGroup, 0, ⟨17, 21⟩, .none⟩,
    ⟨.parsed varStr, 0, ⟨23, 25⟩, .none⟩, ⟨.parsed opEq, 0, ⟨22, 22⟩, .none⟩,
    ⟨.parsed opAnd, 0, ⟨13, 15⟩, .none⟩, ⟨.parsed opNot, 0, ⟨0, 2⟩, .none⟩]

def notTagAndGroupExpr : FilterExpr := .not tagAndGroupExpr

theorem notTagAndGroup_renders :
    Renders "not (tag=\"x\" and group=\"y\")".toList notTagAndGroupExpr notTagAndGroup := by
  show Renders _ _ (notTagAndGroup.take 3 ++ (notTagAndGroup.drop 3).take 3 ++ [_] ++ _)
  refine .not (.and ?_ ?_ rfl) rfl
  · exact .equal false ⟨rfl, .inl ⟨rfl, ['x'], trivial, by decide, rfl⟩⟩ ⟨rfl, by decide⟩ rfl
  · exact .equal false ⟨rfl, .inl ⟨rfl, ['y'], trivial, by decide, rfl⟩⟩ ⟨rfl, by decide⟩ rfl

theorem matching_item_excluded :
    Renders "not (tag=\"x\" and group=\"y\")".toList notTagAndGroupExpr notTagAndGroup ∧
    itemMatches wholeNumbers "not (tag=\"x\" and group=\"y\")".toList
        (zbxEvalPrepareFilter notTagAndGroup) untaggedItem = true ∧
      zbxEvalGetGroupFilter "not (tag=\"x\" and group=\"y\")".toList
        (zbxEvalPrepareFilter notTagAndGroup) = .ok (some "not {0}".toList, [['y']]) ∧
      ¬Preselected "not (tag=\"x\" and group=\"y\")".toList
        (zbxEvalPrepareFilter notTagAndGroup) untaggedItem := by
  have hfilter : zbxEvalGetGroupFilter "not (tag=\"x\" and group=\"y\")".toList
      (zbxEvalPrepareFilter notTagAndGroup) = .ok (some "not {0}".toList, [['y']]) := by rfl
  refine ⟨notTagAndGroup_renders, by rfl, hfilter, ?_⟩
  rw [Preselected, hfilter]
  intro htrue
  have hfalse : Reads (fun n => ([['y']][n]?).any untaggedItem.inGroup) "not {0}".toList false :=
    (Reads.index 0).not
  have := (htrue.unique hfalse (x := []) (y := []) rfl).2
  cases this

end Zabbix.Eval
