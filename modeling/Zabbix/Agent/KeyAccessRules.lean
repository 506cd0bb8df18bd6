import Zabbix.Agent.KeyAccess
import Zabbix.Foundation.RuleList

/-!
# What the access rules decide

The first configured rule that covers a key decides on it. The loaded rules are the configured ones
after sorting, normalisation of the patterns and removal of rules.
-/

namespace Zabbix.KeyAccess

open List Zabbix.Itemutil Zabbix.Wildcard

variable {reads reads' : List Char → List Char → Prop} {pattern : List Char} {proto : Rule}
  {rec : Record}

def anyText (p : List Char) : Bool := p ≠ [] && p.all (· = '*')

def fixedParams (patterns : List (List Char)) : List (List Char) := patterns.rdropWhile anyText

def CoversParams (reads : List Char → List Char → Prop) (patterns params : List (List Char)) :
    Prop :=
  if fixedParams patterns = patterns then Forall₂ reads patterns params
  else params ≠ [] ∧
    Forall₂ reads (fixedParams patterns) (params.take (fixedParams patterns).length)

def Covers (reads : List Char → List Char → Prop) (w : Rule) (key : List Char)
    (params : List (List Char)) : Prop :=
  (anyText w.key = true ∧ w.params = []) ∨ (reads w.key key ∧ CoversParams reads w.params params)

def Reads (pattern value : List Char) : Prop :=
  Glob '*' pattern value ∨ Misread (minimize pattern) value

instance decidableForall₂ (reads : List Char → List Char → Prop) [DecidableRel reads] :
    (patterns values : List (List Char)) → Decidable (Forall₂ reads patterns values)
  | [], [] => isTrue .nil
  | [], _ :: _ => isFalse fun h => nomatch h
  | _ :: _, [] => isFalse fun h => nomatch h
  | p :: patterns, v :: values =>
    have := decidableForall₂ reads patterns values
    decidable_of_iff (reads p v ∧ Forall₂ reads patterns values) forall₂_cons.symm

instance decidableCoversParams (reads : List Char → List Char → Prop) [DecidableRel reads]
    (patterns params : List (List Char)) : Decidable (CoversParams reads patterns params) :=
  inferInstanceAs (Decidable (if fixedParams patterns = patterns then
    Forall₂ reads patterns params else params ≠ [] ∧
      Forall₂ reads (fixedParams patterns) (params.take (fixedParams patterns).length)))

instance decidableCovers (reads : List Char → List Char → Prop) [DecidableRel reads] (w : Rule)
    (key : List Char) (params : List (List Char)) : Decidable (Covers reads w key params) :=
  inferInstanceAs (Decidable (_ ∨ _))

instance decidableReads : DecidableRel Reads := fun _ _ => inferInstanceAs (Decidable (_ ∨ _))

theorem CoversParams.mono {patterns params : List (List Char)} (hle : ∀ p v, reads p v → reads' p v)
    (h : CoversParams reads patterns params) : CoversParams reads' patterns params := by
  unfold CoversParams at h ⊢
  split_ifs at h ⊢
  · exact h.imp hle
  · exact ⟨h.1, h.2.imp hle⟩

theorem Covers.mono {w : Rule} {key : List Char} {params : List (List Char)}
    (hle : ∀ p v, reads p v → reads' p v) (h : Covers reads w key params) :
    Covers reads' w key params :=
  h.imp_right fun ⟨hkey, hparams⟩ => ⟨hle _ _ hkey, hparams.mono hle⟩

section matchParams

variable {patterns params : List (List Char)}

theorem matchParams_star (patterns params : List (List Char)) :
    matchParams (patterns ++ [['*']]) params = true ↔
      Forall₂ (fun p v => wildcardMatch v p = true) patterns (params.take patterns.length) := by
  induction patterns generalizing params with
  | nil => simp [matchParams]
  | cons p patterns ih =>
    obtain ⟨q, rest, hrest⟩ : ∃ q rest, patterns ++ [['*']] = q :: rest :=
      exists_cons_of_ne_nil (by simp)
    cases params with
    | nil => simp [hrest, matchParams]
    | cons v params =>
      rw [cons_append, hrest, matchParams, ← hrest]
      by_cases hv : wildcardMatch v p = true
      · rw [if_pos hv, ih]
        simp [hv]
      · simp [hv]

theorem matchParams_exact (hne : patterns ≠ []) (hlast : patterns.getLast? ≠ some ['*'])
    (hlength : params.length = patterns.length) :
    matchParams patterns params = true ↔
      Forall₂ (fun p v => wildcardMatch v p = true) patterns params := by
  induction patterns generalizing params with
  | nil => exact absurd rfl hne
  | cons p patterns ih =>
    cases params with
    | nil => cases hlength
    | cons v params =>
      cases patterns with
      | nil =>
        obtain rfl : params = [] := length_eq_zero_iff.mp (Nat.succ.inj hlength)
        have hp : p ≠ ['*'] := fun h => hlast (by rw [h]; rfl)
        simp [matchParams, hp]
      | cons q rest =>
        rw [matchParams]
        by_cases hv : wildcardMatch v p = true
        · rw [if_pos hv, ih (cons_ne_nil _ _) (by simpa using hlast) (Nat.succ.inj hlength)]
          simp [hv]
        · simp [hv]

end matchParams

section matchRule

variable {r : Rule} {patterns : List (List Char)} (key : List Char) (params : List (List Char))

theorem matchRule_bare (hparams : r.params = []) :
    matchRule r key params = true ↔
      r.key = ['*'] ∨ (wildcardMatch key r.key = true ∧ params = []) := by
  unfold matchRule
  simp only [hparams, and_true, ne_eq, not_true_eq_false, false_and, if_false, true_and]
  by_cases hany : r.key = ['*']
  · simp [hany]
  · by_cases hmatch : wildcardMatch key r.key = true
    · by_cases hnil : params = []
      · simp [hany, hmatch, hnil]
      · simp [hany, hmatch, hnil, matchParams]
    · simp [hany, hmatch]

theorem matchRule_exact (hne : r.params ≠ []) (hlast : r.params.getLast? ≠ some ['*']) :
    matchRule r key params = true ↔
      wildcardMatch key r.key = true ∧
        Forall₂ (fun p v => wildcardMatch v p = true) r.params params := by
  unfold matchRule
  simp only [hne, hlast, and_false, ne_eq, not_false_eq_true, true_and, false_and, if_false]
  obtain hlength | hlength := ne_or_eq params.length r.params.length
  · have hnot : ¬ Forall₂ (fun p v => wildcardMatch v p = true) r.params params :=
      fun hall => hlength hall.length_eq.symm
    rw [iff_false_right fun h => hnot h.2]
    obtain hlt | hgt := lt_or_gt_of_ne hlength
    · rw [if_pos hlt]
      exact Bool.false_ne_true
    · rw [if_neg (Nat.not_lt.mpr hgt.le), if_pos hgt]
      exact Bool.false_ne_true
  · rw [if_neg hlength.not_lt, if_neg hlength.not_gt, ← matchParams_exact hne hlast hlength]
    by_cases hmatch : wildcardMatch key r.key = true <;> simp [hmatch]

theorem matchRule_open (hparams : r.params = patterns ++ [['*']]) :
    matchRule r key params = true ↔
      wildcardMatch key r.key = true ∧ params ≠ [] ∧
        Forall₂ (fun p v => wildcardMatch v p = true) patterns
          (params.take patterns.length) := by
  have hne : r.params ≠ [] := by simp [hparams]
  have hlast : r.params.getLast? = some ['*'] := by simp [hparams]
  unfold matchRule
  simp only [hne, hlast, and_false, ne_eq, not_false_eq_true, not_true_eq_false, true_and,
    false_and, if_false]
  by_cases hnil : params = []
  · subst hnil
    by_cases hpatterns : patterns = []
    · simp [hparams, hpatterns]
    · have hnot : ¬ Forall₂ (fun p v => wildcardMatch v p = true) patterns [] := by
        rwa [forall₂_nil_right_iff]
      have hloop : ¬ matchParams r.params [] = true := by
        rw [hparams, matchParams_star]
        simpa using hnot
      by_cases hmatch : wildcardMatch key r.key = true <;> simp [hmatch, hloop]
  · rw [if_neg fun h => hnil h.2, hparams, ← matchParams_star]
    by_cases hmatch : wildcardMatch key r.key = true <;> simp [hmatch, hnil]

end matchRule

theorem wildcardMatch_reads {value : List Char} (hvalid : validRunes 0 pattern = true) :
    wildcardMatch value (minimize pattern) = true ↔ Reads pattern value := by
  rw [wildcardMatch_iff, glob_minimize hvalid, Reads]

theorem minimize_eq_star (hvalid : validRunes 0 pattern = true) :
    minimize pattern = ['*'] ↔ anyText pattern = true := by
  rw [minimize_eq hvalid, Glob.squeeze_eq_star]
  simp [anyText]

/-- The texts of the rule are UTF-8, and its patterns for any parameter are at most one or are
all at the end. -/
structure WellWritten (w : Rule) : Prop where
  key_valid : validRunes 0 w.key = true
  params_valid : ∀ p ∈ w.params, validRunes 0 p = true
  stars : w.params.countP anyText ≤ 1 ∨ ∀ p ∈ fixedParams w.params, anyText p = false

def normalise (w : Rule) : Rule :=
  { w with key := minimize w.key, params := cutParams (w.params.map minimize) }

theorem count_star {params : List (List Char)} (hvalid : ∀ p ∈ params, validRunes 0 p = true) :
    (params.map minimize).count ['*'] = params.countP anyText := by
  rw [List.count, countP_map]
  refine countP_congr fun p hp => ?_
  rw [Function.comp_apply, beq_iff_eq, minimize_eq_star (hvalid p hp)]

theorem fixedParams_append (patterns : List (List Char)) :
    fixedParams patterns ++ patterns.rtakeWhile anyText = patterns :=
  rdropWhile_append_rtakeWhile ..

theorem map_minimize_any {patterns : List (List Char)}
    (hvalid : ∀ p ∈ patterns, validRunes 0 p = true) (hany : ∀ p ∈ patterns, anyText p = true) :
    patterns.map minimize = replicate patterns.length ['*'] := by
  rw [eq_replicate_iff]
  refine ⟨length_map _, fun q hq => ?_⟩
  obtain ⟨p, hp, rfl⟩ := mem_map.mp hq
  exact (minimize_eq_star (hvalid p hp)).mpr (hany p hp)

theorem forall₂_minimize {patterns : List (List Char)}
    (hvalid : ∀ p ∈ patterns, validRunes 0 p = true) (params : List (List Char)) :
    Forall₂ (fun p v => wildcardMatch v p = true) (patterns.map minimize) params ↔
      Forall₂ Reads patterns params := by
  induction patterns generalizing params with
  | nil => simp
  | cons p patterns ih =>
    obtain ⟨hp, hvalid⟩ := forall_mem_cons.mp hvalid
    cases params with
    | nil => simp
    | cons v params => rw [map_cons, forall₂_cons, forall₂_cons, wildcardMatch_reads hp, ih hvalid]

section normalise

variable {w : Rule} (h : WellWritten w)
include h

theorem cutParams_star (hstar : fixedParams w.params ≠ w.params) :
    cutParams (w.params.map minimize) = (fixedParams w.params).map minimize ++ [['*']] := by
  have hparts := fixedParams_append w.params
  set f := fixedParams w.params
  set t := w.params.rtakeWhile anyText
  have hany : ∀ p ∈ t, anyText p = true := fun p hp => mem_rtakeWhile_imp hp
  have ht : t ≠ [] := by
    intro hnil
    rw [hnil, append_nil] at hparts
    exact hstar hparts
  have hpos : 0 < t.length := length_pos_iff.mpr ht
  have hcount : (w.params.map minimize).count ['*'] = t.length := by
    rw [count_star h.params_valid, ← hparts, countP_append, countP_eq_length.mpr hany]
    have hfixed : f.countP anyText = 0 := by
      obtain hone | hfixed := h.stars
      · rw [← hparts, countP_append, countP_eq_length.mpr hany] at hone
        omega
      · exact countP_eq_zero.mpr fun p hp => by simp [hfixed p hp]
    omega
  have hmap : w.params.map minimize = f.map minimize ++ replicate t.length ['*'] := by
    rw [← map_minimize_any (fun p hp => h.params_valid p (hparts ▸ mem_append_right f hp)) hany,
      ← map_append, hparts]
  rw [cutParams, hcount, hmap]
  by_cases hone : 1 < t.length
  · have hlength : (f.map minimize ++ replicate t.length ['*']).length - t.length + 1 =
        (f.map minimize).length + 1 := by
      rw [length_append, length_replicate]
      omega
    rw [if_pos hone, hlength, take_length_add_append, take_replicate, Nat.min_eq_left hone.le]
    rfl
  · have hlength : t.length = 1 := by omega
    rw [if_neg hone, hlength]
    rfl

theorem cutParams_exact (hfixed : fixedParams w.params = w.params) :
    cutParams (w.params.map minimize) = w.params.map minimize := by
  have hcount : (w.params.map minimize).count ['*'] ≤ 1 := by
    rw [count_star h.params_valid]
    obtain hone | hnone := h.stars
    · exact hone
    · rw [hfixed] at hnone
      rw [countP_eq_zero.mpr fun p hp => by simp [hnone p hp]]
      exact Nat.zero_le _
  rw [cutParams, if_neg (Nat.not_lt.mpr hcount)]

theorem last_ne_star (hfixed : fixedParams w.params = w.params) :
    (w.params.map minimize).getLast? ≠ some ['*'] := by
  intro hlast
  rw [getLast?_map] at hlast
  obtain ⟨p, hp, hstar⟩ := Option.map_eq_some_iff.mp hlast
  obtain ⟨hne, rfl⟩ := getLast?_eq_some_iff.mp hp |>.elim fun _ heq =>
    (⟨heq ▸ by simp, by simp [heq]⟩ : ∃ hne : w.params ≠ [], w.params.getLast hne = p)
  have hvalid := h.params_valid _ (getLast_mem hne)
  exact rdropWhile_eq_self_iff.mp hfixed hne ((minimize_eq_star hvalid).mp hstar)

theorem matchRule_iff (key : List Char) (params : List (List Char)) :
    matchRule (normalise w) key params = true ↔ Covers Reads w key params := by
  have hkey : minimize w.key = ['*'] ↔ anyText w.key = true := minimize_eq_star h.key_valid
  have hread : wildcardMatch key (minimize w.key) = true ↔ Reads w.key key :=
    wildcardMatch_reads h.key_valid
  unfold Covers CoversParams
  rw [← hkey, ← hread]
  by_cases hfixed : fixedParams w.params = w.params
  · have hnormal : (normalise w).params = w.params.map minimize := cutParams_exact h hfixed
    rw [if_pos hfixed]
    by_cases hnil : w.params = []
    · rw [matchRule_bare key params (by rw [hnormal, hnil]; rfl), hnil, forall₂_nil_left_iff,
        and_iff_left rfl]
      rfl
    · rw [matchRule_exact key params (by simpa [hnormal] using hnil)
        (hnormal ▸ last_ne_star h hfixed), hnormal, forall₂_minimize h.params_valid,
        or_iff_right fun hbare => hnil hbare.2]
      rfl
  · have hnormal : (normalise w).params = (fixedParams w.params).map minimize ++ [['*']] :=
      cutParams_star h hfixed
    have hvalid : ∀ p ∈ fixedParams w.params, validRunes 0 p = true := fun p hp =>
      h.params_valid p (( rdropWhile_prefix _ _).subset hp)
    rw [matchRule_open key params hnormal, if_neg hfixed, forall₂_minimize hvalid, length_map,
      or_iff_right fun hbare => hfixed (by rw [hbare.2]; rfl)]
    rfl

end normalise

def written (rec : Record) : Except String Rule :=
  (parseWildcardKey rec.pattern).map fun (key, params) =>
    { pattern := rec.pattern, permission := rec.permission, key := key, params := params }

theorem parse_eq (rec : Record) : parse rec = (written rec).map normalise := by
  unfold parse written
  cases parseWildcardKey rec.pattern <;> rfl

def configured (records : List Record) : List Rule :=
  records.filterMap fun rec => (written rec).toOption

def permits (r : Rule) : Bool := r.permission = .allow

theorem checkRules_eq (rules : List Rule) (key : List Char) (params : List (List Char)) :
    checkRules rules key params = verdict (matchRule · key params) permits true rules := by
  induction rules with
  | nil => rfl
  | cons r rules ih => simp only [checkRules, verdict, ih, permits]

theorem matchRule_congr {r s : Rule} (hkey : r.key = s.key) (hparams : r.params = s.params)
    (key : List Char) (params : List (List Char)) :
    matchRule r key params = matchRule s key params := by
  unfold matchRule
  rw [hkey, hparams]

theorem findRule_some {rules : List Rule} {r : Rule} {i : Nat}
    (h : findRule rules proto = some (r, i)) :
    r ∈ rules ∧ proto.key = r.key ∧ proto.params = r.params := by
  induction rules generalizing i with
  | nil => cases h
  | cons s rules ih =>
    rw [findRule] at h
    split_ifs at h with hsame
    · cases h
      exact ⟨mem_cons_self, hsame⟩
    · obtain ⟨⟨r', j⟩, hfind, heq⟩ := Option.map_eq_some_iff.mp h
      cases heq
      obtain ⟨hmem, hsame⟩ := ih hfind
      exact ⟨mem_cons_of_mem s hmem, hsame⟩

section loading

variable (key : List Char) (params : List (List Char)) {rules added : List Rule}

theorem exists_tested (h : (findRule rules proto).isSome = true) :
    ∃ r ∈ rules, matchRule proto key params = matchRule r key params := by
  obtain ⟨⟨r, i⟩, hfind⟩ := Option.isSome_iff_exists.mp h
  obtain ⟨hmem, hkey, hparams⟩ := findRule_some hfind
  exact ⟨r, hmem, matchRule_congr hkey hparams key params⟩

theorem addRule_verdict (h : addRule rules rec = .ok added) (default : Bool) :
    ∃ w, written rec = .ok w ∧
      verdict (matchRule · key params) permits default added =
        verdict (matchRule · key params) permits default (rules ++ [normalise w]) := by
  rw [addRule, parse_eq] at h
  cases hw : written rec with
  | error err =>
    rw [hw] at h
    cases h
  | ok w =>
    rw [hw] at h
    refine ⟨w, rfl, ?_⟩
    simp only [Except.map] at h
    split_ifs at h with hfound
    · cases h
      obtain ⟨r, hmem, hsame⟩ := exists_tested key params hfound
      have hskip : verdict (matchRule · key params) permits default (rules ++ [normalise w]) =
          verdict (matchRule · key params) permits default (rules ++ []) :=
        verdict.unreachable hmem hsame
      rw [hskip, append_nil]
    · cases h
      rfl

theorem addRules_verdict {records : List Record} (h : addRules rules records = .ok added)
    (default : Bool) :
    verdict (matchRule · key params) permits default added =
      verdict (matchRule · key params) permits default
        (rules ++ (configured records).map normalise) := by
  induction records generalizing rules with
  | nil =>
    cases h
    rw [configured, filterMap_nil, map_nil, append_nil]
  | cons rec records ih =>
    rw [addRules] at h
    split at h
    · cases h
    · next rules' hadd =>
      rw [ih h, verdict.append]
      obtain ⟨w, hw, hverdict⟩ := addRule_verdict key params hadd
        (verdict (matchRule · key params) permits default ((configured records).map normalise))
      rw [hverdict, ← verdict.append, append_assoc]
      simp [configured, hw, Except.toOption]

theorem matchRule_fullMatch {r : Rule} (h : fullMatch r = true) : matchRule r key params = true := by
  obtain ⟨hparams, hkey⟩ := Bool.and_eq_true_iff.mp h
  rw [matchRule_bare key params (of_decide_eq_true hparams)]
  exact .inl (of_decide_eq_true hkey)

def allowedLast (rules : List Rule) : List Rule := rules.rtakeWhile permits

theorem removeTrailing_eq (rules : List Rule) :
    removeTrailing rules =
      (rules.takeWhile permits).filter (·.key = systemRun) ++ rules.dropWhile permits := by
  induction rules with
  | nil => rfl
  | cons r rules ih =>
    by_cases hr : r.permission = .allow
    · by_cases hkey : r.key = systemRun
      · simp [removeTrailing, permits, hr, hkey, ih]
      · simp [removeTrailing, permits, hr, hkey, ih]
    · simp [removeTrailing, permits, hr]

theorem removeTrailing_reverse (rules : List Rule) :
    (removeTrailing rules.reverse).reverse =
      rules.rdropWhile permits ++ (allowedLast rules).filter (·.key = systemRun) := by
  rw [removeTrailing_eq, reverse_append, List.rdropWhile, allowedLast, List.rtakeWhile,
    filter_reverse]

theorem removeTrailing_verdict (rules : List Rule) :
    verdict (matchRule · key params) permits true (removeTrailing rules.reverse).reverse =
      verdict (matchRule · key params) permits true rules := by
  have hlast : ∀ r ∈ allowedLast rules, permits r = true := fun r hr => mem_rtakeWhile_imp hr
  have hkept : ∀ r ∈ (allowedLast rules).filter (·.key = systemRun), permits r = true :=
    fun r hr => hlast r (mem_of_mem_filter hr)
  have hparts : rules.rdropWhile permits ++ allowedLast rules = rules :=
    rdropWhile_append_rtakeWhile
  conv_rhs => rw [← hparts]
  rw [removeTrailing_reverse, verdict.append, verdict.append,
    verdict.redundant fun r hr _ => hkept r hr]
  congr 1
  exact (verdict.redundant fun r hr _ => hlast r hr).symm

theorem removeUnreachable_verdict (rules : List Rule) (sysrunIndex : Option Nat) (default : Bool) :
    verdict (matchRule · key params) permits default (removeUnreachable rules sysrunIndex).1 =
      verdict (matchRule · key params) permits default rules := by
  unfold removeUnreachable
  split
  · rfl
  · next i hfull =>
    obtain ⟨hi, hmatch, -⟩ := findIdx?_eq_some_iff_getElem.mp hfull
    conv_rhs => rw [← take_append_drop (i + 1) rules, verdict.append]
    have hmem : rules[i] ∈ rules.take (i + 1) :=
      mem_take_iff_getElem.mpr ⟨i, lt_min (Nat.lt_succ_self i) hi, rfl⟩
    exact verdict.default_irrelevant hmem (matchRule_fullMatch key params hmatch) _ _

/-- A call of `system.run` that only `AllowKey` rules at the end of the list allow, none of them for
`system.run` itself, in front of the default rule. -/
structure OnlyRedundant (rules : List Rule) (sysrunRule : Rule) : Prop where
  default_applies : matchRule sysrunRule key params = true
  default_added : findRule rules sysrunRule = none
  not_full : ∀ r ∈ rules, fullMatch r = false
  allowed : ∃ r ∈ allowedLast rules, matchRule r key params = true
  not_before : ∀ r ∈ rules.rdropWhile permits, matchRule r key params = false
  not_kept : ∀ r ∈ allowedLast rules, r.key = systemRun → matchRule r key params = false

theorem matchRule_eq_false {r : Rule} : ¬ matchRule r key params = true ↔
    matchRule r key params = false := by
  rw [Bool.not_eq_true]

theorem removeTrailing_default {sysrunRule : Rule} (hdeny : permits sysrunRule = false)
    (hadded : findRule rules sysrunRule = none) (hfull : ∀ r ∈ rules, fullMatch r = false) :
    verdict (matchRule · key params) permits true
        ((removeTrailing rules.reverse).reverse ++ [sysrunRule]) =
      verdict (matchRule · key params) permits true (rules ++ [sysrunRule]) ↔
        ¬ OnlyRedundant key params rules sysrunRule := by
  rw [verdict.append, verdict.append]
  by_cases hsys : matchRule sysrunRule key params = true
  · have hdefault : verdict (matchRule · key params) permits true [sysrunRule] = false := by
      rw [verdict, if_pos hsys, hdeny]
    have hparts : rules.rdropWhile permits ++ allowedLast rules = rules :=
      rdropWhile_append_rtakeWhile
    rw [hdefault, removeTrailing_reverse, verdict.append]
    conv_lhs => rhs; rw [← hparts, verdict.append]
    by_cases hbefore : ∃ r ∈ rules.rdropWhile permits, matchRule r key params = true
    · obtain ⟨r, hr, happ⟩ := hbefore
      refine iff_of_true (verdict.default_irrelevant hr happ _ _) fun h => ?_
      exact Bool.false_ne_true ((h.not_before r hr).symm.trans happ)
    · have hnone : ∀ r ∈ rules.rdropWhile permits, matchRule r key params = false := fun r hr =>
        (matchRule_eq_false key params).mp fun happ => hbefore ⟨r, hr, happ⟩
      have hlast : ∀ r ∈ allowedLast rules, permits r = true := fun r hr => mem_rtakeWhile_imp hr
      rw [verdict.of_none hnone, verdict.of_none hnone, Bool.eq_iff_iff,
        verdict.eq_true_iff_of_permits hlast,
        verdict.eq_true_iff_of_permits fun r hr => hlast r (mem_of_mem_filter hr)]
      constructor
      · intro hsame h
        obtain ⟨r, hr, happ⟩ := hsame.mpr h.allowed
        obtain ⟨hr, hkey⟩ := mem_filter.mp hr
        exact Bool.false_ne_true ((h.not_kept r hr (of_decide_eq_true hkey)).symm.trans happ)
      · intro h
        constructor
        · rintro ⟨r, hr, happ⟩
          exact ⟨r, mem_of_mem_filter hr, happ⟩
        · intro hallowed
          by_contra hkept
          refine h ⟨hsys, hadded, hfull, hallowed, hnone, fun r hr hkey => ?_⟩
          exact (matchRule_eq_false key params).mp fun happ =>
            hkept ⟨r, mem_filter.mpr ⟨hr, decide_eq_true hkey⟩, happ⟩
  · have hdefault : verdict (matchRule · key params) permits true [sysrunRule] = true := by
      rw [verdict, if_neg hsys]
      rfl
    rw [hdefault]
    exact iff_of_true (removeTrailing_verdict key params rules) fun h => hsys h.default_applies

theorem written_permission {w : Rule} (h : written rec = .ok w) :
    w.permission = rec.permission := by
  obtain ⟨⟨key, params⟩, -, rfl⟩ := map_eq_ok h
  rfl

theorem removeUnreachable_index (rules : List Rule) (i : Nat) :
    (removeUnreachable rules (some i)).2 ≠ none := by
  unfold removeUnreachable
  split <;> exact Option.some_ne_none _

theorem loadRules_verdict {allowRecords denyRecords : List (List Char × Nat)}
    (h : loadRules allowRecords denyRecords = .ok rules) :
    ∃ added w, addRules [] (sortRecords
        (allowRecords.map (fun v => { pattern := v.1, permission := .allow, line := v.2 }) ++
          denyRecords.map fun v => { pattern := v.1, permission := .deny, line := v.2 })) =
            .ok added ∧
      written sysrunRecord = .ok w ∧
      (checkRules rules key params =
          verdict (matchRule · key params) permits true (added ++ [normalise w]) ↔
        ¬ OnlyRedundant key params added (normalise w)) := by
  unfold loadRules at h
  simp only at h
  split at h
  · cases h
  · next added hadd =>
    rw [parse_eq] at h
    cases hw : written sysrunRecord with
    | error err =>
      rw [hw] at h
      cases h
    | ok w =>
      rw [hw] at h
      refine ⟨added, w, hadd, rfl, ?_⟩
      have hdeny : permits (normalise w) = false :=
        decide_eq_false fun hallow => nomatch (written_permission hw).symm.trans hallow
      simp only [Except.map] at h
      rw [checkRules_eq]
      cases hfound : findRule added (normalise w) with
      | some found =>
        have hskip : verdict (matchRule · key params) permits true (added ++ [normalise w]) =
            verdict (matchRule · key params) permits true (added ++ []) := by
          obtain ⟨r, hmem, hsame⟩ := exists_tested key params (Option.isSome_of_mem hfound)
          exact verdict.unreachable hmem hsame
        rw [hskip, append_nil]
        refine iff_of_true ?_ fun hredundant => nomatch hfound.symm.trans hredundant.default_added
        simp only [hfound, Option.map_some, Option.isSome_some, removeUnreachable_index,
          reduceCtorEq, if_false, if_true] at h
        split_ifs at h
        · cases h
          rw [removeTrailing_verdict, removeUnreachable_verdict]
        · cases h
          rfl
      | none =>
        simp only [hfound, Option.isSome_none, Option.map_none, Bool.false_eq_true, if_true,
          if_false] at h
        cases hfull : added.findIdx? fullMatch with
        | none =>
          have hunreach : removeUnreachable added none = (added, none) := by
            rw [removeUnreachable, hfull]
          have hnone : ∀ r ∈ added, fullMatch r = false := findIdx?_eq_none_iff.mp hfull
          simp only [hunreach, if_true] at h
          split_ifs at h with hnum hnil
          · cases h
            exact removeTrailing_default key params hdeny hfound hnone
          · cases h
            obtain rfl : added = [] := length_eq_zero_iff.mp (not_not.mp hnum)
            refine iff_of_true rfl fun hredundant => ?_
            obtain ⟨r, hr, -⟩ := hredundant.allowed
            exact not_mem_nil hr
        | some i =>
          obtain ⟨hi, hmatch, -⟩ := findIdx?_eq_some_iff_getElem.mp hfull
          have hmem : added[i] ∈ added := getElem_mem hi
          have hirrelevant : verdict (matchRule · key params) permits true (added ++ [normalise w]) =
              verdict (matchRule · key params) permits true added := by
            rw [verdict.append]
            exact verdict.default_irrelevant hmem (matchRule_fullMatch key params hmatch) _ _
          rw [hirrelevant]
          refine iff_of_true ?_ fun hredundant =>
            Bool.false_ne_true ((hredundant.not_full _ hmem).symm.trans hmatch)
          have hunreach : (removeUnreachable added none).2 ≠ none := by
            simp [removeUnreachable, hfull]
          rw [if_neg hunreach] at h
          split_ifs at h with hnum hnil
          · cases h
            rw [removeTrailing_verdict, removeUnreachable_verdict]
          · obtain rfl : added = [] := length_eq_zero_iff.mp (not_not.mp hnum)
            exact absurd hmem not_mem_nil

end loading

def InOrder (records : List Record) : Prop :=
  records.Pairwise fun a b =>
    a.line < b.line ∨ (a.line = b.line ∧ (a.permission = .allow ∨ b.permission = .deny))

def valuesOf (permission : RuleType) (records : List Record) : List (List Char × Nat) :=
  (records.filter (·.permission = permission)).map fun r => (r.pattern, r.line)

theorem records_valuesOf (permission : RuleType) (records : List Record) :
    (valuesOf permission records).map
        (fun v => ({ pattern := v.1, permission := permission, line := v.2 } : Record)) =
      records.filter (·.permission = permission) := by
  rw [valuesOf, map_map]
  conv_rhs => rw [← map_id (records.filter (·.permission = permission))]
  refine map_congr_left fun r hr => ?_
  obtain rfl := of_decide_eq_true (mem_filter.mp hr).2
  rfl

theorem sortRecords_middle {r : Record} {records later : List Record}
    (hrecords : ∀ s ∈ records, r.line ≤ s.line) (hlater : ∀ s ∈ later, r.line < s.line) :
    sortRecords (later ++ r :: records) = r :: sortRecords (later ++ records) := by
  induction later with
  | nil => exact insertionSort_cons_of_forall_rel _ hrecords
  | cons s later ih =>
    obtain ⟨hs, hlater⟩ := forall_mem_cons.mp hlater
    have hinsert : sortRecords (s :: (later ++ r :: records)) =
        (sortRecords (later ++ r :: records)).orderedInsert (fun a b => a.line ≤ b.line) s := rfl
    rw [cons_append, hinsert, ih hlater, orderedInsert_cons, if_neg (Nat.not_le.mpr hs)]
    rfl

theorem sortRecords_eq {records : List Record} (h : InOrder records) :
    sortRecords (records.filter (·.permission = .allow) ++
      records.filter (·.permission = .deny)) = records := by
  induction records with
  | nil => rfl
  | cons r records ih =>
    obtain ⟨hr, h⟩ := pairwise_cons.mp h
    have hle : ∀ s ∈ records, r.line ≤ s.line := fun s hs =>
      (hr s hs).elim Nat.le_of_lt fun heq => heq.1.le
    cases hperm : r.permission with
    | allow =>
      have hall : ∀ s ∈ records.filter (·.permission = .allow) ++
          records.filter (·.permission = .deny), r.line ≤ s.line := fun s hs =>
        hle s ((mem_append.mp hs).elim mem_of_mem_filter mem_of_mem_filter)
      rw [filter_cons_of_pos (by simp [hperm]), filter_cons_of_neg (by simp [hperm]), cons_append]
      have hfront := @sortRecords_middle r _ [] hall fun s hs => absurd hs not_mem_nil
      rw [nil_append, nil_append, ih h] at hfront
      exact hfront
    | deny =>
      have hlt : ∀ s ∈ records.filter (·.permission = .allow), r.line < s.line := by
        intro s hs
        obtain ⟨hs, hallow⟩ := mem_filter.mp hs
        have hallow : s.permission = .allow := of_decide_eq_true hallow
        refine (hr s hs).resolve_right fun heq => ?_
        obtain hr | hs := heq.2
        · exact nomatch hperm.symm.trans hr
        · exact nomatch hallow.symm.trans hs
      rw [filter_cons_of_neg (by simp [hperm]), filter_cons_of_pos (by simp [hperm]),
        sortRecords_middle (fun s hs => hle s (mem_of_mem_filter hs)) hlt, ih h]

def decision (records : List Record) (key : List Char) (params : List (List Char)) : Bool :=
  verdict (fun w => decide (Covers (Glob '*') w key params)) permits true
    (configured (records ++ [sysrunRecord]))

structure ReadAsWritten (records : List Record) (key : List Char) (params : List (List Char)) :
    Prop where
  tested : ∀ before w after, configured (records ++ [sysrunRecord]) = before ++ w :: after →
    (∀ b ∈ before, ¬ Covers (Glob '*') b key params) →
      WellWritten w ∧ (Covers Reads w key params → Covers (Glob '*') w key params)
  kept : ∀ added w, addRules [] records = .ok added → written sysrunRecord = .ok w →
    ¬ OnlyRedundant key params added (normalise w)

def denyOne : Record := { pattern := ['a'], permission := .deny, line := 1 }

def allowSystem : Record :=
  { pattern := ['s', 'y', 's', 't', 'e', 'm', '.', '*', '[', '*', ']'], permission := .allow,
    line := 2 }

end Zabbix.KeyAccess
