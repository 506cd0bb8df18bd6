import Mathlib
import Zabbix.Foundation.Glob

/-!
# Wildcards of the agent

`pkg/wildcard`. A text is the list of its bytes and a position in it is what is left from there on.
-/

namespace Zabbix.Wildcard

open List

def runeHead (b : Nat) : Option (Nat × Nat × Nat) :=
  if b < 0x80 then some (1, 0x80, 0xBF)
  else if 0xC2 ≤ b ∧ b ≤ 0xDF then some (2, 0x80, 0xBF)
  else if b = 0xE0 then some (3, 0xA0, 0xBF)
  else if b = 0xED then some (3, 0x80, 0x9F)
  else if 0xE1 ≤ b ∧ b ≤ 0xEF then some (3, 0x80, 0xBF)
  else if b = 0xF0 then some (4, 0x90, 0xBF)
  else if b = 0xF4 then some (4, 0x80, 0x8F)
  else if 0xF1 ≤ b ∧ b ≤ 0xF3 then some (4, 0x80, 0xBF)
  else none

/-- How many bytes follow the byte `c` in its character; none where the bytes are no UTF-8. -/
def runeTail (c : Char) (s : List Char) : Option Nat :=
  match runeHead c.toNat with
  | none => none
  | some (n, lo, hi) =>
    if n = 1 then some 0
    else
      match s with
      | [] => none
      | d :: s =>
        if lo ≤ d.toNat ∧ d.toNat ≤ hi ∧ (s.take (n - 2)).length = n - 2 ∧
            ∀ e ∈ s.take (n - 2), 0x80 ≤ e.toNat ∧ e.toNat ≤ 0xBF then some (n - 1)
        else none

/-- The bytes of the replacement character, which `range` gives for a byte that is no UTF-8. -/
def runeError : List Char := ['\xEF', '\xBF', '\xBD']

def minimizeLoop : Nat → Bool → List Char → List Char
  | _, _, [] => []
  | skip + 1, last, c :: pattern => c :: minimizeLoop skip last pattern
  | 0, last, c :: pattern =>
    if c = '*' ∧ last then minimizeLoop 0 last pattern
    else
      match runeTail c pattern with
      | some skip => c :: minimizeLoop skip (c = '*') pattern
      | none => runeError ++ minimizeLoop 0 false pattern

/-- `Minimize`; `last` of the source is kept as whether it was a star. -/
def minimize (pattern : List Char) : List Char := minimizeLoop 0 false pattern

inductive Prefix where
  | differs
  | whole
  | atStar (pi vi : List Char)
  deriving DecidableEq

/-- The first loop of `Match`: `skip` bytes are left of the character that was compared by its
first byte. -/
def comparePrefix : Nat → List Char → List Char → Prefix
  | _, [], _ => .whole
  | skip + 1, _c :: pattern, value => comparePrefix skip pattern value.tail
  | 0, c :: pattern, value =>
    if c = '*' then .atStar (c :: pattern) value
    else
      match value with
      | [] => .whole
      | d :: value =>
        if c ≠ d then .differs else comparePrefix ((runeTail c pattern).getD 0) pattern value

theorem runeTail_ne_star {c : Char} {s : List Char} {skip : Nat} (h : runeTail c s = some skip) :
    '*' ∉ s.take skip := by
  unfold runeTail at h
  split at h
  · cases h
  · next n lo hi hhead =>
    split_ifs at h with hn
    · cases h
      exact not_mem_nil
    · split at h
      · cases h
      · next d s =>
        split_ifs at h with hbytes
        obtain ⟨hlo, -, -, hrest⟩ := hbytes
        cases h
        have hlo' : 0x80 ≤ lo := by
          unfold runeHead at hhead
          split_ifs at hhead <;> cases hhead <;> decide
        obtain ⟨k, rfl⟩ : ∃ k, n = k + 2 := ⟨n - 2, by
          unfold runeHead at hhead
          split_ifs at hhead <;> cases hhead <;> first | rfl | exact absurd rfl hn⟩
        intro hstar
        obtain heq | hmem := mem_cons.mp hstar
        · subst heq
          exact absurd (hlo'.trans hlo) (by decide)
        · exact absurd (hrest _ hmem).1 (by decide)

theorem star_not_mem_getD (c : Char) (s : List Char) : '*' ∉ s.take ((runeTail c s).getD 0) := by
  cases h : runeTail c s with
  | none => exact not_mem_nil
  | some skip => exact runeTail_ne_star h

section comparePrefix

variable {skip : Nat} {pattern value pi vi : List Char}

theorem comparePrefix_atStar (hskip : '*' ∉ pattern.take skip)
    (h : comparePrefix skip pattern value = .atStar pi vi) :
    ∃ letters rest, '*' ∉ letters ∧ pattern = letters ++ '*' :: rest ∧ pi = '*' :: rest ∧
      vi = value.drop letters.length := by
  fun_induction comparePrefix skip pattern value with
  | case1 => cases h
  | case2 skip c pattern value ih =>
    obtain ⟨hc, hskip⟩ := not_or.mp (mt mem_cons.mpr hskip)
    obtain ⟨letters, rest, hletters, rfl, rfl, rfl⟩ := ih hskip h
    exact ⟨c :: letters, rest, not_mem_cons_of_ne_of_not_mem hc hletters, rfl, rfl, by simp⟩
  | case3 pattern value =>
    cases h
    exact ⟨[], pattern, not_mem_nil, rfl, rfl, rfl⟩
  | case4 => cases h
  | case5 => cases h
  | case6 c pattern hc d value hd ih =>
    obtain ⟨letters, rest, hletters, hpattern, rfl, rfl⟩ := ih (star_not_mem_getD c pattern) h
    subst hpattern
    exact ⟨c :: letters, rest, not_mem_cons_of_ne_of_not_mem (Ne.symm hc) hletters, rfl, rfl, rfl⟩

theorem comparePrefix_whole (hskip : '*' ∉ pattern.take skip)
    (h : comparePrefix skip pattern value = .whole) :
    '*' ∉ pattern ∨ ∃ letters rest, '*' ∉ letters ∧ pattern = letters ++ rest ∧
      value.length < letters.length := by
  fun_induction comparePrefix skip pattern value with
  | case1 => exact .inl not_mem_nil
  | case2 skip c pattern value ih =>
    obtain ⟨hc, hskip⟩ := not_or.mp (mt mem_cons.mpr hskip)
    obtain hnone | ⟨letters, rest, hletters, rfl, hlength⟩ := ih hskip h
    · exact .inl (not_mem_cons_of_ne_of_not_mem hc hnone)
    · rw [length_tail] at hlength
      exact .inr ⟨c :: letters, rest, not_mem_cons_of_ne_of_not_mem hc hletters, rfl,
        by rw [length_cons]; omega⟩
  | case3 => cases h
  | case4 c pattern hc =>
    exact .inr ⟨[c], pattern, not_mem_cons_of_ne_of_not_mem (Ne.symm hc) not_mem_nil, rfl,
      Nat.zero_lt_one⟩
  | case5 => cases h
  | case6 c pattern hc d value hd ih =>
    obtain hnone | ⟨letters, rest, hletters, hpattern, hlength⟩ :=
      ih (star_not_mem_getD c pattern) h
    · exact .inl (not_mem_cons_of_ne_of_not_mem (Ne.symm hc) hnone)
    · subst hpattern
      exact .inr ⟨c :: letters, rest, not_mem_cons_of_ne_of_not_mem (Ne.symm hc) hletters, rfl,
        Nat.succ_lt_succ hlength⟩

theorem comparePrefix_differs (hskip : '*' ∉ pattern.take skip)
    (h : comparePrefix skip pattern value = .differs) :
    ∃ letters c rest, '*' ∉ letters ++ [c] ∧ pattern = letters ++ c :: rest ∧
      ∃ d, value[letters.length]? = some d ∧ c ≠ d := by
  fun_induction comparePrefix skip pattern value with
  | case1 => cases h
  | case2 skip c pattern value ih =>
    obtain ⟨hc, hskip⟩ := not_or.mp (mt mem_cons.mpr hskip)
    obtain ⟨letters, e, rest, hletters, rfl, d, hd, hne⟩ := ih hskip h
    exact ⟨c :: letters, e, rest, not_mem_cons_of_ne_of_not_mem hc hletters, rfl, d,
      by simpa using hd, hne⟩
  | case3 => cases h
  | case4 => cases h
  | case5 c pattern hc d value hd =>
    exact ⟨[], c, pattern, not_mem_cons_of_ne_of_not_mem (Ne.symm hc) not_mem_nil, rfl, d, rfl, hd⟩
  | case6 c pattern hc d value hd ih =>
    obtain ⟨letters, e, rest, hletters, hpattern, d', hd', hne⟩ :=
      ih (star_not_mem_getD c pattern) h
    subst hpattern
    exact ⟨c :: letters, e, rest, not_mem_cons_of_ne_of_not_mem (Ne.symm hc) hletters, rfl, d',
      by simpa using hd', hne⟩

theorem comparePrefix_length (h : comparePrefix 0 pattern value = .atStar pi vi) :
    pi.length ≤ pattern.length := by
  obtain ⟨letters, rest, -, rfl, rfl, -⟩ := comparePrefix_atStar not_mem_nil h
  rw [length_append]
  exact Nat.le_add_left _ _

end comparePrefix

/-- The main loop of `Match` and what follows it. A start at `pp` begins before the end of the
pattern, so the test behind the step matters after a match only. -/
def matchLoop (pattern pp vp pi vi : List Char) (_h : pi.length ≤ pp.length) : Bool :=
  match pi, vi with
  | c :: pi, d :: vi =>
    if c = '*' then
      if pi = [] then true else matchLoop pattern pi vi pi (d :: vi) (Nat.le_refl _)
    else if c = d ∧ ¬(pi = [] ∧ vi ≠ []) then
      matchLoop pattern pp vp pi vi ((Nat.le_succ _).trans _h)
    else matchLoop pattern pp vp.tail pp vp (Nat.le_refl _)
  | pi, vi => if vi ≠ [] then pattern.getLast? = some '*' else pi.all (· = '*')
termination_by (pp.length, vp.length, vi.length)
decreasing_by
  · exact Prod.Lex.left _ _ _h
  · exact Prod.Lex.right _ (Prod.Lex.right _ (Nat.lt_succ_self _))
  · cases vp with
    | nil => exact Prod.Lex.right _ (Prod.Lex.right _ (Nat.zero_lt_succ _))
    | cons e vp => exact Prod.Lex.right _ (Prod.Lex.left _ _ (Nat.lt_succ_self _))

def wildcardMatch (value pattern : List Char) : Bool :=
  match h : comparePrefix 0 pattern value with
  | .differs => false
  | .whole => matchLoop pattern pattern value pattern value (Nat.le_refl _)
  | .atStar pi vi => matchLoop pattern pattern value pi vi (comparePrefix_length h)

theorem matchLoop_end {pp vp pi letters : List Char} (hletters : '*' ∉ letters)
    (hpp : pp = letters ++ pi) (hvp : vp <:+ letters ++ []) (h : Glob '*' ('*' :: pp) vp) :
    Glob '*' pi [] := by
  obtain ⟨rest, hrest, h⟩ := Glob.star_iff.mp h
  rw [append_nil] at hvp
  subst hpp
  have hle : letters.length ≤ rest.length := Glob.length_letters_le hletters h
  obtain rfl : rest = letters := (hrest.trans hvp).eq_of_length_le hle
  obtain ⟨rest', heq, h⟩ := (Glob.letters_append hletters).mp h
  obtain rfl : rest' = [] := self_eq_append_right.mp heq
  exact h

theorem matchLoop_iff {pattern pp vp pi vi letters : List Char} (h : pi.length ≤ pp.length)
    (hletters : '*' ∉ letters) (hpp : pp = letters ++ pi) (hvp : vp <:+ letters ++ vi)
    (hne : pp ≠ []) (hpi : pi = [] → vi = []) :
    matchLoop pattern pp vp pi vi h = true ↔ Glob '*' pi vi ∨ Glob '*' ('*' :: pp) vp := by
  fun_induction matchLoop pattern pp vp pi vi h generalizing letters with
  | case1 pp vp d vi h => exact iff_of_true rfl (.inl (Glob.of_stars (cons_ne_nil _ _) (by simp)))
  | case2 pp vp pi d vi hnil _ _ ih =>
    rw [ih not_mem_nil rfl (suffix_cons _ _) hnil fun h => absurd h hnil, ← Glob.star_cons]
    constructor
    · exact .inl
    · rintro (hglob | hlater)
      · exact hglob
      · subst hpp
        exact Glob.behind_letters hletters (hlater.of_suffix hvp)
  | case3 pp vp c pi d vi _ hc hd _ ih =>
    obtain ⟨rfl, hend⟩ := hd
    have hletters' : '*' ∉ letters ++ [c] := by
      rw [mem_append, mem_singleton]
      exact not_or.mpr ⟨hletters, Ne.symm hc⟩
    rw [Glob.letter_cons hc, ih hletters' (by simpa using hpp) (by simpa using hvp) hne
      fun hpi => not_not.mp fun hvi => hend ⟨hpi, hvi⟩]
    simp
  | case4 pp vp c pi d vi _ hc hd _ ih =>
    have hfails : ¬ Glob '*' (c :: pi) (d :: vi) := by
      rw [Glob.letter_cons hc]
      rintro ⟨rfl, hglob⟩
      obtain ⟨rfl, hvi⟩ := not_not.mp fun hend => hd ⟨rfl, hend⟩
      exact hvi (Glob.nil_iff.mp hglob)
    rw [ih not_mem_nil rfl (tail_suffix vp) hne fun h => absurd h hne, or_iff_right hfails]
    cases vp with
    | nil => simp
    | cons e vp => exact Glob.star_cons.symm
  | case5 pp vp pi vi _ hcases hvi =>
    cases pi with
    | nil => exact absurd (hpi rfl) hvi
    | cons c pi =>
      obtain ⟨d, vi, rfl⟩ := exists_cons_of_ne_nil hvi
      exact (hcases c pi d vi ‹_› rfl rfl HEq.rfl).elim
  | case6 pp vp pi vi _ hcases hvi =>
    obtain rfl := not_not.mp hvi
    rw [or_iff_left_of_imp (matchLoop_end hletters hpp hvp), Glob.iff_nil, all_eq_true]
    simp

/-- A text without a wildcard is taken for a longer value that begins and ends with it, and of
the characters in front of the first star only the first bytes are compared. -/
def Misread (pattern value : List Char) : Prop :=
  match comparePrefix 0 pattern value with
  | .differs => False
  | .whole => pattern ≠ [] ∧ pattern <:+ value ∧ value ≠ pattern
  | .atStar pi vi => ¬ pattern.takeWhile (· ≠ '*') <+: value ∧ Glob '*' pi vi

theorem matchLoop_star {pattern pp vp pi vi : List Char} (h : ('*' :: pi).length ≤ pp.length) :
    matchLoop pattern pp vp ('*' :: pi) vi h = true ↔ Glob '*' ('*' :: pi) vi := by
  rw [matchLoop.eq_def]
  cases vi with
  | nil => simp [Glob.iff_nil]
  | cons d vi =>
    by_cases hnil : pi = []
    · subst hnil
      simpa using Glob.of_stars (cons_ne_nil _ _) (by simp)
    · simp only [if_true, if_neg hnil]
      have hloop : matchLoop pattern pi vi pi (d :: vi) (Nat.le_refl _) = true ↔
          Glob '*' pi (d :: vi) ∨ Glob '*' ('*' :: pi) vi :=
        matchLoop_iff _ not_mem_nil rfl (suffix_cons _ _) hnil fun h => absurd h hnil
      rw [hloop, Glob.star_cons]

instance decidableMisread (pattern value : List Char) : Decidable (Misread pattern value) :=
  match h : comparePrefix 0 pattern value with
  | .differs => isFalse (by simp [Misread, h])
  | .whole => decidable_of_iff (pattern ≠ [] ∧ pattern <:+ value ∧ value ≠ pattern)
      (by simp [Misread, h])
  | .atStar pi vi => decidable_of_iff (¬ pattern.takeWhile (· ≠ '*') <+: value ∧ Glob '*' pi vi)
      (by simp [Misread, h])

theorem takeWhile_letters {letters rest : List Char} (hletters : '*' ∉ letters) :
    (letters ++ '*' :: rest).takeWhile (· ≠ '*') = letters := by
  have hall : ∀ c ∈ letters, decide (c ≠ '*') = true := by
    intro c hc
    exact decide_eq_true fun heq => hletters (heq ▸ hc)
  rw [takeWhile_append_of_pos hall]
  simp

theorem wildcardMatch_iff (value pattern : List Char) :
    wildcardMatch value pattern = true ↔ Glob '*' pattern value ∨ Misread pattern value := by
  unfold wildcardMatch
  split
  · next h =>
    obtain ⟨letters, c, rest, hletters, rfl, d, hd, hne⟩ := comparePrefix_differs not_mem_nil h
    have hglob : ¬ Glob '*' (letters ++ c :: rest) value := by
      rw [append_cons, Glob.letters_append hletters]
      rintro ⟨rest', rfl, -⟩
      simp at hd
      exact hne hd
    simp [Misread, h, hglob]
  · next h =>
    have hmis : Misread pattern value ↔ pattern ≠ [] ∧ pattern <:+ value ∧ value ≠ pattern := by
      simp [Misread, h]
    by_cases hnil : pattern = []
    · subst hnil
      simp [hmis, matchLoop]
    · have hloop : matchLoop pattern pattern value pattern value (Nat.le_refl _) = true ↔
          Glob '*' pattern value ∨ Glob '*' ('*' :: pattern) value :=
        matchLoop_iff _ not_mem_nil rfl suffix_rfl hnil fun h => absurd h hnil
      rw [hloop, or_iff_right_of_imp Glob.star_of, hmis]
      obtain hnone | ⟨letters, rest, hletters, rfl, hlength⟩ := comparePrefix_whole not_mem_nil h
      · simp only [Glob.star_iff, Glob.letters_iff hnone]
        constructor
        · rintro ⟨rest, hrest, rfl⟩
          exact (eq_or_ne value rest).imp_right fun hne => ⟨hnil, hrest, hne⟩
        · rintro (rfl | ⟨-, hrest, -⟩)
          · exact ⟨_, suffix_rfl, rfl⟩
          · exact ⟨_, hrest, rfl⟩
      · have hshort : ∀ rest', rest' <:+ value → ¬ Glob '*' (letters ++ rest) rest' := by
          intro rest' hrest' hglob
          have := Glob.length_letters_le hletters hglob
          have := hrest'.length_le
          omega
        refine iff_of_false ?_ ?_
        · rw [Glob.star_iff]
          rintro ⟨rest', hrest', hglob⟩
          exact hshort rest' hrest' hglob
        · rintro (hglob | ⟨-, hsuffix, -⟩)
          · exact hshort value suffix_rfl hglob
          · have := hsuffix.length_le
            rw [length_append] at this
            omega
  · next pi vi h =>
    have hmis : Misread pattern value ↔
        ¬ pattern.takeWhile (· ≠ '*') <+: value ∧ Glob '*' pi vi := by
      simp [Misread, h]
    obtain ⟨letters, rest, hletters, hpattern, rfl, rfl⟩ := comparePrefix_atStar not_mem_nil h
    rw [matchLoop_star, hmis, hpattern, takeWhile_letters hletters, Glob.letters_append hletters]
    constructor
    · intro hglob
      by_cases hfront : letters <+: value
      · obtain ⟨value', rfl⟩ := hfront
        exact .inl ⟨value', rfl, by simpa using hglob⟩
      · exact .inr ⟨hfront, hglob⟩
    · rintro (⟨value', rfl, hglob⟩ | ⟨-, hglob⟩)
      · simpa using hglob
      · exact hglob

/-- The text is UTF-8; `skip` bytes are left of a character. -/
def validRunes : Nat → List Char → Bool
  | _, [] => true
  | skip + 1, _c :: s => validRunes skip s
  | 0, c :: s =>
    match runeTail c s with
    | some skip => validRunes skip s
    | none => false

theorem minimizeLoop_eq {skip : Nat} {last : Bool} {pattern : List Char}
    (hvalid : validRunes skip pattern = true) (hskip : '*' ∉ pattern.take skip)
    (hlast : skip = 0 ∨ last = false) :
    minimizeLoop skip last pattern = Glob.squeeze '*' last pattern := by
  fun_induction minimizeLoop skip last pattern with
  | case1 => rfl
  | case2 skip last c pattern ih =>
    obtain ⟨hc, hskip⟩ := not_or.mp (mt mem_cons.mpr hskip)
    obtain rfl := hlast.resolve_left (Nat.succ_ne_zero skip)
    rw [Glob.squeeze, if_neg (Ne.symm hc), ih hvalid hskip (.inr rfl)]
  | case3 last c pattern hc ih =>
    obtain ⟨rfl, hlast⟩ := hc
    obtain rfl : last = true := hlast
    exact ih (by simpa [validRunes, runeTail, runeHead] using hvalid) not_mem_nil (.inl rfl)
  | case4 last c pattern hc skip htail ih =>
    rw [validRunes, htail] at hvalid
    by_cases hstar : c = '*'
    · subst hstar
      obtain rfl : skip = 0 := by simpa [runeTail, runeHead] using htail.symm
      have hlast' : last = false := by simpa using hc
      rw [ih hvalid not_mem_nil (.inl rfl)]
      simp [Glob.squeeze, hlast']
    · rw [ih hvalid (runeTail_ne_star htail) (.inr (decide_eq_false hstar)),
        decide_eq_false hstar, Glob.squeeze, if_neg hstar]
  | case5 last c pattern hc htail ih =>
    rw [validRunes, htail] at hvalid
    cases hvalid

theorem minimize_eq {pattern : List Char} (hvalid : validRunes 0 pattern = true) :
    minimize pattern = Glob.squeeze '*' false pattern :=
  minimizeLoop_eq hvalid not_mem_nil (.inl rfl)

theorem glob_minimize {pattern value : List Char} (hvalid : validRunes 0 pattern = true) :
    Glob '*' (minimize pattern) value ↔ Glob '*' pattern value := by
  rw [minimize_eq hvalid, Glob.squeeze_iff]

end Zabbix.Wildcard
