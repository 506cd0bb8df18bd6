import Mathlib.Data.List.Infix
import Mathlib.Data.List.TakeWhile
import Zabbix.Interval.Validate

/-!
# Validation agrees with use

Without user macros a custom interval is a flexible interval exactly when it starts with a digit, for
the one function as for the other; what differs is only how the text is cut.
-/

namespace Zabbix.Interval

open List Option Zabbix.Expr

variable {text : List Char} {simple length : ℕ}
variable {value i k : ℕ} {c : Char} {s : List Char} {found : Bool} {custom : CustomInterval}
  {delim : Option ℕ}

theorem mem_take_digitsLen (text : List Char) (len : ℤ) :
    ∀ c ∈ text.take (digitsLen text len), isdigit c = true := by
  intro c hc
  have hfront : (text.take len.toNat).takeWhile isdigit = text.take (digitsLen text len) :=
    prefix_iff_eq_take.mp (( takeWhile_prefix isdigit).trans ( take_prefix _ text))
  rw [← hfront] at hc
  exact mem_takeWhile_imp hc

theorem mem_take_of_timeSuffix (h : zbxIsTimeSuffix text length = some value) :
    ∀ c ∈ text.take length, isdigit c = true ∨ suffixFactor c ≠ none := by
  unfold zbxIsTimeSuffix at h
  obtain ⟨-, h⟩ := ite_none_left_eq_some.mp h
  obtain ⟨read, -, h⟩ := bind_eq_some_iff.mp h
  obtain ⟨⟨factor, rest, len⟩, hsuffix, h⟩ := bind_eq_some_iff.mp h
  obtain ⟨hend, -⟩ := ite_none_left_eq_some.mp h
  obtain ⟨hrest, hlen⟩ := not_or.mp hend
  have hdigits := mem_take_digitsLen text length
  generalize digitsLen text length = n at hsuffix hdigits
  intro c hc
  by_cases hmem : c ∈ text.take n
  · exact .inl (hdigits c hmem)
  · cases hdrop : text.drop n with
    | nil =>
      have htext : text.take n = text := by
        rw [← append_nil (text.take n), ← hdrop, take_append_drop]
      exact absurd (htext.symm ▸ mem_of_mem_take hc) hmem
    | cons last tail =>
      by_cases hlt : n < length
      · -- the character behind the digits is the suffix, and it is the last one
        rw [hdrop, if_pos ⟨cons_ne_nil last tail, Nat.sub_pos_of_lt hlt⟩] at hsuffix
        obtain ⟨factor', hfactor, heq⟩ := map_eq_some_iff.mp hsuffix
        obtain ⟨-, rfl, rfl⟩ : factor' = factor ∧ tail = rest ∧ length - n - 1 = len := by
          simpa using heq
        have hstop : c ∈ text.take n ++ [last] := by
          by_cases hlength : length = zbxLengthUnlimited
          · have htail : tail = [] := by
              by_contra hne
              exact hrest ⟨hlength, hne⟩
            rw [htail] at hdrop
            rw [← hdrop, take_append_drop]
            exact mem_of_mem_take hc
          · have hone : length = n + 1 := by
              by_contra hne
              exact hlen ⟨hlength, by omega⟩
            rwa [hone, take_add, hdrop] at hc
        rw [mem_singleton.mp ((mem_append.mp hstop).resolve_left hmem)]
        exact .inr fun hnone => nomatch hnone.symm.trans hfactor
      · rw [← Nat.min_eq_left (Nat.le_of_not_lt hlt), ← take_take] at hc
        exact absurd (mem_of_mem_take hc) hmem

theorem isdigit_of_timeSuffix (h : zbxIsTimeSuffix text length = some value) :
    isdigit (charAt text) = true := by
  unfold zbxIsTimeSuffix at h
  obtain ⟨hnot, -⟩ := ite_none_left_eq_some.mp h
  exact (Bool.not_eq_false _).mp fun hfalse => hnot (.inr hfalse)

theorem lengthTo_strchr (text : List Char) (c : Char) :
    lengthTo text (strchr text c) = (text.takeWhile (· ≠ c)).length := by
  induction text with
  | nil => rfl
  | cons a text ih =>
    rw [strchr, idxOf?_cons, takeWhile_cons]
    by_cases h : a = c
    · simp [h, lengthTo]
    · rw [strchr] at ih
      cases hidx : text.idxOf? c with
      | none | some i => simpa [h, lengthTo, hidx] using ih

def behind (text : List Char) (delim : Option ℕ) : Option (List Char) :=
  delim.map fun i => text.drop (i + 1)

theorem behind_strchr (text : List Char) (c : Char) :
    behind text (strchr text c) = (text.dropWhile (· ≠ c)).tail? := by
  induction text with
  | nil => rfl
  | cons a text ih =>
    rw [strchr, idxOf?_cons, dropWhile_cons]
    rw [strchr] at ih
    by_cases h : a = c
    · simp [h, behind]
    · cases hidx : text.idxOf? c with
      | none | some i => simpa [h, behind, hidx] using ih

theorem strchr_spec (h : strchr text c = some i) :
    i < text.length ∧ charAt (text.drop i) = c ∧ c ∉ text.take i := by
  obtain ⟨hlt, heq, hbefore⟩ := idxOf?_eq_some_iff.mp h
  refine ⟨hlt, ?_, fun hmem => ?_⟩
  · rw [charAt, headD_eq_head?_getD, List.head?_drop, List.getElem?_eq_getElem hlt, heq]
    rfl
  · obtain ⟨j, hj, rfl⟩ := getElem_of_mem hmem
    rw [length_take] at hj
    refine hbefore j (by omega) ?_
    rw [getElem_take]

theorem semicolon_behind (hi : strchr text '/' = some i) (h : zbxIsTimeSuffix text i = some value) :
    i < lengthTo text (strchr text ';') := by
  cases hdelim : strchr text ';' with
  | none => exact (strchr_spec hi).1
  | some j =>
    obtain ⟨hj, hchar, -⟩ := strchr_spec hdelim
    show i < j
    by_contra hle
    obtain heq | hlt := Nat.eq_or_lt_of_le (Nat.le_of_not_lt hle)
    · rw [heq, (strchr_spec hi).2.1] at hchar
      exact absurd hchar (by decide)
    · have hmem : ';' ∈ text.take i := by
        rw [charAt, headD_eq_head?_getD, List.head?_drop, List.getElem?_eq_getElem hj] at hchar
        rw [← show text[j] = ';' from hchar]
        rw [mem_take_iff_getElem]
        exact ⟨j, by omega, rfl⟩
      obtain hdigit | hsuffix := mem_take_of_timeSuffix h ';' hmem
      · exact absurd hdigit (by decide)
      · exact absurd (by decide : suffixFactor ';' = none) hsuffix

def seenFlexible (text : List Char) : Option FlexibleInterval :=
  ((parseSimpleInterval text '/').filter fun (len, _) => charAt (text.drop len) = '/').bind
    fun (len, delay) =>
      (timePeriodParse (text.drop (len + 1)) (lengthTo (text.drop (len + 1))
        (strchr (text.drop (len + 1)) ';'))).map fun period => ⟨period, delay⟩

variable (h : k ≤ lengthTo text (strchr text c))

include h

theorem ne_of_mem_take : ∀ a ∈ text.take k, decide (a ≠ c) = true := by
  intro a ha
  rw [lengthTo_strchr] at h
  have hfront := prefix_iff_eq_take.mp ( takeWhile_prefix (l := text) (· ≠ c))
  refine mem_takeWhile_imp (p := fun a => decide (a ≠ c)) (l := text) ?_
  rw [hfront]
  exact take_subset_take_left text h ha

theorem behind_drop :
    behind (text.drop k) (strchr (text.drop k) c) = behind text (strchr text c) := by
  rw [behind_strchr, behind_strchr]
  have hsplit := @List.dropWhile_append_of_pos _ _ _ (text.drop k) (ne_of_mem_take h)
  rw [take_append_drop] at hsplit
  rw [hsplit]

theorem lengthTo_drop :
    lengthTo (text.drop k) (strchr (text.drop k) c) = lengthTo text (strchr text c) - k := by
  have hsplit := @List.takeWhile_append_of_pos _ _ _ (text.drop k) (ne_of_mem_take h)
  rw [take_append_drop] at hsplit
  rw [lengthTo_strchr] at h ⊢
  rw [lengthTo_strchr]
  rw [hsplit, length_append, length_take]
  have hle : k ≤ text.length := h.trans (takeWhile_sublist _).length_le
  omega

omit h

theorem flexible_agrees (text : List Char) :
    seenFlexible text = flexibleIntervalParse text (lengthTo text (strchr text ';')) := by
  have hn : ((text.take (lengthTo text (strchr text ';'))).takeWhile (· ≠ '/')).length =
      min (lengthTo text (strchr text ';')) (lengthTo text (strchr text '/')) := by
    rw [← take_takeWhile, length_take, lengthTo_strchr text '/']
  unfold seenFlexible flexibleIntervalParse parseSimpleInterval
  dsimp only
  rw [hn]
  cases hslash : strchr text '/' with
  | none =>
    have hend : charAt (text.drop (lengthTo text none)) ≠ '/' := by
      show charAt (text.drop text.length) ≠ '/'
      rw [drop_length]
      decide
    have hle : lengthTo text (strchr text ';') ≤ lengthTo text none := by
      rw [lengthTo_strchr]
      exact (takeWhile_sublist _).length_le
    rw [Nat.min_eq_left hle, Nat.sub_self]
    cases zbxIsTimeSuffix text ((none : Option ℕ).getD zbxLengthUnlimited) with
    | none => cases zbxIsTimeSuffix text (lengthTo text (strchr text ';')) <;> simp
    | some delay =>
      cases zbxIsTimeSuffix text (lengthTo text (strchr text ';')) <;>
        simp [Option.filter, hend]
  | some i =>
    obtain ⟨-, hchar, -⟩ := strchr_spec hslash
    have hlen : lengthTo text (some i) = i := rfl
    rw [hlen]
    show (((zbxIsTimeSuffix text i).map fun value => (i, value)).filter _).bind _ = _
    by_cases hlt : i < lengthTo text (strchr text ';')
    · rw [Nat.min_eq_right hlt.le]
      have hperiod := lengthTo_drop (c := ';') (Nat.succ_le_of_lt hlt)
      have hmore : ¬ (lengthTo text (strchr text ';') - i = 0 ∨ charAt (text.drop i) ≠ '/') := by
        rintro (hzero | hne)
        · omega
        · exact hne hchar
      cases zbxIsTimeSuffix text i with
      | none => rfl
      | some delay =>
        rw [map_some, filter_some_pos (by simpa using hchar), bind_some, bind_some]
        show (timePeriodParse (text.drop (i + 1)) _).map _ = _
        rw [if_neg hmore, hperiod, tail_drop, Nat.sub_sub]
    · have hnone : zbxIsTimeSuffix text i = none := by
        cases hsuffix : zbxIsTimeSuffix text i with
        | none => rfl
        | some delay => exact absurd (semicolon_behind hslash hsuffix) hlt
      rw [hnone, Nat.min_eq_left (Nat.le_of_not_lt hlt), Nat.sub_self]
      cases zbxIsTimeSuffix text (lengthTo text (strchr text ';')) <;> simp

theorem schedulerIntervalParse_digit (h : isdigit (charAt text) = true) (len : ℕ) :
    schedulerIntervalParse text len = none := by
  unfold schedulerIntervalParse
  split
  · rfl
  · next hlen =>
    have hlen' : (len : ℤ) ≠ 0 := Int.natCast_ne_zero.mpr hlen
    rw [schedulerIntervalLoop, if_neg hlen']
    have hstep : schedulerIntervalStep .empty text len = none := by
      unfold schedulerIntervalStep
      dsimp only
      split
      all_goals first
        | rfl
        | next hchar =>
          rw [hchar] at h
          exact absurd h (by decide)
    rw [hstep]
    rfl

def NoUserMacro (text : List Char) : Prop := ∀ s, s <:+ text → parseUserMacro s = none

theorem NoUserMacro.suffix (h : NoUserMacro text) (hs : s <:+ text) :
    NoUserMacro s := fun s' hs' => h s' (hs'.trans hs)

theorem NoUserMacro.parse (h : NoUserMacro text) : parseUserMacro text = none := h text suffix_rfl

def usedCustom (simple : ℕ) (text : List Char) : Option (Option (List Char)) :=
  let delim := strchr text ';'
  if isdigit (charAt text) then
    (flexibleIntervalParse text (lengthTo text delim)).bind fun interval =>
      if simple = 0 ∧ interval.delay = 0 then none else some (behind text delim)
  else (schedulerIntervalParse text (lengthTo text delim)).map fun _ => behind text delim

theorem parseSimpleInterval_slash {len : ℕ} (h : parseSimpleInterval text '/' = some (len, value))
    (hchar : charAt (text.drop len) = '/') :
    len < lengthTo text (strchr text ';') ∧ isdigit (charAt text) = true := by
  obtain ⟨value', hsuffix, heq⟩ := map_eq_some_iff.mp h
  refine ⟨?_, isdigit_of_timeSuffix hsuffix⟩
  obtain ⟨rfl, rfl⟩ : lengthTo text (strchr text '/') = len ∧ value' = value := by simpa using heq
  cases hslash : strchr text '/' with
  | none =>
    rw [hslash] at hchar
    rw [show text.drop (lengthTo text none) = [] from drop_length] at hchar
    exact absurd hchar (by decide)
  | some i =>
    rw [hslash] at hsuffix
    exact semicolon_behind hslash hsuffix

theorem validateCustom_eq (simple : ℕ) (hplain : NoUserMacro text) :
    (validateCustom simple text).toOption.map (fun (text, delim) => behind text delim) =
      usedCustom simple text := by
  unfold validateCustom usedCustom
  dsimp only
  rw [← flexible_agrees, hplain.parse, map_none, none_or, seenFlexible]
  cases hfirst : (parseSimpleInterval text '/').filter
    fun (len, _) => charAt (text.drop len) = '/' with
  | none =>
    cases hdigit : isdigit (charAt text) with
    | true =>
      rw [schedulerIntervalParse_digit hdigit]
      rfl
    | false => cases schedulerIntervalParse text (lengthTo text (strchr text ';')) <;> rfl
  | some first =>
    obtain ⟨len, value⟩ := first
    obtain ⟨hparse, hchar⟩ := filter_eq_some_iff.mp hfirst
    obtain ⟨hlen, hdigit⟩ := parseSimpleInterval_slash hparse (of_decide_eq_true hchar)
    have hplain' : parseUserMacro (text.drop (len + 1)) = none := hplain _ (drop_suffix _ text)
    have hbehind := behind_drop (Nat.succ_le_of_lt hlen)
    rw [hdigit, if_pos rfl, bind_some]
    dsimp only
    rw [hplain', filter_none]
    by_cases hzero : value = 0 ∧ simple = 0
    · rw [if_pos hzero]
      cases timePeriodParse (text.drop (len + 1)) (lengthTo (text.drop (len + 1))
        (strchr (text.drop (len + 1)) ';')) with
      | none => rfl
      | some period =>
        rw [map_some, bind_some, if_pos hzero.symm]
        rfl
    · rw [if_neg hzero]
      cases timePeriodParse (text.drop (len + 1)) (lengthTo (text.drop (len + 1))
        (strchr (text.drop (len + 1)) ';')) with
      | none => rfl
      | some period =>
        rw [map_some, bind_some, if_neg fun h => hzero h.symm, ← hbehind]
        rfl

def SameCustom (found : Bool) (custom : CustomInterval) : Prop :=
  found = false ↔ custom.flexible = [] ∧ custom.scheduling = []

theorem finish_agrees (hsame : SameCustom found custom) (text : List Char) (delim : Option ℕ) :
    (validateFinish simple found).toOption =
      (preprocFinish simple custom text delim).toOption.map Prod.fst := by
  unfold validateFinish preprocFinish
  have hiff : (found = false ∧ simple = 0) ∨ secPerDay < simple ↔
      (custom.flexible = [] ∧ custom.scheduling = [] ∧ simple = 0) ∨ secPerDay < simple := by
    rw [show found = false ↔ _ from hsame, and_assoc]
  by_cases h : (found = false ∧ simple = 0) ∨ secPerDay < simple
  · rw [if_pos h, if_pos (hiff.mp h)]
    rfl
  · rw [if_neg h, if_neg fun h' => h (hiff.mpr h')]
    rfl

theorem sameCustom_flexible (interval : FlexibleInterval) (custom : CustomInterval) :
    SameCustom true { custom with flexible := interval :: custom.flexible } :=
  ⟨nofun, fun h => nomatch h.1⟩

theorem sameCustom_scheduling (interval : SchedulerInterval) (custom : CustomInterval) :
    SameCustom true { custom with scheduling := interval :: custom.scheduling } :=
  ⟨nofun, fun h => nomatch h.2⟩

theorem preprocLoop_succ (simple fuel : ℕ) (custom : CustomInterval)
    (hbehind : behind text delim = some s) :
    (usedCustom simple s = none ∧
      (preprocLoop simple (fuel + 1) custom text delim).toOption = none) ∨
    (usedCustom simple s = some (behind s (strchr s ';')) ∧ ∃ custom', SameCustom true custom' ∧
      preprocLoop simple (fuel + 1) custom text delim =
        preprocLoop simple fuel custom' s (strchr s ';')) := by
  obtain ⟨i, rfl, rfl⟩ := map_eq_some_iff.mp hbehind
  unfold usedCustom
  rw [preprocLoop]
  dsimp only
  split
  · cases flexibleIntervalParse (text.drop (i + 1)) (lengthTo (text.drop (i + 1))
      (strchr (text.drop (i + 1)) ';')) with
    | none => exact .inl ⟨rfl, rfl⟩
    | some interval =>
      rw [bind_some]
      dsimp only
      split
      · exact .inl ⟨rfl, rfl⟩
      · exact .inr ⟨rfl, _, sameCustom_flexible interval custom, rfl⟩
  · cases schedulerIntervalParse (text.drop (i + 1)) (lengthTo (text.drop (i + 1))
      (strchr (text.drop (i + 1)) ';')) with
    | none => exact .inl ⟨rfl, rfl⟩
    | some interval => exact .inr ⟨rfl, _, sameCustom_scheduling interval custom, rfl⟩

theorem loops_agree (fuel : ℕ) (hsame : SameCustom found custom) {text' : List Char}
    {delim' : Option ℕ} (hbehind : behind text delim = behind text' delim')
    (hplain : ∀ s, behind text delim = some s → NoUserMacro s) :
    (validateLoop simple fuel found text delim).toOption =
      (preprocLoop simple fuel custom text' delim').toOption.map Prod.fst := by
  induction fuel generalizing found custom text delim text' delim' with
  | zero => exact finish_agrees hsame text' delim'
  | succ fuel ih =>
    cases delim with
    | none =>
      obtain rfl : delim' = none := map_eq_none_iff.mp hbehind.symm
      exact finish_agrees hsame text' none
    | some i =>
      have hs : behind text' delim' = some (text.drop (i + 1)) := hbehind.symm
      have hnone := hplain (text.drop (i + 1)) rfl
      have heq := validateCustom_eq simple hnone
      rw [validateLoop]
      obtain ⟨hused, hfail⟩ | ⟨hused, custom', hsame', hloop⟩ :=
        preprocLoop_succ simple fuel custom hs
      · rw [hfail]
        rw [hused] at heq
        cases hvalidate : validateCustom simple (text.drop (i + 1)) with
        | error error => rfl
        | ok next =>
          rw [hvalidate] at heq
          exact nomatch heq
      · rw [hloop]
        rw [hused] at heq
        cases hvalidate : validateCustom simple (text.drop (i + 1)) with
        | error error =>
          rw [hvalidate] at heq
          exact nomatch heq
        | ok next =>
          rw [hvalidate] at heq
          have heq' : behind next.1 next.2 =
              behind (text.drop (i + 1)) (strchr (text.drop (i + 1)) ';') := Option.some.inj heq
          refine ih hsame' heq' fun s hs' => ?_
          rw [heq'] at hs'
          obtain ⟨j, -, rfl⟩ := map_eq_some_iff.mp hs'
          exact hnone.suffix (drop_suffix _ _)

/-- Without user macros an update interval is valid exactly when it can be used, and then both
functions find the same simple interval. -/
theorem validate_interval_agrees (hplain : NoUserMacro text) :
    (zbxValidateInterval text).toOption = (zbxIntervalPreproc text).toOption.map Prod.fst := by
  unfold zbxValidateInterval zbxIntervalPreproc parseSimpleInterval
  rw [hplain.parse, filter_none]
  dsimp only
  cases hsuffix : zbxIsTimeSuffix text ((strchr text ';').getD zbxLengthUnlimited) with
  | none => rfl
  | some simple =>
    rw [map_some]
    dsimp only
    have hdelim : delimAt text (lengthTo text (strchr text ';')) = strchr text ';' := by
      unfold delimAt
      cases hstrchr : strchr text ';' with
      | none =>
        rw [if_pos]
        exact drop_length
      | some i =>
        rw [if_neg]
        · rfl
        · intro hnil
          have hlt := (strchr_spec hstrchr).1
          exact absurd (drop_eq_nil_iff.mp hnil) (Nat.not_le_of_lt hlt)
    rw [hdelim]
    refine loops_agree (text.length + 1) ⟨fun _ => ⟨rfl, rfl⟩, fun _ => rfl⟩ rfl fun s hs => ?_
    obtain ⟨i, -, rfl⟩ := map_eq_some_iff.mp hs
    exact hplain.suffix (drop_suffix _ _)

theorem validate_interval_agrees_custom :
    (zbxValidateInterval "30s;wd1-5h9;10m/6-7,09:00-18:00".toList).toOption = some 30 ∧
      (zbxIntervalPreproc "30s;wd1-5h9;10m/6-7,09:00-18:00".toList).toOption.map Prod.fst =
        some 30 := by
  have hplain : NoUserMacro "30s;wd1-5h9;10m/6-7,09:00-18:00".toList := by
    have htails : ∀ s ∈ "30s;wd1-5h9;10m/6-7,09:00-18:00".toList.tails, parseUserMacro s = none := by
      decide +kernel
    exact fun s hs => htails s ((mem_tails _ _).mpr hs)
  rw [← validate_interval_agrees hplain]
  decide +kernel

end Zabbix.Interval
