import Zabbix.Agent.ItemKeys
import Zabbix.Agent.Wildcard

/-!
# Texts of item keys in the agent

`MakeKey` of `itemutil/key.go` and what `ParseKey` makes of its text. A text is the list of its
bytes.
-/

namespace Zabbix.Itemutil

open List Zabbix.Expr Zabbix.Wildcard

/-- What `WriteRune` writes for the characters that `range` gives; `skip` bytes are left of one. -/
def rangeRunes : ℕ → List Char → List Char
  | _, [] => []
  | skip + 1, b :: param => b :: rangeRunes skip param
  | 0, b :: param =>
    match runeTail b param with
    | none => runeError ++ rangeRunes 0 param
    | some skip => b :: rangeRunes skip param

/-- `mustQuote`; a character below 128 is a byte of its own wherever it stands. -/
def mustQuote (param : List Char) : Bool :=
  (param.head? = some '"' || param.head? = some ' ') || param.any fun b => b = ',' || b = ']'

def escapeQuotes (param : List Char) : List Char :=
  param.flatMap fun b => if b = '"' then ['\\', b] else [b]

def quoteParam (param : List Char) : List Char :=
  '"' :: (escapeQuotes (rangeRunes 0 param) ++ ['"'])

def writeParam (param : List Char) : List Char :=
  if mustQuote param then quoteParam param else param

def writeMore (params : List (List Char)) : List Char :=
  (params.flatMap fun p => ',' :: writeParam p) ++ [']']

def makeKey (key : List Char) : List (List Char) → List Char
  | [] => key
  | p :: params => key ++ '[' :: (writeParam p ++ writeMore params)

/-- A quoted parameter is UTF-8 and does not end with a backslash, any other one does not start with
a bracket. -/
def Writable (param : List Char) : Prop :=
  if mustQuote param then rangeRunes 0 param = param ∧ param.getLast? ≠ some '\\'
  else param.head? ≠ some '['

variable {key p q v body text left rest : List Char} {ps params : List (List Char)} {last : Char}

theorem count_rangeRunes (skip : ℕ) (p : List Char) :
    (rangeRunes skip p).count '"' = p.count '"' := by
  induction p generalizing skip with
  | nil => cases skip <;> rfl
  | cons b p ih =>
    cases skip with
    | succ skip => rw [rangeRunes, List.count_cons, List.count_cons, ih]
    | zero =>
      rw [rangeRunes]
      split
      · next hnone =>
        have hb : b ≠ '"' := by
          rintro rfl
          simp [runeTail, runeHead] at hnone
        rw [count_append, ih, count_cons_of_ne hb]
        exact Nat.zero_add _
      · rw [List.count_cons, List.count_cons, ih]

theorem escapeQuotes_cons {c : Char} (h : c ≠ '"') (p : List Char) :
    escapeQuotes (c :: p) = c :: escapeQuotes p := by
  simp [escapeQuotes, h]

theorem head_escapeQuotes (p : List Char) (h : text.head? ≠ some '"') :
    (escapeQuotes p ++ text).head? ≠ some '"' := by
  cases p with
  | nil => exact h
  | cons c p =>
    by_cases hc : c = '"'
    · subst hc
      exact nofun
    · rw [escapeQuotes_cons hc]
      exact fun heq => hc (Option.some.inj heq)

theorem unescape_of_head {c : Char} (h : text.head? ≠ some '"') :
    unescape (c :: text) = c :: unescape text := by
  by_cases hc : c = '\\'
  · subst hc
    cases text with
    | nil => rfl
    | cons d text => exact unescape_backslash (fun hd => h (congrArg some hd)) text
  · exact unescape_cons hc text

theorem unescape_escapeQuotes (p : List Char) (h : text.head? ≠ some '"') :
    unescape (escapeQuotes p ++ text) = p ++ unescape text := by
  induction p with
  | nil => rfl
  | cons c p ih =>
    by_cases hc : c = '"'
    · subst hc
      exact congrArg ('"' :: ·) ih
    · rw [escapeQuotes_cons hc, cons_append, unescape_of_head (head_escapeQuotes p h), ih]
      rfl

theorem quotable_escapeQuotes (h : p.getLastD last ≠ '\\') : Quotable last (escapeQuotes p) := by
  induction p generalizing last with
  | nil => exact h
  | cons c p ih =>
    rw [getLastD_cons] at h
    by_cases hc : c = '"'
    · subst hc
      exact ⟨nofun, fun _ => rfl, ih h⟩
    · rw [escapeQuotes_cons hc]
      exact ⟨fun heq => absurd heq hc, ih h⟩

theorem exists_of_escaped (h : Quotable last body)
    (heq : '\\' :: '"' :: text = body ++ '"' :: rest) :
    ∃ body', body = '\\' :: '"' :: body' ∧ Quotable '"' body' ∧ text = body' ++ '"' :: rest := by
  rcases body with - | ⟨c, - | ⟨d, body'⟩⟩
  · cases heq
  · cases heq
    exact absurd rfl h.2
  · cases heq
    exact ⟨body', rfl, h.2.2, rfl⟩

theorem exists_of_backslash (h : Quotable last body)
    (heq : escapeQuotes q ++ '\\' :: '"' :: text = body ++ '"' :: rest) :
    ∃ body', body = escapeQuotes q ++ '\\' :: '"' :: body' := by
  induction q generalizing last body with
  | nil =>
    obtain ⟨body', hbody, -⟩ := exists_of_escaped h heq
    exact ⟨body', hbody⟩
  | cons c q ih =>
    by_cases hc : c = '"'
    · subst hc
      obtain ⟨body', rfl, hbody, hrest⟩ := exists_of_escaped h heq
      obtain ⟨tail, rfl⟩ := ih hbody hrest
      exact ⟨tail, rfl⟩
    · rw [escapeQuotes_cons hc] at heq ⊢
      cases body with
      | nil => exact absurd (List.cons.inj heq).1 hc
      | cons d body =>
        obtain ⟨rfl, hrest⟩ := List.cons.inj heq
        obtain ⟨tail, rfl⟩ := ih h.2 hrest
        exact ⟨tail, rfl⟩

theorem parseParam_escapeQuotes (h : p.getLastD '"' ≠ '\\') (hleft : Separated left) :
    parseParam ('"' :: (escapeQuotes p ++ '"' :: left)) = .ok (p, left) := by
  have hvalue : unescape (escapeQuotes p) = p := by
    simpa [unescape] using @unescape_escapeQuotes [] p (by simp)
  simpa [Element.text, Element.value, spaces, hvalue] using
    parseParam_element (.quoted 0 (escapeQuotes p) 0 (quotable_escapeQuotes h)) hleft

theorem parseParam_plain (hquote : mustQuote p = false) (hopen : p.head? ≠ some '[')
    (hleft : Separated left) : parseParam (p ++ left) = .ok (p, left) := by
  simp only [mustQuote, Bool.or_eq_false_iff, decide_eq_false_iff_not, any_eq_false] at hquote
  have htext : PlainText p := by
    refine ⟨fun c hc => by simpa [isPlain] using hquote.2 c hc, fun c hc => ⟨?_, ?_, ?_⟩⟩ <;>
      rintro rfl
    · exact hquote.1.2 hc
    · exact hquote.1.1 hc
    · exact hopen hc
  exact parseParam_element (.plain 0 p htext) hleft

theorem parseParam_writable (h : Writable p) (hleft : Separated left) :
    parseParam (writeParam p ++ left) = .ok (p, left) := by
  unfold Writable at h
  unfold writeParam
  cases hquote : mustQuote p with
  | false =>
    rw [hquote] at h
    exact parseParam_plain hquote h hleft
  | true =>
    rw [hquote] at h
    obtain ⟨hvalid, hlast⟩ : rangeRunes 0 p = p ∧ p.getLast? ≠ some '\\' := h
    have hlast : p.getLastD '"' ≠ '\\' := by
      rw [getLastD_eq_getLast?]
      cases hp : p.getLast? with
      | none => decide
      | some c => exact fun hc => hlast (hp.trans (congrArg some hc))
    simpa [quoteParam, hvalid] using parseParam_escapeQuotes hlast hleft

theorem parseParam_backslash
    (h : parseParam ('"' :: (escapeQuotes (q ++ ['\\']) ++ '"' :: text)) = .ok (v, left))
    (hleft : Separated left) : q.count '"' < v.count '"' := by
  have hsplit : escapeQuotes (q ++ ['\\']) ++ '"' :: text =
      escapeQuotes q ++ '\\' :: '"' :: text := by simp [escapeQuotes]
  rw [hsplit] at h
  obtain ⟨⟨param, left'⟩, hquoted, heq⟩ := map_eq_ok (show Except.map _ _ = _ from h)
  obtain ⟨rfl, rfl⟩ := Prod.mk.inj heq
  obtain ⟨body, trail, rest, hbody, hdata, hrest⟩ | ⟨-, hnone⟩ :=
    quoted_reads (escapeQuotes q ++ '\\' :: '"' :: text)
  · obtain ⟨tail, rfl⟩ := exists_of_backslash hbody hdata
    rw [hdata, parseQuotedParam_append hbody trail (Separated.noSpace hrest)] at hquoted
    obtain ⟨rfl, -⟩ := Prod.mk.inj (Except.ok.inj hquoted)
    have hvalue : unescape (escapeQuotes q ++ '\\' :: '"' :: tail) = q ++ '"' :: unescape tail :=
      unescape_escapeQuotes q nofun
    rw [unquoteParam_append hbody, hvalue, count_append, count_cons_self]
    omega
  · exact absurd hleft (hnone _ _ hquoted)

theorem comma_mem_raw {first : Element} {more : List Element}
    (h : ',' ∈ first.text ++ moreText more) : ',' ∈ first.raw ++ moreRaw more := by
  cases more with
  | cons e more => simp [moreRaw]
  | nil =>
    cases first with
    | plain lead text htext => simpa [moreText, moreRaw, Element.text, Element.raw, spaces] using h
    | quoted lead body trail hbody =>
      simpa [moreText, moreRaw, Element.text, Element.raw, spaces] using h

theorem parseParam_bracket (hq : ∀ c ∈ q, c ≠ ',' ∧ c ≠ ']')
    (h : parseParam ('[' :: (q ++ writeMore ps)) = .ok (v, left)) (hleft : Separated left) :
    ',' ∈ v := by
  obtain ⟨first, more, behind, hdata⟩ | ⟨-, hnone⟩ := array_reads (q ++ writeMore ps)
  · have hparse : parseParam ('[' :: (q ++ writeMore ps)) =
        .ok (first.raw ++ moreRaw more, behind) := by
      rw [hdata]
      have harray := parseParam_array 0 (first.text ++ (moreText more ++ ']' :: behind))
      rw [parseArrayParam_elements] at harray
      refine harray.trans (congrArg Except.ok (Prod.ext ?_ rfl))
      exact expandLoop_elements first more []
    obtain ⟨rfl, rfl⟩ := Prod.mk.inj (Except.ok.inj (hparse.symm.trans h))
    rw [← append_assoc] at hdata
    refine comma_mem_raw ?_
    obtain ⟨a, ha, hmore⟩ | ⟨a, ha, hmore⟩ := append_eq_append_iff.mp hdata
    · cases ps with
      | nil =>
        rcases a with - | ⟨c, a⟩
        · cases hmore
          exact absurd rfl (separated_ne_nil hleft)
        · cases a <;> cases hmore
      | cons p ps =>
        rcases a with - | ⟨c, a⟩
        · cases hmore
        · obtain ⟨rfl, -⟩ := List.cons.inj hmore
          rw [ha]
          simp
    · rcases a with - | ⟨c, a⟩
      · cases ps with
        | nil =>
          cases hmore
          exact absurd rfl (separated_ne_nil hleft)
        | cons p ps => cases hmore
      · obtain ⟨rfl, -⟩ := List.cons.inj hmore
        exact absurd rfl (hq ']' (by simp [ha])).2
  · have harray := parseParam_array 0 (q ++ writeMore ps)
    obtain ⟨r, hr, -⟩ := map_eq_ok (harray.symm.trans h)
    obtain ⟨b, hb, -⟩ := map_eq_ok hr
    exact absurd hb (hnone b)

theorem ne_of_not_writable (h : ¬Writable p)
    (hparse : parseParam (writeParam p ++ writeMore ps) = .ok (v, left)) (hleft : Separated left)
    (hmore : Separated (writeMore ps)) : v ≠ p := by
  unfold Writable at h
  unfold writeParam at hparse
  cases hquote : mustQuote p with
  | false =>
    rw [hquote] at h hparse
    obtain ⟨q, rfl⟩ := head?_eq_some_iff.mp (not_not.mp h)
    simp only [mustQuote, Bool.or_eq_false_iff, decide_eq_false_iff_not, any_eq_false] at hquote
    have hplain : ∀ c ∈ q, c ≠ ',' ∧ c ≠ ']' := fun c hc => by
      simpa using hquote.2 c (mem_cons_of_mem _ hc)
    rintro rfl
    rcases mem_cons.mp (parseParam_bracket hplain hparse hleft) with hc | hc
    · cases hc
    · exact (hplain ',' hc).1 rfl
  | true =>
    rw [hquote] at h hparse
    rw [if_pos rfl, quoteParam, cons_append, append_assoc, cons_append, nil_append] at hparse
    have hcount := count_rangeRunes 0 p
    generalize rangeRunes 0 p = r at h hparse hcount
    by_cases hlast : r.getLastD '"' = '\\'
    · obtain ⟨q, rfl⟩ : ∃ q, r = q ++ ['\\'] := by
        rcases eq_nil_or_concat r with rfl | ⟨q, c, rfl⟩
        · cases hlast
        · rw [concat_eq_append] at hlast ⊢
          rw [getLastD_concat] at hlast
          exact ⟨q, by rw [hlast]⟩
      have hquotes := parseParam_backslash hparse hleft
      rintro rfl
      rw [← hcount, count_append] at hquotes
      exact absurd hquotes (by simp)
    · rw [parseParam_escapeQuotes hlast hmore] at hparse
      obtain ⟨rfl, -⟩ := Prod.mk.inj (Except.ok.inj hparse)
      rintro rfl
      refine h ⟨rfl, fun hback => hlast ?_⟩
      rw [getLastD_eq_getLast?, hback]
      rfl

theorem separated_writeMore : (ps : List (List Char)) → Separated (writeMore ps)
  | [] => separated_close []
  | _ :: _ => separated_comma _

theorem paramsLoop_head (h : paramsLoop text = .ok (params, left)) :
    ∃ v left, parseParam text = .ok (v, left) ∧ Separated left ∧ params.head? = some v := by
  rw [paramsLoop] at h
  split at h
  · cases h
  · cases h
  · next v c left' hparam =>
    split_ifs at h with hclose hcomma
    · cases h
      exact ⟨v, _, hparam, ⟨c, _, rfl, .inr hclose⟩, rfl⟩
    · obtain ⟨⟨params', left'⟩, -, heq⟩ := map_eq_ok h
      cases heq
      exact ⟨v, _, hparam, ⟨c, _, rfl, .inl hcomma⟩, rfl⟩

theorem map_cons_eq_ok {x : Except String (List (List Char) × List Char)} :
    (x.map fun (params, left) => (p :: params, left)) = .ok (p :: ps, left) ↔ x = .ok (ps, left) := by
  refine ⟨fun h => ?_, fun h => h ▸ rfl⟩
  obtain ⟨⟨params, left'⟩, rfl, heq⟩ := map_eq_ok h
  cases heq
  rfl

theorem paramsLoop_writeParam : paramsLoop (writeParam p ++ writeMore ps) = .ok (p :: ps, []) ↔
    ∀ q ∈ p :: ps, Writable q := by
  induction ps generalizing p with
  | nil =>
    by_cases hp : Writable p
    · have hparse := parseParam_writable hp (separated_writeMore [])
      rw [paramsLoop_of_param hparse, if_pos rfl]
      simpa using hp
    · refine iff_of_false (fun hok => ?_) fun hall => hp (hall p mem_cons_self)
      obtain ⟨v, left, hparse, hleft, hhead⟩ := paramsLoop_head hok
      exact ne_of_not_writable hp hparse hleft (separated_writeMore _) (Option.some.inj hhead).symm
  | cons q ps ih =>
    by_cases hp : Writable p
    · have hparse := parseParam_writable hp (separated_writeMore (q :: ps))
      have hmore : writeMore (q :: ps) = ',' :: (writeParam q ++ writeMore ps) := by simp [writeMore]
      have hne : writeParam q ++ writeMore ps ≠ [] :=
        append_ne_nil_of_right_ne_nil _ (separated_ne_nil (separated_writeMore ps))
      rw [hmore] at hparse ⊢
      rw [paramsLoop_of_param hparse, if_neg (by decide), if_pos rfl, if_neg hne, map_cons_eq_ok, ih,
        @forall_mem_cons _ _ p]
      exact (and_iff_right hp).symm
    · refine iff_of_false (fun hok => ?_) fun hall => hp (hall p mem_cons_self)
      obtain ⟨v, left, hparse, hleft, hhead⟩ := paramsLoop_head hok
      exact ne_of_not_writable hp hparse hleft (separated_writeMore _) (Option.some.inj hhead).symm

theorem parseItemKey_makeKey (hkey : parseItemKey key = .ok (key, [])) :
    parseItemKey (makeKey key (p :: ps)) = .ok (key, p :: ps) ↔ ∀ q ∈ p :: ps, Writable q := by
  obtain ⟨hne, hname⟩ := (parseItemKey_ok key key []).mp hkey
  have hself : key.takeWhile zbxIsKeyChar = key := by
    obtain ⟨hdrop, -⟩ | ⟨data, -, htake, -⟩ := hname
    · have hsplit := takeWhile_append_dropWhile (p := zbxIsKeyChar) (l := key)
      rwa [hdrop, append_nil] at hsplit
    · exact htake.symm
  have hchars : ∀ c ∈ key, zbxIsKeyChar c = true := takeWhile_eq_self_iff.mp hself
  have hopen : ¬zbxIsKeyChar '[' = true := by decide
  rw [parseItemKey_ok, makeKey, takeWhile_append_of_pos hchars, dropWhile_append_of_pos hchars,
    takeWhile_cons_of_neg hopen, dropWhile_cons_of_neg hopen, append_nil, ← paramsLoop_writeParam]
  rw [hself] at hne
  simp [hne]

/-- The parameters come back that `MakeKey` can write; it reports none of the others. -/
theorem makeKey_restores_iff (hkey : parseItemKey key = .ok (key, [])) :
    parseItemKey (makeKey key params) = .ok (key, params) ↔ ∀ p ∈ params, Writable p := by
  cases params with
  | nil => simpa [makeKey] using hkey
  | cons p ps => exact parseItemKey_makeKey hkey

theorem makeKey_restores_iff_comma :
    parseItemKey (makeKey ['k'] [['a', ',', '"'], []]) = .ok (['k'], [['a', ',', '"'], []]) :=
  (makeKey_restores_iff rfl).mpr (by simp [Writable, mustQuote, rangeRunes, runeTail, runeHead])

/-- The backslash at the end of the parameter escapes the closing quote. -/
theorem makeKey_loses_backslash : ¬∀ key params, parseItemKey key = .ok (key, []) →
    parseItemKey (makeKey key params) = .ok (key, params) := by
  intro h
  have hwritable := (parseItemKey_makeKey rfl).mp (h ['k'] [[',', '\\']] rfl)
  simp [Writable, mustQuote] at hwritable

end Zabbix.Itemutil
