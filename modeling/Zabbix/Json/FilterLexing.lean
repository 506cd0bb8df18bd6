import Zabbix.Json.Filter

/-!
# Tokens of a filter expression in front of other text

The lexer takes an operand that it takes on its own also in front of white space, of an operator
and of a closing parenthesis.
-/

namespace Zabbix.JsonPath

open Option List Zabbix.Expr Zabbix.Json

variable {p q rest : List Char}

def delimiters : List Char :=
  [' ', '\t', '\r', '\n', ')', '+', '-', '*', '/', '!', '=', '<', '>', '|', '&']

def Delimited (rest : List Char) : Prop := charAt rest ∈ delimiters

theorem charAt_append (h : p ≠ []) : charAt (p ++ rest) = charAt p := by
  cases p with
  | nil => exact absurd rfl h
  | cons c p => rfl

theorem ne_nil_of_charAt {c : Char} (h : charAt p = c) (hc : c ≠ '\x00') : p ≠ [] := by
  rintro rfl
  exact hc h.symm

theorem tail_append (h : p ≠ []) : (p ++ rest).tail = p.tail ++ rest := by
  cases p with
  | nil => exact absurd rfl h
  | cons c p => rfl

theorem takeWhile_stop {f : Char → Bool} (h : f (charAt rest) = false) :
    (p ++ rest).takeWhile f = p.takeWhile f := by
  induction p with
  | nil =>
    cases rest with
    | nil => rfl
    | cons c rest => exact takeWhile_cons_of_neg (Bool.eq_false_iff.mp h)
  | cons c p ih => simp only [cons_append, takeWhile_cons, ih]

theorem dropWhile_stop {f : Char → Bool} (h : f (charAt rest) = false) :
    (p ++ rest).dropWhile f = p.dropWhile f ++ rest := by
  induction p with
  | nil =>
    cases rest with
    | nil => rfl
    | cons c rest => exact dropWhile_cons_of_neg (Bool.eq_false_iff.mp h)
  | cons c p ih =>
    simp only [cons_append, dropWhile_cons, ih]
    split <;> rfl

theorem dropWhile_append_of_ne {f : Char → Bool} (h : p.dropWhile f ≠ []) :
    (p ++ rest).dropWhile f = p.dropWhile f ++ rest := by
  rw [dropWhile_append, if_neg (mt List.isEmpty_iff.mp h)]

theorem skipWhitespace_append_of_ne (h : skipWhitespace p ≠ []) :
    skipWhitespace (p ++ rest) = skipWhitespace p ++ rest :=
  dropWhile_append_of_ne h

theorem jsonpathError_ne {α : Type} {path : List Char} {a : α} : jsonpathError path ≠ .ok a := by
  unfold jsonpathError
  split_ifs <;> nofun

theorem delimited_facts : ∀ c ∈ delimiters, isNameChar c = false ∧ isdigit c = false ∧ c ≠ '.' ∧
    c ≠ '[' ∧ c ≠ 'e' ∧ c ≠ 'E' ∧ c ≠ '\x00' := by
  intro c hc
  simp only [delimiters, mem_cons, not_mem_nil, or_false] at hc
  obtain rfl | rfl | rfl | rfl | rfl | rfl | rfl | rfl | rfl | rfl | rfl | rfl | rfl | rfl | rfl := hc
  all_goals decide

/-- The part of `jsonpath_next` behind the opening bracket. -/
def bracketClose (next : List Char) : Option (List Char) :=
  if isdigit (charAt next) then some (skipWhitespace (next.dropWhile isdigit))
  else if charAt next ≠ '\'' ∧ charAt next ≠ '"' then none
  else
    let stop := next.tail.dropWhile (· ≠ charAt next)
    if stop = [] then none else some (skipWhitespace stop.tail)

theorem bracketClose_append (h : bracketClose p = some q) (hq : q ≠ []) :
    bracketClose (p ++ rest) = some (q ++ rest) := by
  have hne : p ≠ [] := by
    rintro rfl
    cases h
  unfold bracketClose at h ⊢
  rw [charAt_append hne, tail_append hne]
  split_ifs at h ⊢ with hdigit hquote
  · have hskip := Option.some.inj h
    have hdrop : p.dropWhile isdigit ≠ [] := by
      intro hnil
      rw [hnil] at hskip
      exact hq hskip.symm
    rw [dropWhile_append_of_ne hdrop, skipWhitespace_append_of_ne (hskip.trans_ne hq), hskip]
  · dsimp only at h ⊢
    split_ifs at h with hstop
    have hskip := Option.some.inj h
    rw [dropWhile_append_of_ne hstop, if_neg (mt List.append_eq_nil_iff.mp (mt And.left hstop)),
      tail_append hstop, skipWhitespace_append_of_ne (hskip.trans_ne hq), hskip]

theorem bracketClose_iff (next : List Char) :
    (match bracketClose next with
      | none => jsonpathError p
      | some close => if charAt close ≠ ']' then jsonpathError p else .ok close.tail) = .ok q ↔
    ∃ close, bracketClose next = some close ∧ charAt close = ']' ∧ q = close.tail := by
  cases bracketClose next with
  | none =>
    refine iff_of_false jsonpathError_ne ?_
    rintro ⟨_, ⟨⟩, -⟩
  | some close =>
    dsimp only
    split_ifs with hclose
    · refine iff_of_false jsonpathError_ne ?_
      rintro ⟨_, ⟨⟩, heq, -⟩
      exact hclose heq
    · refine ⟨fun heq => ⟨close, rfl, not_not.mp hclose, (Except.ok.inj heq).symm⟩, ?_⟩
      rintro ⟨_, ⟨⟩, -, rfl⟩
      rfl

theorem jsonpathNext_iff : jsonpathNext p = .ok q ↔
    (charAt p = '.' ∧ charAt p.tail ≠ '[' ∧ p.tail.takeWhile isNameChar ≠ [] ∧
      q = p.tail.dropWhile isNameChar) ∨
    (charAt (if charAt p = '.' then p.tail else p) = '[' ∧
      ∃ close, bracketClose (skipWhitespace (if charAt p = '.' then p.tail else p).tail) = some close ∧
        charAt close = ']' ∧ q = close.tail) := by
  have hfold : ∀ next : List Char, (if isdigit (charAt next) = true then
        some (skipWhitespace (next.dropWhile isdigit))
      else if charAt next ≠ '\'' ∧ charAt next ≠ '"' then none
      else if next.tail.dropWhile (· ≠ charAt next) = [] then none
        else some (skipWhitespace (next.tail.dropWhile (· ≠ charAt next)).tail)) = bracketClose next :=
    fun next => rfl
  unfold jsonpathNext
  by_cases hdot : charAt p = '.'
  · simp only [hdot, true_and, if_pos]
    by_cases hbrack : charAt p.tail = '['
    · rw [if_neg (by rw [hbrack]; decide), if_neg (not_not.mpr hbrack), if_neg (not_not.mpr hbrack)]
      simp only [hfold, hbrack, ne_eq, not_true, false_and, false_or, true_and]
      exact bracketClose_iff _
    · simp only [hbrack, false_and, or_false, not_false_iff, true_and, ne_eq, if_true]
      by_cases hname : p.tail.takeWhile isNameChar = []
      · rw [if_pos hname]
        refine iff_of_false ?_ fun h => h.1 hname
        split_ifs <;> exact jsonpathError_ne
      · rw [if_neg hname, if_neg ?_]
        · exact ⟨fun h => ⟨hname, (Except.ok.inj h).symm⟩, fun h => congrArg Except.ok h.2.symm⟩
        · intro hend
          cases htail : p.tail with
          | nil => exact hname (by rw [htail]; rfl)
          | cons c tail =>
            rw [htail] at hend hname
            exact hname (takeWhile_cons_of_neg (by rw [show c = '\x00' from hend]; decide))
  · simp only [hdot, false_and, if_false, false_or, ne_eq]
    by_cases hbrack : charAt p = '['
    · rw [if_neg (not_not.mpr hbrack)]
      simp only [hbrack, true_and]
      exact bracketClose_iff _
    · rw [if_pos hbrack]
      exact iff_of_false jsonpathError_ne fun h => hbrack h.1

theorem jsonpathNext_append (h : jsonpathNext p = .ok q) (hrest : Delimited rest) :
    jsonpathNext (p ++ rest) = .ok (q ++ rest) := by
  obtain ⟨hname, -⟩ := delimited_facts _ hrest
  rw [jsonpathNext_iff] at h ⊢
  obtain ⟨hdot, hbrack, htake, rfl⟩ | ⟨hbrack, close, hbracket, hclose, rfl⟩ := h
  · have hne := ne_nil_of_charAt hdot (by decide)
    have htail : p.tail ≠ [] := by
      intro hnil
      rw [hnil] at htake
      exact htake rfl
    refine .inl ?_
    rw [charAt_append hne, tail_append hne, charAt_append htail, takeWhile_stop hname,
      dropWhile_stop hname]
    exact ⟨hdot, hbrack, htake, rfl⟩
  · have hclosene := ne_nil_of_charAt hclose (by decide)
    have hnext : skipWhitespace (if charAt p = '.' then p.tail else p).tail ≠ [] := by
      intro hnil
      rw [hnil] at hbracket
      cases hbracket
    have hbody := ne_nil_of_charAt hbrack (by decide)
    have hne : p ≠ [] := by
      rintro rfl
      exact hbody (ite_self [])
    refine .inr ?_
    rw [charAt_append hne, tail_append hne, ← apply_ite (· ++ rest), charAt_append hbody,
      tail_append hbody, skipWhitespace_append_of_ne hnext]
    exact ⟨hbrack, close ++ rest, bracketClose_append hbracket hclosene,
      (charAt_append hclosene).trans hclose, (tail_append hclosene).symm⟩

theorem bracketClose_length (h : bracketClose p = some q) : q.length ≤ p.length := by
  have hdrop : ∀ (f : Char → Bool) (s : List Char), (s.dropWhile f).length ≤ s.length :=
    fun f s => (dropWhile_suffix f).length_le
  unfold bracketClose at h
  split_ifs at h
  · cases h
    exact Nat.le_trans (hdrop _ _) (hdrop _ _)
  · dsimp only at h
    split_ifs at h
    cases h
    have htail := hdrop (· ≠ charAt p) p.tail
    have hskip := hdrop isWhitespace (p.tail.dropWhile (· ≠ charAt p)).tail
    simp only [length_tail] at htail hskip
    exact Nat.le_trans hskip (by omega)

theorem jsonpathNext_length (h : jsonpathNext p = .ok q) : q.length ≤ p.length := by
  have hdrop : ∀ (f : Char → Bool) (s : List Char), (s.dropWhile f).length ≤ s.length :=
    fun f s => (dropWhile_suffix f).length_le
  obtain ⟨-, -, -, rfl⟩ | ⟨-, close, hbracket, -, rfl⟩ := jsonpathNext_iff.mp h
  · exact Nat.le_trans (hdrop _ _) (by simp)
  · have hle := bracketClose_length hbracket
    have hskip := hdrop isWhitespace (if charAt p = '.' then p.tail else p).tail
    have hbody : (if charAt p = '.' then p.tail else p).length ≤ p.length := by split_ifs <;> simp
    rw [length_tail] at hskip ⊢
    change (skipWhitespace _).length ≤ _ at hskip
    omega

theorem pathLoop_append {n m : ℕ} (h : pathLoop n p = .ok []) (hrest : Delimited rest)
    (hle : n ≤ m) : pathLoop m (p ++ rest) = .ok rest := by
  obtain ⟨-, -, hdot, hbracket, -⟩ := delimited_facts _ hrest
  have hend : ∀ m, pathLoop m rest = .ok rest := by
    rintro (_ | m)
    · rfl
    · exact if_neg (not_or.mpr ⟨hbracket, hdot⟩)
  induction n generalizing p m with
  | zero =>
    cases h
    exact hend m
  | succ n ih =>
    obtain ⟨m, rfl⟩ : ∃ k, m = k + 1 := ⟨m - 1, by omega⟩
    rw [pathLoop] at h
    split_ifs at h with hstep
    · obtain ⟨q, hnext, hloop⟩ : ∃ q, jsonpathNext p = .ok q ∧ pathLoop n q = .ok [] := by
        cases hnext : jsonpathNext p with
        | error e =>
          rw [hnext] at h
          cases h
        | ok q =>
          rw [hnext] at h
          exact ⟨q, rfl, h⟩
      have hne : p ≠ [] := by
        rintro rfl
        exact absurd hstep (by decide)
      rw [pathLoop, charAt_append hne, if_pos hstep, jsonpathNext_append hnext hrest]
      exact ih hloop (by omega)
    · cases h
      exact hend _

theorem pathLoop_length {n : ℕ} (h : pathLoop n p = .ok q) : q.length ≤ p.length := by
  induction n generalizing p with
  | zero =>
    cases h
    exact Nat.le_refl _
  | succ n ih =>
    rw [pathLoop] at h
    split_ifs at h
    · cases hnext : jsonpathNext p with
      | error e =>
        rw [hnext] at h
        cases h
      | ok next =>
        rw [hnext] at h
        exact Nat.le_trans (ih h) (jsonpathNext_length hnext)
    · cases h
      exact Nat.le_refl _

theorem jsonpathParsePath_append (hne : p ≠ []) (h : jsonpathParsePath p = some p.length)
    (hrest : Delimited rest) : jsonpathParsePath (p ++ rest) = some p.length := by
  unfold jsonpathParsePath at h ⊢
  cases hloop : pathLoop p.length p.tail with
  | error e =>
    rw [hloop] at h
    cases h
  | ok q =>
    rw [hloop] at h
    have hlength := Option.some.inj h
    have hle := pathLoop_length hloop
    have hpos := length_pos_iff.mpr hne
    rw [length_tail] at hle
    obtain rfl : q = [] := eq_nil_of_length_eq_zero (by omega)
    rw [tail_append hne, pathLoop_append hloop hrest (by simp)]
    simp

theorem substringLoop_append {quotes : Char} (h : substringLoop quotes p = some q) :
    substringLoop quotes (p ++ rest) = some (q ++ rest) := by
  fun_induction substringLoop quotes p with
  | case1 => cases h
  | case2 =>
    cases h
    rw [substringLoop.eq_def]
    exact if_pos rfl
  | case3 => cases h
  | case4 d ptr hescape hquotes ih =>
    rw [cons_append, cons_append, substringLoop.eq_def]
    simpa [hquotes, hescape] using ih h
  | case5 => cases h
  | case6 c ptr hquotes hslash ih =>
    rw [cons_append, substringLoop.eq_def]
    simpa [hquotes, hslash] using ih h

theorem jsonpathParseSubstring_append (hne : p ≠ []) (h : jsonpathParseSubstring p = some p.length) :
    jsonpathParseSubstring (p ++ rest) = some p.length := by
  obtain ⟨q, hloop, hlength⟩ := map_eq_some_iff.mp h
  have hpos := length_pos_iff.mpr hne
  unfold jsonpathParseSubstring
  rw [charAt_append hne, tail_append hne, substringLoop_append hloop, map_some]
  simp only [length_append, Option.some.injEq]
  omega

theorem exponentLen_append (h : exponentLen p = some p.length) (hrest : Delimited rest) :
    exponentLen (p ++ rest) = some p.length := by
  obtain ⟨-, hdigit, hdot, -, he, hE, -⟩ := delimited_facts _ hrest
  have hne : p ≠ [] := by
    rintro rfl
    cases h
  unfold exponentLen at h ⊢
  dsimp only at h ⊢
  rw [charAt_append hne]
  generalize hsign : (if charAt p = '-' ∨ charAt p = '+' then 1 else 0) = sign at h ⊢
  have hle : sign ≤ p.length := by
    have hpos := length_pos_iff.mpr hne
    split_ifs at hsign <;> omega
  rw [drop_append_of_le_length hle, takeWhile_stop hdigit]
  split_ifs at h with hbad
  have hlength := Option.some.inj h
  rw [hlength, drop_left, if_neg]
  rintro (hdigits | hnext | hnext | hnext)
  · exact hbad (.inl hdigits)
  · exact hdot hnext
  · exact he hnext
  · exact hE hnext

theorem zbxNumberParse_append (h : zbxNumberParse p = some p.length) (hrest : Delimited rest) :
    zbxNumberParse (p ++ rest) = some p.length := by
  obtain ⟨-, hdigit, hdot, -, he, hE, -⟩ := delimited_facts _ hrest
  have hstop : (isdigit (charAt rest) || decide (charAt rest = '.')) = false := by simp [hdigit, hdot]
  unfold zbxNumberParse at h ⊢
  dsimp only at h ⊢
  rw [takeWhile_stop (f := fun c => isdigit c || c = '.') hstop]
  generalize hm : (p.takeWhile fun c => isdigit c || c = '.') = mantissa at h ⊢
  have hle : mantissa.length ≤ p.length := hm ▸ ( takeWhile_prefix _).length_le
  rw [drop_append_of_le_length hle]
  have hdrop : (p.drop mantissa.length).length = p.length - mantissa.length := length_drop
  generalize p.drop mantissa.length = after at h hdrop ⊢
  obtain ⟨n, hexp, heq⟩ := bind_eq_some_iff.mp h
  obtain ⟨-, hlength⟩ := ite_none_left_eq_some.mp heq
  have hlength := Option.some.inj hlength
  refine bind_eq_some_iff.mpr ⟨n, ?_, heq⟩
  by_cases hnil : after = []
  · subst hnil
    rw [nil_append, if_neg (not_or.mpr ⟨he, hE⟩)]
    rwa [if_neg (by decide)] at hexp
  · rw [charAt_append hnil, tail_append hnil]
    have hpos := length_pos_iff.mpr hnil
    split_ifs at hexp ⊢ with hmark
    · obtain ⟨k, hk, rfl⟩ := map_eq_some_iff.mp hexp
      have hk' : k = after.tail.length := by
        rw [length_tail]
        omega
      rw [exponentLen_append (hk' ▸ hk) hrest, ← hk', map_some]
    · obtain rfl := Option.some.inj hexp
      omega

theorem jsonpathParseNumber_append {strtod : List Char → ℕ × Bool}
    (h : jsonpathParseNumber strtod p = some p.length) (hrest : Delimited rest)
    (hstrtod : strtod (p ++ rest) = strtod p) :
    jsonpathParseNumber strtod (p ++ rest) = some p.length := by
  have hne : p ≠ [] := by
    rintro rfl
    cases h
  unfold jsonpathParseNumber at h ⊢
  dsimp only at h ⊢
  rw [charAt_append hne, hstrtod]
  generalize hsign : (if charAt p = '-' ∨ charAt p = '+' then 1 else 0) = sign at h ⊢
  have hle : sign ≤ p.length := by
    have hpos := length_pos_iff.mpr hne
    split_ifs at hsign <;> omega
  rw [drop_append_of_le_length hle]
  obtain ⟨size, hsize, heq⟩ := bind_eq_some_iff.mp h
  obtain ⟨hgood, hlength⟩ := ite_none_left_eq_some.mp heq
  have hlength := Option.some.inj hlength
  have hsize' : size = (p.drop sign).length := by
    rw [length_drop]
    omega
  rw [zbxNumberParse_append (hsize' ▸ hsize) hrest, ← hsize']
  exact heq

end Zabbix.JsonPath
