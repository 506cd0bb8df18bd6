import Mathlib.Data.List.Forall2
import Zabbix.Expr.Text

/-!
# Parameters of functions

`function.c`: the parameters of a trigger function are quoted with backslashes escaped, and read
back by a validator and a parser that do not know of escaped backslashes.
-/

namespace Zabbix.Expr

open List

inductive FuncParamState
  | next
  | quoted
  | unquoted
  | postquoted
  deriving DecidableEq

/-- What `function_validate_parameters` returns; `parR` and `lppLen` are not always written. -/
structure Validation where
  ret : Bool
  parR : Option ℕ
  lppOffset : ℕ
  lppLen : Option ℕ
  deriving DecidableEq

def FuncParamState.step (last c : Char) : FuncParamState → Option FuncParamState
  | .next =>
    if c = '"' then some .quoted
    else if c ≠ ' ' ∧ c ≠ ',' then some .unquoted
    else some .next
  | .quoted => if c = '"' ∧ last ≠ '\\' then some .postquoted else some .quoted
  | .unquoted => if c = ',' then some .next else some .unquoted
  | .postquoted =>
    if c = ',' then some .next
    else if c ≠ ' ' then none
    else some .postquoted

def validateLoop (terminator : Option Char) :
    FuncParamState → ℕ → ℕ → Char → List Char → Validation
  | state, lppOffset, i, _, [] =>
    if terminator = none ∧ state ≠ .quoted then
      { ret := true, parR := some i, lppOffset, lppLen := some (i - lppOffset) }
    else { ret := false, parR := none, lppOffset, lppLen := some (i - lppOffset) }
  | state, lppOffset, i, last, c :: expr =>
    if terminator = some c ∧ state ≠ .quoted then
      { ret := true, parR := some i, lppOffset, lppLen := none }
    else
      let lppOffset := if state = .next then i else lppOffset
      match state.step last c with
      | some state => validateLoop terminator state lppOffset (i + 1) c expr
      | none => { ret := false, parR := none, lppOffset, lppLen := some (i - lppOffset) }

def functionValidateParameters (terminator : Option Char) (expr : List Char) : Validation :=
  validateLoop terminator .next 0 0 '\x00' expr

/-- The loop of `zbx_function_param_parse_ext` over a quoted parameter: the characters before the
closing quote or the end. -/
def quotedLoop (escBs : Bool) : List Char → ℕ × Bool
  | [] => (0, false)
  | [c] => if c = '"' then (0, true) else (1, false)
  | c :: d :: ptr =>
    if c = '"' then (0, true)
    else if c = '\\' ∧ (d = '"' ∨ escBs) then (quotedLoop escBs ptr).map (· + 2) id
    else (quotedLoop escBs (d :: ptr)).map (· + 1) id

structure ParamLoc where
  paramPos : ℕ
  length : ℕ
  sepPos : ℕ
  deriving DecidableEq

/-- `zbx_function_param_parse_ext` without allowed macros: a token found at a brace is not skipped
then. -/
def zbxFunctionParamParseExt (escBs : Bool) (expr : List Char) : ParamLoc :=
  let paramPos := (expr.takeWhile (· = ' ')).length
  let ptr := expr.drop paramPos
  if charAt ptr = '"' then
    let (n, closed) := quotedLoop escBs ptr.tail
    if closed then
      let length := n + 2
      let spaces := ((ptr.drop length).takeWhile (· = ' ')).length
      { paramPos, length, sepPos := paramPos + length + spaces }
    else { paramPos, length := n + 1, sepPos := paramPos + (n + 1) }
  else
    let sepPos := (expr.takeWhile fun c => c ≠ ')' && c ≠ ',').length
    { paramPos, length := sepPos - paramPos, sepPos }

def zbxFunctionParamParse (expr : List Char) : ParamLoc := zbxFunctionParamParseExt false expr

/-- The loop of `zbx_function_param_unquote_dyn_ext`, which stops in front of the last character. -/
def unquoteFuncLoop (escBs : Bool) : List Char → List Char
  | [] => []
  | [_] => []
  | c :: d :: pin =>
    if c = '\\' ∧ (d = '"' ∨ (escBs ∧ d = '\\')) then d :: unquoteFuncLoop escBs pin
    else c :: unquoteFuncLoop escBs (d :: pin)

def zbxFunctionParamUnquoteDynExt (escBs : Bool) (param : List Char) : List Char × Bool :=
  if charAt param = '"' then (unquoteFuncLoop escBs param.tail, true) else (param, false)

def zbxFunctionParamUnquoteDyn (param : List Char) : List Char × Bool :=
  zbxFunctionParamUnquoteDynExt true param

def NeedsQuotes (forced : Bool) (param : List Char) : Prop :=
  forced = true ∨ charAt param = '"' ∨ charAt param = ' ' ∨ ',' ∈ param ∨ ')' ∈ param

instance (forced : Bool) (param : List Char) : Decidable (NeedsQuotes forced param) :=
  inferInstanceAs (Decidable (_ ∨ _ ∨ _ ∨ _ ∨ _))

def escapeParam (escBs : Bool) (param : List Char) : List Char :=
  param.flatMap fun c => if c = '"' ∨ (escBs ∧ c = '\\') then ['\\', c] else [c]

def zbxFunctionParamQuote (forced escBs : Bool) (param : List Char) : Option (List Char) :=
  if ¬ NeedsQuotes forced param then some param
  else if escBs = false ∧ param.getLast? = some '\\' then none
  else some ('"' :: (escapeParam escBs param ++ ['"']))

def getParamLoop : ℕ → List Char → Option (List Char)
  | 0, _ => none
  | 1, ptr =>
    let loc := zbxFunctionParamParse ptr
    some (zbxFunctionParamUnquoteDyn ((ptr.drop loc.paramPos).take loc.length)).1
  | n + 2, ptr =>
    let loc := zbxFunctionParamParse ptr
    -- behind the terminating zero nothing is read
    if loc.sepPos < ptr.length then getParamLoop (n + 1) (ptr.drop (loc.sepPos + 1)) else none

def zbxFunctionGetParamDyn (params : List Char) (nparam : ℕ) : Option (List Char) :=
  getParamLoop nparam params

variable {s q rest : List Char} {forced : Bool}

theorem escapeParam_cons (c : Char) (s : List Char) : escapeParam true (c :: s) =
    (if c = '"' ∨ c = '\\' then ['\\', c] else [c]) ++ escapeParam true s := by
  simp only [escapeParam, List.flatMap_cons, true_and]

theorem charAt_escapeParam (s : List Char) : charAt (escapeParam true s) ≠ '"' := by
  cases s with
  | nil => decide
  | cons c s =>
    rw [escapeParam_cons]
    by_cases hc : c = '"' ∨ c = '\\'
    · rw [if_pos hc]
      exact (by decide : '\\' ≠ '"')
    · rw [if_neg hc]
      exact fun h => hc (.inl h)

theorem unquote_escapeParam (s : List Char) (hrest : rest ≠ []) :
    unquoteFuncLoop true (escapeParam true s ++ rest) = s ++ unquoteFuncLoop true rest := by
  induction s with
  | nil => rfl
  | cons c s ih =>
    rw [escapeParam_cons]
    by_cases hc : c = '"' ∨ c = '\\'
    · rw [if_pos hc]
      change unquoteFuncLoop true ('\\' :: c :: (escapeParam true s ++ rest)) = _
      rw [unquoteFuncLoop, if_pos ⟨rfl, hc.imp_right fun h => ⟨rfl, h⟩⟩, ih, List.cons_append]
    · rw [if_neg hc, List.singleton_append, List.cons_append]
      have hne : escapeParam true s ++ rest ≠ [] := List.append_ne_nil_of_right_ne_nil _ hrest
      obtain ⟨d, pin, hcons⟩ := List.exists_cons_of_ne_nil hne
      rw [hcons, unquoteFuncLoop, if_neg (fun h => hc (.inr h.1)), ← hcons, ih, List.cons_append]

theorem back_ne_quote {text : List Char} : charAt ('\\' :: text) ≠ '"' := (by decide : '\\' ≠ '"')

theorem quotedLoop_cons {c : Char} (hc : c ≠ '"') (h : c ≠ '\\' ∨ charAt rest ≠ '"') :
    quotedLoop false (c :: rest) = (quotedLoop false rest).map (· + 1) id := by
  cases rest with
  | nil => exact if_neg hc
  | cons d ptr =>
    have hskip : ¬ (c = '\\' ∧ (d = '"' ∨ false = true)) := by
      rintro ⟨hback, hquote | hfalse⟩
      · exact h.elim (fun hne => hne hback) (fun hne => hne hquote)
      · cases hfalse
    rw [quotedLoop, if_neg hc, if_neg hskip]

theorem map_add (n m : ℕ) (x : ℕ × Bool) :
    (x.map (· + n) id).map (· + m) id = x.map (· + (n + m)) id := by
  rw [Prod.map_map, Function.id_comp]
  exact congrArg (Prod.map · id x) (funext fun k => Nat.add_assoc k n m)

theorem quotedLoop_escape_cons {c : Char}
    (h : c = '\\' → charAt (escapeParam true s ++ rest) ≠ '"') :
    quotedLoop false (escapeParam true (c :: s) ++ rest) =
      (quotedLoop false (escapeParam true s ++ rest)).map
        (· + ((escapeParam true (c :: s)).length - (escapeParam true s).length)) id := by
  rw [escapeParam_cons]
  by_cases hback : c = '\\'
  · rw [if_pos (.inr hback), hback]
    change quotedLoop false ('\\' :: '\\' :: (escapeParam true s ++ rest)) = _
    rw [quotedLoop_cons (by decide) (.inr back_ne_quote),
      quotedLoop_cons (by decide) (.inr (h hback)), map_add, List.length_append,
      Nat.add_sub_cancel]
    rfl
  by_cases hquote : c = '"'
  · rw [if_pos (.inl hquote), hquote]
    change quotedLoop false ('\\' :: '"' :: (escapeParam true s ++ rest)) = _
    rw [quotedLoop, if_neg (by decide), if_pos ⟨rfl, .inl rfl⟩, List.length_append,
      Nat.add_sub_cancel]
    rfl
  · rw [if_neg (not_or_intro hquote hback), List.singleton_append, List.cons_append,
      quotedLoop_cons hquote (.inl hback), List.length_cons, Nat.add_sub_cancel_left]

theorem length_escape_cons (c : Char) (s : List Char) :
    (escapeParam true s).length ≤ (escapeParam true (c :: s)).length := by
  rw [escapeParam_cons, List.length_append]
  exact Nat.le_add_left _ _

theorem charAt_append_of_ne_nil (hs : s ≠ []) : charAt (escapeParam true s ++ rest) ≠ '"' := by
  have hhead := charAt_escapeParam s
  cases s with
  | nil => exact absurd rfl hs
  | cons c s =>
    rw [escapeParam_cons] at hhead ⊢
    by_cases hc : c = '"' ∨ c = '\\'
    · rw [if_pos hc] at hhead ⊢
      exact hhead
    · rw [if_neg hc] at hhead ⊢
      exact hhead

theorem getLast?_cons_ne {c : Char} (hs : s ≠ []) : (c :: s).getLast? = s.getLast? := by
  rw [List.getLast?_cons, List.getLast?_eq_getLast_of_ne_nil hs]
  rfl

theorem quotedLoop_closes (h : s.getLast? ≠ some '\\') (rest : List Char) :
    quotedLoop false (escapeParam true s ++ '"' :: rest) = ((escapeParam true s).length, true) := by
  induction s with
  | nil =>
    cases rest with
    | nil => rfl
    | cons d rest => rfl
  | cons c s ih =>
    have hnext (hback : c = '\\') : charAt (escapeParam true s ++ '"' :: rest) ≠ '"' := by
      refine charAt_append_of_ne_nil ?_
      rintro rfl
      exact h (congrArg some hback)
    have hlast : s.getLast? ≠ some '\\' := by
      by_cases hs : s = []
      · rw [hs]
        nofun
      · rwa [getLast?_cons_ne hs] at h
    rw [quotedLoop_escape_cons hnext, ih hlast]
    refine Prod.ext ?_ rfl
    have hlength := length_escape_cons c s
    change (escapeParam true s).length + _ = _
    omega

theorem quotedLoop_misses (h : s.getLast? = some '\\') (rest : List Char) :
    quotedLoop false (escapeParam true s ++ '"' :: rest) =
      (quotedLoop false rest).map (· + ((escapeParam true s).length + 1)) id := by
  induction s with
  | nil => cases h
  | cons c s ih =>
    by_cases hs : s = []
    · subst hs
      obtain rfl : c = '\\' := Option.some.inj h
      change quotedLoop false ('\\' :: '\\' :: '"' :: rest) = _
      rw [quotedLoop_cons (by decide) (.inr back_ne_quote), quotedLoop, if_neg (by decide),
        if_pos ⟨rfl, .inl rfl⟩, map_add]
      rfl
    · rw [getLast?_cons_ne hs] at h
      have hlength := length_escape_cons c s
      rw [quotedLoop_escape_cons fun _ => charAt_append_of_ne_nil hs, ih h, map_add]
      refine congrArg (Prod.map · id _) (funext fun k => ?_)
      omega

structure PlainParam (s : List Char) : Prop where
  quote : charAt s ≠ '"'
  space : charAt s ≠ ' '
  comma : ',' ∉ s
  close : ')' ∉ s

theorem zbxFunctionParamQuote_cases (h : zbxFunctionParamQuote forced true s = some q) :
    (¬ NeedsQuotes forced s ∧ q = s ∧ PlainParam s) ∨
      (NeedsQuotes forced s ∧ q = '"' :: (escapeParam true s ++ ['"'])) := by
  unfold zbxFunctionParamQuote at h
  by_cases hneeds : NeedsQuotes forced s
  · rw [if_neg (not_not.mpr hneeds), if_neg (fun h => Bool.noConfusion h.1)] at h
    exact .inr ⟨hneeds, (Option.some.inj h).symm⟩
  · rw [if_pos hneeds] at h
    obtain ⟨-, hquote, hspace, hcomma, hclose⟩ := by simpa only [NeedsQuotes, not_or] using hneeds
    exact .inl ⟨hneeds, (Option.some.inj h).symm, hquote, hspace, hcomma, hclose⟩

def EndsParam (rest : List Char) : Prop := ∀ c ∈ rest.head?, c = ','

theorem parse_plain (h : PlainParam s) (hrest : EndsParam rest) :
    zbxFunctionParamParse (s ++ rest) = ⟨0, s.length, s.length⟩ := by
  have hhead (c : Char) (hcomma : c ≠ ',') (hs : charAt s ≠ c) (hzero : c ≠ '\x00') :
      charAt (s ++ rest) ≠ c := by
    cases s with
    | cons d s => exact hs
    | nil =>
      cases rest with
      | nil => exact hzero.symm
      | cons d rest =>
        rw [List.nil_append]
        exact (hrest d rfl).trans_ne hcomma.symm
  have hspaces : (s ++ rest).takeWhile (· = ' ') = [] := by
    have hspace := hhead ' ' (by decide) h.space (by decide)
    cases htext : s ++ rest with
    | nil => rfl
    | cons c text =>
      rw [htext] at hspace
      exact List.takeWhile_cons_of_neg (by rw [decide_eq_true_eq]; exact hspace)
  have hsep : (s ++ rest).takeWhile (fun c => c ≠ ')' && c ≠ ',') = s := by
    rw [List.takeWhile_append_of_pos]
    · cases rest with
      | nil => exact List.append_nil s
      | cons c rest => rw [hrest c rfl, List.takeWhile_cons_of_neg (by decide), List.append_nil]
    · intro c hc
      rw [Bool.and_eq_true, decide_eq_true_eq, decide_eq_true_eq]
      exact ⟨fun heq => h.close (heq ▸ hc), fun heq => h.comma (heq ▸ hc)⟩
  rw [zbxFunctionParamParse, zbxFunctionParamParseExt]
  simp only [hspaces, hsep, List.length_nil, List.drop_zero, Nat.sub_zero]
  exact if_neg (hhead '"' (by decide) h.quote (by decide))

theorem parse_quoted (h : s.getLast? ≠ some '\\') (hrest : EndsParam rest) :
    zbxFunctionParamParse ('"' :: (escapeParam true s ++ ['"']) ++ rest) =
      ⟨0, (escapeParam true s).length + 2, (escapeParam true s).length + 2⟩ := by
  have hspaces : rest.takeWhile (· = ' ') = [] := by
    cases rest with
    | nil => rfl
    | cons c rest =>
      rw [hrest c rfl]
      rfl
  have hdrop : ('"' :: (escapeParam true s ++ '"' :: rest)).drop
      ((escapeParam true s).length + 2) = rest := by
    rw [drop_succ_cons, ← singleton_append, ← append_assoc]
    exact drop_left' (by simp)
  rw [cons_append, append_assoc, singleton_append, zbxFunctionParamParse, zbxFunctionParamParseExt]
  have hzero : ('"' :: (escapeParam true s ++ '"' :: rest)).takeWhile (· = ' ') = [] :=
    takeWhile_cons_of_neg (by decide)
  have hquote : charAt ('"' :: (escapeParam true s ++ '"' :: rest)) = '"' := rfl
  simp only [hzero, List.length_nil, List.drop_zero, if_pos hquote, List.tail_cons,
    quotedLoop_closes h, hdrop, hspaces, if_true, Nat.zero_add, Nat.add_zero]

structure Readable (s q : List Char) : Prop where
  parse : ∀ rest, EndsParam rest → zbxFunctionParamParse (q ++ rest) = ⟨0, q.length, q.length⟩
  unquote : (zbxFunctionParamUnquoteDyn q).1 = s

theorem readable_of_quote (h : zbxFunctionParamQuote forced true s = some q)
    (hlast : NeedsQuotes forced s → s.getLast? ≠ some '\\') : Readable s q := by
  obtain ⟨-, rfl, hplain⟩ | ⟨hneeds, rfl⟩ := zbxFunctionParamQuote_cases h
  · refine ⟨fun rest => parse_plain hplain, ?_⟩
    rw [zbxFunctionParamUnquoteDyn, zbxFunctionParamUnquoteDynExt, if_neg hplain.quote]
  · constructor
    · intro rest hrest
      rw [parse_quoted (hlast hneeds) hrest, List.length_cons, List.length_append]
      rfl
    · exact (unquote_escapeParam s (List.cons_ne_nil _ _)).trans (List.append_nil s)

def joinParams (quoted : List (List Char)) : List Char := [','].intercalate quoted

variable {quoted : List (List Char)}

theorem joinParams_cons (hne : quoted ≠ []) (q : List Char) :
    joinParams (q :: quoted) = q ++ ',' :: joinParams quoted := by
  obtain ⟨q', quoted, rfl⟩ := List.exists_cons_of_ne_nil hne
  rw [joinParams, List.intercalate_cons_cons, List.append_assoc]
  rfl

theorem getParam_head (h : Readable s q) (quoted : List (List Char)) :
    getParamLoop 1 (joinParams (q :: quoted)) = some s := by
  have hfirst (rest : List Char) (hrest : EndsParam rest) : getParamLoop 1 (q ++ rest) = some s := by
    rw [getParamLoop, h.parse rest hrest]
    dsimp only
    rw [List.drop_zero, List.take_left, h.unquote]
  by_cases hne : quoted = []
  · rw [hne, joinParams, List.intercalate_singleton]
    have hread := hfirst [] nofun
    rwa [List.append_nil] at hread
  · rw [joinParams_cons hne]
    exact hfirst _ fun c hc => (Option.some.inj hc).symm

theorem getParam_tail (h : Readable s q) (hne : quoted ≠ []) (n : ℕ) :
    getParamLoop (n + 2) (joinParams (q :: quoted)) = getParamLoop (n + 1) (joinParams quoted) := by
  have hparse := h.parse (',' :: joinParams quoted) fun c hc => (Option.some.inj hc).symm
  rw [joinParams_cons hne, getParamLoop, hparse]
  dsimp only
  rw [if_pos (by simp), ← List.singleton_append, ← List.append_assoc]
  exact congrArg (getParamLoop (n + 1)) (List.drop_left' (by simp))

theorem getParam_missed (hneeds : NeedsQuotes forced s)
    (hquote : zbxFunctionParamQuote forced true s = some q) (hlast : s.getLast? = some '\\')
    (hne : quoted ≠ []) : getParamLoop 1 (joinParams (q :: quoted)) ≠ some s := by
  obtain ⟨hplain, -⟩ | ⟨-, rfl⟩ := zbxFunctionParamQuote_cases hquote
  · exact absurd hneeds hplain
  obtain ⟨n, closed, hloop⟩ : ∃ n closed,
      quotedLoop false (escapeParam true s ++ '"' :: ',' :: joinParams quoted) =
        (n + ((escapeParam true s).length + 2), closed) := by
    rw [quotedLoop_misses hlast, quotedLoop_cons (by decide) (.inl (by decide)), map_add]
    refine ⟨(quotedLoop false (joinParams quoted)).1, (quotedLoop false (joinParams quoted)).2,
      Prod.ext ?_ rfl⟩
    change (quotedLoop false (joinParams quoted)).1 + (1 + _) = _
    omega
  have hspaces : ('"' :: (escapeParam true s ++ '"' :: ',' :: joinParams quoted)).takeWhile
      (· = ' ') = [] := takeWhile_cons_of_neg (by decide)
  have hhead : charAt ('"' :: (escapeParam true s ++ '"' :: ',' :: joinParams quoted)) = '"' := rfl
  obtain ⟨m, hpos, hlength⟩ : ∃ m, (zbxFunctionParamParse
      ('"' :: (escapeParam true s ++ '"' :: ',' :: joinParams quoted))).paramPos = 0 ∧
        (zbxFunctionParamParse
          ('"' :: (escapeParam true s ++ '"' :: ',' :: joinParams quoted))).length =
            (escapeParam true s).length + 3 + m := by
    rw [zbxFunctionParamParse, zbxFunctionParamParseExt]
    simp only [hspaces, List.length_nil, List.drop_zero, if_pos hhead, List.tail_cons, hloop]
    cases closed with
    | true => exact ⟨n + 1, rfl, by rw [if_pos rfl]; dsimp only; omega⟩
    | false => exact ⟨n, rfl, by rw [if_neg Bool.false_ne_true]; dsimp only; omega⟩
  have htake : ('"' :: (escapeParam true s ++ '"' :: ',' :: joinParams quoted)).take
      ((escapeParam true s).length + 3 + m) =
        '"' :: (escapeParam true s ++ '"' :: ',' :: (joinParams quoted).take m) := by
    rw [show (escapeParam true s).length + 3 + m = (escapeParam true s).length + (m + 2) + 1 by
      omega, List.take_succ_cons, List.take_length_add_append]
    rfl
  have hread : (zbxFunctionParamUnquoteDyn
      ('"' :: (escapeParam true s ++ '"' :: ',' :: (joinParams quoted).take m))).1 =
        s ++ '"' :: unquoteFuncLoop true (',' :: (joinParams quoted).take m) :=
    unquote_escapeParam s (cons_ne_nil _ _)
  rw [joinParams_cons hne, cons_append, append_assoc, singleton_append, getParamLoop]
  rw [hpos, hlength, drop_zero, htake, hread]
  intro heq
  have hlength := congrArg List.length (Option.some.inj heq)
  rw [length_append, length_cons] at hlength
  omega

def Runs (terminator : Option Char) (state : FuncParamState) (last : Char) (text : List Char)
    (state' : FuncParamState) (last' : Char) : Prop :=
  ∀ lppOffset i rest, ∃ lppOffset', validateLoop terminator state lppOffset i last (text ++ rest) =
    validateLoop terminator state' lppOffset' (i + text.length) last' rest

variable {terminator : Option Char} {state state' state'' : FuncParamState} {last last' c : Char}
  {text : List Char}

theorem Runs.nil : Runs terminator state last [] state last := fun lppOffset _ _ => ⟨lppOffset, rfl⟩

theorem Runs.cons (hterminator : ¬ (terminator = some c ∧ state ≠ .quoted))
    (hstep : state.step last c = some state') (h : Runs terminator state' c text state'' last') :
    Runs terminator state last (c :: text) state'' last' := by
  intro lppOffset i rest
  obtain ⟨lppOffset', hrun⟩ := h (if state = .next then i else lppOffset) (i + 1) rest
  refine ⟨lppOffset', ?_⟩
  rw [cons_append, validateLoop, if_neg hterminator, hstep]
  dsimp only
  rw [hrun, length_cons]
  congr 1
  omega

theorem Runs.append {text' : List Char} {last'' : Char}
    (h : Runs terminator state last text state' last')
    (h' : Runs terminator state' last' text' state'' last'') :
    Runs terminator state last (text ++ text') state'' last'' := by
  intro lppOffset i rest
  obtain ⟨lppOffset', hrun⟩ := h lppOffset i (text' ++ rest)
  obtain ⟨lppOffset'', hrun'⟩ := h' lppOffset' (i + text.length) rest
  refine ⟨lppOffset'', ?_⟩
  rw [append_assoc, hrun, hrun', length_append, Nat.add_assoc]

theorem quoted_step (h : c ≠ '"' ∨ last = '\\') :
    FuncParamState.quoted.step last c = some .quoted :=
  if_neg fun h' => h.elim (fun hc => hc h'.1) h'.2

theorem runs_escapeParam (s : List Char) (last : Char) :
    Runs terminator .quoted last (escapeParam true s) .quoted (s.getLast?.getD last) := by
  induction s generalizing last with
  | nil => exact .nil
  | cons c s ih =>
    have hlast : (c :: s).getLast?.getD last = s.getLast?.getD c := by
      rw [List.getLast?_cons]
      rfl
    have hquoted {d : Char} : ¬ (terminator = some d ∧ FuncParamState.quoted ≠ .quoted) :=
      fun h => h.2 rfl
    rw [hlast, escapeParam_cons]
    by_cases hc : c = '"' ∨ c = '\\'
    · rw [if_pos hc]
      exact .cons hquoted (quoted_step (.inl (by decide)))
        (.cons hquoted (quoted_step (.inr rfl)) (ih c))
    · rw [if_neg hc]
      exact .cons hquoted (quoted_step (.inl fun h => hc (.inl h))) (ih c)

theorem runs_quoted (hterminator : terminator ≠ some '"') (hlast : s.getLast? ≠ some '\\')
    (last : Char) :
    Runs terminator .next last ('"' :: (escapeParam true s ++ ['"'])) .postquoted '"' := by
  refine .cons (fun h => hterminator h.1) rfl ((runs_escapeParam s '"').append ?_)
  refine .cons (fun h => h.2 rfl) (if_pos ⟨rfl, ?_⟩) .nil
  cases hs : s.getLast? with
  | none => decide
  | some c =>
    rintro rfl
    exact hlast hs

theorem runs_missed (hterminator : terminator ≠ some '"') (hlast : s.getLast? = some '\\')
    (last : Char) :
    Runs terminator .next last ('"' :: (escapeParam true s ++ ['"'])) .quoted '"' := by
  refine .cons (fun h => hterminator h.1) rfl ((runs_escapeParam s '"').append ?_)
  refine .cons (fun h => h.2 rfl) (quoted_step (.inr ?_)) .nil
  rw [hlast]
  rfl

variable (hclose : terminator = none ∨ terminator = some ')')

include hclose

theorem not_terminator (hc : ')' ≠ c) : terminator ≠ some c := by
  obtain rfl | rfl := hclose
  · nofun
  · exact fun heq => hc (Option.some.inj heq)

theorem runs_unquoted (hcomma : ',' ∉ text) (hterminator : ')' ∉ text) (last : Char) :
    ∃ last', Runs terminator .unquoted last text .unquoted last' := by
  induction text generalizing last with
  | nil => exact ⟨last, .nil⟩
  | cons c text ih =>
    obtain ⟨hne, hcomma⟩ := not_or.mp (mem_cons.not.mp hcomma)
    obtain ⟨hne', hterminator⟩ := not_or.mp (mem_cons.not.mp hterminator)
    obtain ⟨last', hrun⟩ := ih hcomma hterminator c
    exact ⟨last', .cons (fun h => not_terminator hclose hne' h.1) (if_neg (Ne.symm hne)) hrun⟩

theorem runs_quote (h : zbxFunctionParamQuote forced true s = some q)
    (hlast : NeedsQuotes forced s → s.getLast? ≠ some '\\') (last : Char) :
    ∃ state last', state ≠ .quoted ∧ Runs terminator .next last q state last' := by
  obtain ⟨-, rfl, hplain⟩ | ⟨hneeds, rfl⟩ := zbxFunctionParamQuote_cases h
  · cases q with
    | nil => exact ⟨.next, last, nofun, .nil⟩
    | cons c q =>
      obtain ⟨hne, hcomma⟩ := not_or.mp (mem_cons.not.mp hplain.comma)
      obtain ⟨hne', hterminator⟩ := not_or.mp (mem_cons.not.mp hplain.close)
      obtain ⟨last', hrun⟩ := runs_unquoted hclose hcomma hterminator c
      refine ⟨.unquoted, last', nofun, .cons (fun h => not_terminator hclose hne' h.1) ?_ hrun⟩
      rw [FuncParamState.step, if_neg (show c ≠ '"' from hplain.quote),
        if_pos ⟨hplain.space, Ne.symm hne⟩]
  · exact ⟨.postquoted, '"', nofun,
      runs_quoted (not_terminator hclose (by decide)) (hlast hneeds) last⟩

theorem runs_comma (hstate : state ≠ .quoted) (last : Char)
    : Runs terminator state last [','] .next ',' := by
  refine .cons (fun h => not_terminator hclose (by decide) h.1) ?_ .nil
  cases state with
  | quoted => exact absurd rfl hstate
  | next | unquoted | postquoted => rfl

omit hclose

theorem validateLoop_ends (hstate : state ≠ .quoted) (lppOffset i : ℕ) :
    ((validateLoop none state lppOffset i last []).ret = true ∧
      (validateLoop none state lppOffset i last []).parR = some i) ∧
    ((validateLoop (some c) state lppOffset i last (c :: rest)).ret = true ∧
      (validateLoop (some c) state lppOffset i last (c :: rest)).parR = some i) := by
  constructor
  · rw [validateLoop, if_pos ⟨rfl, hstate⟩]
    exact ⟨rfl, rfl⟩
  · rw [validateLoop, if_pos ⟨rfl, hstate⟩]
    exact ⟨rfl, rfl⟩

def quotedForm (p : Bool × List Char) : List Char :=
  if NeedsQuotes p.1 p.2 then '"' :: (escapeParam true p.2 ++ ['"']) else p.2

theorem zbxFunctionParamQuote_eq (p : Bool × List Char) :
    zbxFunctionParamQuote p.1 true p.2 = some (quotedForm p) := by
  unfold zbxFunctionParamQuote quotedForm
  by_cases hneeds : NeedsQuotes p.1 p.2
  · rw [if_neg (not_not.mpr hneeds), if_neg (fun h => Bool.noConfusion h.1), if_pos hneeds]
  · rw [if_pos hneeds, if_neg hneeds]

def Closed (p : Bool × List Char) : Prop := NeedsQuotes p.1 p.2 → p.2.getLast? ≠ some '\\'

instance (p : Bool × List Char) : Decidable (Closed p) := inferInstanceAs (Decidable (_ → _))

variable {params front : List (Bool × List Char)} {p : Bool × List Char}

theorem runs_params (hclose : terminator = none ∨ terminator = some ')')
    (h : ∀ p ∈ params, Closed p) (last : Char) : ∃ state last', state ≠ .quoted ∧
      Runs terminator .next last (joinParams (params.map quotedForm)) state last' := by
  induction params generalizing last with
  | nil => exact ⟨.next, last, nofun, .nil⟩
  | cons p params ih =>
    obtain ⟨hp, hparams⟩ := forall_mem_cons.mp h
    obtain ⟨state, last', hstate, hrun⟩ := runs_quote hclose (zbxFunctionParamQuote_eq p) hp last
    by_cases hne : params.map quotedForm = []
    · rw [map_cons, hne, joinParams, intercalate_singleton]
      exact ⟨state, last', hstate, hrun⟩
    · obtain ⟨state', last'', hstate', hrun'⟩ := ih hparams ','
      refine ⟨state', last'', hstate', ?_⟩
      rw [map_cons, joinParams_cons hne]
      exact hrun.append ((runs_comma hclose hstate last').append hrun')

theorem runs_params_missed (h : ∀ p ∈ front, Closed p) (hp : ¬ Closed p) (last : Char) :
    ∃ last', Runs none .next last (joinParams ((front ++ [p]).map quotedForm)) .quoted last' := by
  induction front generalizing last with
  | nil =>
    obtain ⟨hneeds, hlast⟩ := Classical.not_imp.mp hp
    rw [nil_append, map_singleton, joinParams, intercalate_singleton, quotedForm, if_pos hneeds]
    exact ⟨'"', runs_missed (not_terminator (.inl rfl) (by decide)) (not_not.mp hlast) last⟩
  | cons p' front ih =>
    obtain ⟨hp', hfront⟩ := List.forall_mem_cons.mp h
    obtain ⟨state, last', hstate, hrun⟩ :=
      runs_quote (.inl rfl) (zbxFunctionParamQuote_eq p') hp' last
    obtain ⟨last'', hrun'⟩ := ih hfront ','
    refine ⟨last'', ?_⟩
    rw [List.cons_append, List.map_cons, joinParams_cons (by simp)]
    exact hrun.append ((runs_comma (.inl rfl) hstate last').append hrun')

theorem getParam_front (front params : List (Bool × List Char)) (h : ∀ p ∈ front, Closed p)
    (hne : params ≠ []) (n : ℕ) :
    getParamLoop (front.length + (n + 1)) (joinParams ((front ++ params).map quotedForm)) =
      getParamLoop (n + 1) (joinParams (params.map quotedForm)) := by
  induction front with
  | nil => rw [List.length_nil, Nat.zero_add, List.nil_append]
  | cons p front ih =>
    obtain ⟨hp, hfront⟩ := List.forall_mem_cons.mp h
    have hread := readable_of_quote (zbxFunctionParamQuote_eq p) hp
    have hmore : (front ++ params).map quotedForm ≠ [] := by simp [hne]
    have htail := getParam_tail hread hmore (front.length + n)
    rw [List.cons_append, List.map_cons, List.length_cons,
      show front.length + 1 + (n + 1) = front.length + n + 2 by omega, htail, ← ih hfront]
    rfl

/-- The list is accepted before both terminators, and every parameter is found in it. -/
structure RoundTrips (params : List (Bool × List Char)) (text : List Char) : Prop where
  valid : (functionValidateParameters none text).ret = true ∧
    (functionValidateParameters none text).parR = some text.length
  closed : ∀ rest, (functionValidateParameters (some ')') (text ++ ')' :: rest)).ret = true ∧
    (functionValidateParameters (some ')') (text ++ ')' :: rest)).parR = some text.length
  params : ∀ i p, params[i]? = some p → zbxFunctionGetParamDyn text (i + 1) = some p.2

theorem roundTrips_of_closed (h : ∀ p ∈ params, Closed p) :
    RoundTrips params (joinParams (params.map quotedForm)) := by
  constructor
  · obtain ⟨state, last, hstate, hrun⟩ := runs_params (.inl rfl) h '\x00'
    obtain ⟨lppOffset, hloop⟩ := hrun 0 0 []
    rw [List.append_nil, Nat.zero_add] at hloop
    rw [functionValidateParameters, hloop]
    exact (@validateLoop_ends [] state last ')' hstate lppOffset _).1
  · intro rest
    obtain ⟨state, last, hstate, hrun⟩ := runs_params (.inr rfl) h '\x00'
    obtain ⟨lppOffset, hloop⟩ := hrun 0 0 (')' :: rest)
    rw [Nat.zero_add] at hloop
    rw [functionValidateParameters, hloop]
    exact (validateLoop_ends hstate lppOffset _).2
  · intro i p hp
    obtain ⟨hi, rfl⟩ := List.getElem?_eq_some_iff.mp hp
    have hsplit : params = params.take i ++ params[i] :: params.drop (i + 1) := by
      rw [← List.drop_eq_getElem_cons hi, List.take_append_drop]
    have hfront := getParam_front (params.take i) (params[i] :: params.drop (i + 1))
      (fun p hp => h p (List.mem_of_mem_take hp)) (List.cons_ne_nil _ _) 0
    rw [← hsplit, List.length_take, Nat.min_eq_left (Nat.le_of_lt hi), List.map_cons] at hfront
    rw [zbxFunctionGetParamDyn, hfront]
    exact getParam_head (readable_of_quote (zbxFunctionParamQuote_eq _)
      (h _ (List.getElem_mem hi))) _

theorem quotedForm_unique {quoted : List (List Char)}
    (h : List.Forall₂ (fun p q => zbxFunctionParamQuote p.1 true p.2 = some q) params quoted) :
    quoted = params.map quotedForm := by
  induction h with
  | nil => rfl
  | cons hquote _ ih =>
    rw [zbxFunctionParamQuote_eq] at hquote
    rw [List.map_cons, ih, Option.some.inj hquote]

/-- Parameters quoted with escaped backslashes are accepted and read back if and only if none that
is in quotes ends with a backslash. -/
theorem functionParams_roundTrip_iff {quoted : List (List Char)}
    (h : List.Forall₂ (fun p q => zbxFunctionParamQuote p.1 true p.2 = some q) params quoted) :
    RoundTrips params (joinParams quoted) ↔
      ∀ p ∈ params, NeedsQuotes p.1 p.2 → p.2.getLast? ≠ some '\\' := by
  obtain rfl := quotedForm_unique h
  refine ⟨fun hround => ?_, roundTrips_of_closed⟩
  by_contra hopen
  -- the first parameter whose closing quote is missed
  obtain ⟨p, hfind⟩ : ∃ p, params.find? (fun p => ¬ Closed p) = some p := by
    refine Option.isSome_iff_exists.mp (List.find?_isSome.mpr ?_)
    obtain ⟨p, hp⟩ := not_forall.mp hopen
    obtain ⟨hmem, hp⟩ := Classical.not_imp.mp hp
    exact ⟨p, hmem, decide_eq_true hp⟩
  obtain ⟨hp, front, back, rfl, hfront⟩ := List.find?_eq_some_iff_append.mp hfind
  replace hp : ¬ Closed p := of_decide_eq_true hp
  replace hfront : ∀ p ∈ front, Closed p := fun p hp => by simpa using hfront p hp
  cases back with
  | nil =>
    obtain ⟨last, hrun⟩ := runs_params_missed hfront hp '\x00'
    obtain ⟨lppOffset, hloop⟩ := hrun 0 0 []
    have hvalid := hround.valid.1
    rw [List.append_nil] at hloop
    rw [functionValidateParameters, hloop, validateLoop, if_neg (fun h => h.2 rfl)] at hvalid
    cases hvalid
  | cons p' back =>
    obtain ⟨hneeds, hlast⟩ := Classical.not_imp.mp hp
    have hparam := hround.params front.length p (by simp)
    have hskip := getParam_front front (p :: p' :: back) hfront (List.cons_ne_nil _ _) 0
    have hmore : (p' :: back).map quotedForm ≠ [] := by simp
    rw [zbxFunctionGetParamDyn, hskip] at hparam
    exact getParam_missed hneeds (zbxFunctionParamQuote_eq p) (not_not.mp hlast) hmore hparam

/-- A comma and a quote. -/
theorem functionParams_roundTrip_comma :
    RoundTrips [(false, ['a', ',']), (false, ['b', '"'])]
        (joinParams [['"', 'a', ',', '"'], ['b', '"']]) ↔
      ∀ p ∈ [(false, ['a', ',']), (false, ['b', '"'])],
        NeedsQuotes p.1 p.2 → p.2.getLast? ≠ some '\\' :=
  functionParams_roundTrip_iff (.cons (by decide) (.cons (by decide) .nil))

/-- The validator takes the closing quote behind an escaped backslash for an escaped one. -/
theorem functionParams_backslash :
    zbxFunctionParamQuote false true ['a', ',', '\\'] =
        some ['"', 'a', ',', '\\', '\\', '"'] ∧
      (functionValidateParameters none
        (joinParams [['"', 'a', ',', '\\', '\\', '"']])).ret = false ∧
      ¬ RoundTrips [(false, ['a', ',', '\\'])]
        (joinParams [['"', 'a', ',', '\\', '\\', '"']]) :=
  ⟨by decide, by decide, fun h => absurd h.valid.1 (by decide)⟩

end Zabbix.Expr
