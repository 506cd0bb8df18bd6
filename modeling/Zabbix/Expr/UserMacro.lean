import Mathlib.Data.List.DropRight
import Zabbix.Expr.KeyQuoting
import Zabbix.Interval.Validate

/-!
# Contexts of user macros

`macro.c`: what `zbx_user_macro_quote_context_dyn` makes of a context is read back from a user
macro, but for a context without quotes that is taken for a regular expression.
-/

namespace Zabbix.Expr

open List

open Zabbix.Interval (zbxIsMacroChar quotedContext)

inductive ContextOp
  | equal
  | regexp
  deriving DecidableEq

def zbxMacroRegexPrefix : List Char := ['r', 'e', 'g', 'e', 'x', ':']

structure UserMacro where
  macroR : ℕ
  contextL : ℕ
  contextR : ℕ
  contextOp : Option ContextOp
  deriving DecidableEq

/-- The end of `zbx_user_macro_parse`, from the context separator on. -/
def userMacroContext (macroText : List Char) (i : ℕ) (contextOp : Option ContextOp) :
    Option UserMacro :=
  let contextL := i + ((macroText.drop i).takeWhile (· = ' ')).length
  if charAt (macroText.drop contextL) = '"' then
    (quotedContext (contextL + 1) (macroText.drop (contextL + 1))).bind fun contextR =>
      let i := contextR + 1 + ((macroText.drop (contextR + 1)).takeWhile (· = ' ')).length
      if charAt (macroText.drop i) ≠ '}' then none
      else some { macroR := i, contextL, contextR, contextOp }
  else
    let i := contextL + ((macroText.drop contextL).takeWhile (· ≠ '}')).length
    if macroText.drop i = [] then none
    else some { macroR := i, contextL, contextR := i - 1, contextOp }

/-- `zbx_user_macro_parse`; `wantOp` is whether `context_op` is not `NULL`. -/
def zbxUserMacroParse (wantOp : Bool) (macroText : List Char) : Option UserMacro :=
  let i := 2 + ((macroText.drop 2).takeWhile zbxIsMacroChar).length
  if i = 2 then none
  else if charAt (macroText.drop i) = '}' then
    some {
      macroR := i
      contextL := 0
      contextR := 0
      contextOp := if wantOp then some .equal else none }
  else if charAt (macroText.drop i) ≠ ':' then none
  else if wantOp then
    if zbxMacroRegexPrefix <+: macroText.drop (i + 1) then
      userMacroContext macroText (i + 1 + zbxMacroRegexPrefix.length) (some .regexp)
    else userMacroContext macroText (i + 1) (some .equal)
  else userMacroContext macroText (i + 1) none

/-- The loop of `zbx_user_macro_unquote_context_dyn` over `len` characters; behind an escape one
more is read. -/
def unquoteContextLoop (quoted : Bool) : ℕ → List Char → List Char
  | 0, _ => []
  | 1, context =>
    if quoted ∧ charAt context = '\\' ∧ charAt context.tail = '"' then [charAt context.tail]
    else [charAt context]
  | len + 2, context =>
    if quoted ∧ charAt context = '\\' ∧ charAt context.tail = '"' then
      charAt context.tail :: unquoteContextLoop quoted len context.tail.tail
    else charAt context :: unquoteContextLoop quoted (len + 1) context.tail

/-- `zbx_user_macro_unquote_context_dyn`. The last character of a quoted context is dropped; with
the opening quote alone the terminator would go in front of the text. -/
def zbxUserMacroUnquoteContextDyn (context : List Char) (len : ℕ) : Option (List Char) :=
  if charAt context = '"' then
    if len ≤ 1 then none else some (unquoteContextLoop true (len - 1) context.tail).dropLast
  else some (unquoteContextLoop false len context)

def zbxUserMacroQuoteContextDyn (context : List Char) (forceQuote : Bool) :
    Except String (List Char) :=
  let reqQuote := charAt context = '"' ∨ charAt context = ' ' ∨ '}' ∈ context
  if ¬ reqQuote ∧ (forceQuote = false ∨ context.getLast? = some '\\') then .ok context
  else if ('"' :: escapeQuotes context).getLast? = some '\\' then
    .error ("quoted context \"" ++ String.ofList context ++ "\" cannot end with '\\' character")
  else .ok ('"' :: (escapeQuotes context ++ ['"']))

structure UserMacroDyn where
  name : List Char
  context : Option (List Char)
  length : ℕ
  contextOp : Option ContextOp

def zbxUserMacroParseDyn (wantOp : Bool) (macroText : List Char) : Option UserMacroDyn :=
  (zbxUserMacroParse wantOp macroText).bind fun m =>
    let length := m.macroR + 1
    if m.contextL ≠ 0 then
      -- the separator is found by stripping spaces before the context
      let len := ((macroText.take m.contextL).rdropWhile (· = ' ')).length
      let len := if m.contextOp = some .regexp then len - zbxMacroRegexPrefix.length else len
      (zbxUserMacroUnquoteContextDyn (macroText.drop m.contextL)
        (m.contextR + 1 - m.contextL)).map fun context => {
          name := macroText.take (len - 1) ++ ['}']
          context := some context
          length
          contextOp := m.contextOp }
    else
      some {
        name := macroText.take (m.macroR + 1)
        context := none
        length
        contextOp := m.contextOp }

variable {v rest : List Char} {c : Char}

theorem quotedContext_cons (hc : c ≠ '"') (h : c ≠ '\\' ∨ charAt rest ≠ '"') (i : ℕ) :
    quotedContext i (c :: rest) = quotedContext (i + 1) rest := by
  rw [quotedContext]
  · exact fun heq => absurd heq hc
  · rintro text rfl rfl
    exact h.elim (fun hne => hne rfl) (fun hne => hne rfl)

theorem quotedContext_escapeQuotes (h : v.getLast? ≠ some '\\') (rest : List Char) (i : ℕ) :
    quotedContext i (escapeQuotes v ++ '"' :: rest) = some (i + (escapeQuotes v).length) := by
  revert i
  refine escapeQuotes_induction (motive := fun v => ∀ i, quotedContext i (escapeQuotes v ++ '"' :: rest) =
    some (i + (escapeQuotes v).length)) (fun i => ?_) (fun v ih i => ?_) (fun c v hc hback ih i => ?_) h
  · rfl
  · rw [escapeQuotes_quote, cons_append, cons_append, quotedContext, ih]
    simp only [length_cons]
    congr 1
    omega
  · rw [escapeQuotes_other hc, cons_append, quotedContext_cons hc (hback _), ih, length_cons]
    congr 1
    omega

theorem unquoteContext_cons {len : ℕ} (h : c ≠ '\\' ∨ charAt rest ≠ '"') :
    unquoteContextLoop true (len + 1) (c :: rest) = c :: unquoteContextLoop true len rest := by
  have hkeep : ¬ (true = true ∧ charAt (c :: rest) = '\\' ∧ charAt rest = '"') :=
    fun h' => h.elim (fun hne => hne h'.2.1) (fun hne => hne h'.2.2)
  cases len with
  | zero => exact if_neg hkeep
  | succ len => exact if_neg hkeep

theorem unquoteContext_escapeQuotes (h : v.getLast? ≠ some '\\') (len : ℕ) (rest : List Char) :
    unquoteContextLoop true ((escapeQuotes v).length + len) (escapeQuotes v ++ rest) =
      v ++ unquoteContextLoop true len rest := by
  refine escapeQuotes_induction (motive := fun v =>
    unquoteContextLoop true ((escapeQuotes v).length + len) (escapeQuotes v ++ rest) =
      v ++ unquoteContextLoop true len rest) ?_ (fun v ih => ?_) (fun c v hc hback ih => ?_) h
  · rw [nil_append]
    exact congrArg (unquoteContextLoop true · rest) (Nat.zero_add len)
  · rw [escapeQuotes_quote, length_cons, length_cons,
      show (escapeQuotes v).length + 1 + 1 + len = (escapeQuotes v).length + len + 2 by omega]
    exact congrArg ('"' :: ·) ih
  · rw [escapeQuotes_other hc, List.length_cons, List.cons_append, Nat.add_right_comm,
      unquoteContext_cons (hback rest), ih, List.cons_append]

theorem unquoteContext_plain (v rest : List Char) :
    unquoteContextLoop false v.length (v ++ rest) = v := by
  induction v with
  | nil => rfl
  | cons c v ih =>
    cases v with
    | nil => rfl
    | cons d v => exact congrArg (c :: ·) ih

theorem zbxUserMacroQuoteContextDyn_cases {context q : List Char} {forceQuote : Bool}
    (h : zbxUserMacroQuoteContextDyn context forceQuote = .ok q) :
    (q = context ∧ charAt context ≠ '"' ∧ charAt context ≠ ' ' ∧ '}' ∉ context) ∨
      (q = '"' :: (escapeQuotes context ++ ['"']) ∧ context.getLast? ≠ some '\\') := by
  unfold zbxUserMacroQuoteContextDyn at h
  dsimp only at h
  split_ifs at h with hkeep hback
  · cases h
    obtain ⟨hquote, hspace, hclose⟩ := by simpa only [not_or] using hkeep.1
    exact .inl ⟨rfl, hquote, hspace, hclose⟩
  · cases h
    refine .inr ⟨rfl, fun hlast => hback ?_⟩
    obtain ⟨front, rfl⟩ := getLast?_eq_some_iff.mp hlast
    rw [escapeQuotes, flatMap_append, ← cons_append]
    exact getLast?_concat

def macroWith (name context : List Char) : List Char :=
  '{' :: '$' :: (name ++ ':' :: (context ++ ['}']))

variable {name context q : List Char} {i : ℕ} {contextOp : Option ContextOp}

theorem takeWhile_space (h : charAt v ≠ ' ') : v.takeWhile (· = ' ') = [] := by
  cases v with
  | nil => rfl
  | cons c v => exact takeWhile_cons_of_neg (by rw [decide_eq_true_eq]; exact h)

theorem userMacroContext_quote {forceQuote : Bool} {front : List Char}
    (h : zbxUserMacroQuoteContextDyn context forceQuote = .ok q) (rest : List Char) :
    userMacroContext (front ++ (q ++ '}' :: rest)) front.length contextOp =
        some ⟨front.length + q.length, front.length, front.length + q.length - 1, contextOp⟩ ∧
      zbxUserMacroUnquoteContextDyn (q ++ '}' :: rest) q.length = some context := by
  obtain ⟨rfl, hquote, hspace, hclose⟩ | ⟨rfl, hlast⟩ := zbxUserMacroQuoteContextDyn_cases h
  · have hhead (c : Char) (hc : charAt q ≠ c) (hne : c ≠ '}') : charAt (q ++ '}' :: rest) ≠ c := by
      cases q with
      | nil => exact hne.symm
      | cons d q => exact hc
    have hspaces := takeWhile_space (hhead ' ' hspace (by decide))
    have hcontext : (q ++ '}' :: rest).takeWhile (· ≠ '}') = q := by
      rw [takeWhile_append_of_pos, takeWhile_cons_of_neg (by decide), append_nil]
      intro c hc
      rw [decide_eq_true_eq]
      exact fun heq => hclose (heq ▸ hc)
    constructor
    · unfold userMacroContext
      simp only [drop_left, hspaces, length_nil, Nat.add_zero,
        if_neg (hhead '"' hquote (by decide)), hcontext]
      rw [if_neg]
      rw [← List.append_assoc, List.drop_left' List.length_append]
      exact List.cons_ne_nil _ _
    · rw [zbxUserMacroUnquoteContextDyn, if_neg (hhead '"' hquote (by decide)),
        unquoteContext_plain]
  · have htext : '"' :: (escapeQuotes context ++ ['"']) ++ '}' :: rest =
        '"' :: (escapeQuotes context ++ '"' :: '}' :: rest) := by
      rw [cons_append, append_assoc, singleton_append]
    have hlength : ('"' :: (escapeQuotes context ++ ['"'])).length =
        (escapeQuotes context).length + 2 := by
      rw [length_cons, length_append]
      rfl
    rw [htext, hlength]
    constructor
    · have hopen : (front ++ '"' :: (escapeQuotes context ++ '"' :: '}' :: rest)).drop
          (front.length + 1) = escapeQuotes context ++ '"' :: '}' :: rest := by
        rw [← List.singleton_append, ← List.append_assoc]
        exact List.drop_left' List.length_append
      have hclose : (front ++ '"' :: (escapeQuotes context ++ '"' :: '}' :: rest)).drop
          (front.length + 1 + (escapeQuotes context).length + 1) = '}' :: rest := by
        rw [Nat.add_assoc, ← List.drop_drop, hopen, ← List.singleton_append (x := '"'),
          ← append_assoc]
        exact drop_left' length_append
      have hspaces := takeWhile_space
        (show charAt ('"' :: (escapeQuotes context ++ '"' :: '}' :: rest)) ≠ ' ' by
          rw [charAt_cons]
          decide)
      have hspaces' := takeWhile_space (show charAt ('}' :: rest) ≠ ' ' by
        rw [charAt_cons]
        decide)
      unfold userMacroContext
      simp only [drop_left, hspaces, length_nil, Nat.add_zero, charAt_cons, if_true,
        hopen, quotedContext_escapeQuotes hlast, Option.bind_some, hclose, hspaces', ne_eq,
        not_true_eq_false, if_false]
      refine congrArg some ?_
      congr 1 <;> omega
    · have hread := unquoteContext_escapeQuotes hlast 1 ('"' :: '}' :: rest)
      rw [zbxUserMacroUnquoteContextDyn, charAt_cons, if_pos rfl, if_neg (by omega),
        List.tail_cons, Nat.add_sub_assoc (by omega), hread]
      exact congrArg some List.dropLast_concat

theorem parse_macroWith {wantOp : Bool} (hname : name ≠ [])
    (hchars : ∀ c ∈ name, zbxIsMacroChar c = true) (context rest : List Char) :
    zbxUserMacroParse wantOp (macroWith name context ++ rest) =
      if wantOp then
        if zbxMacroRegexPrefix <+: context ++ '}' :: rest then
          userMacroContext (macroWith name context ++ rest) (name.length + 3 + 6) (some .regexp)
        else userMacroContext (macroWith name context ++ rest) (name.length + 3) (some .equal)
      else userMacroContext (macroWith name context ++ rest) (name.length + 3) none := by
  have htext : macroWith name context ++ rest =
      '{' :: '$' :: (name ++ ':' :: (context ++ '}' :: rest)) := by
    simp [macroWith]
  have hspan : (name ++ ':' :: (context ++ '}' :: rest)).takeWhile zbxIsMacroChar = name := by
    rw [List.takeWhile_append_of_pos hchars, List.takeWhile_cons_of_neg (by decide),
      List.append_nil]
  have hbehind : ('{' :: '$' :: (name ++ ':' :: (context ++ '}' :: rest))).drop (2 + name.length) =
      ':' :: (context ++ '}' :: rest) := by
    rw [Nat.add_comm]
    exact List.drop_left
  have hcontext : ('{' :: '$' :: (name ++ ':' :: (context ++ '}' :: rest))).drop
      (2 + name.length + 1) = context ++ '}' :: rest := by
    rw [← List.drop_drop, hbehind]
    rfl
  have hlength : 0 < name.length := List.length_pos_of_ne_nil hname
  have hindex : 2 + name.length + 1 = name.length + 3 := by omega
  rw [htext, zbxUserMacroParse]
  rw [show ('{' :: '$' :: (name ++ ':' :: (context ++ '}' :: rest))).drop 2 =
    name ++ ':' :: (context ++ '}' :: rest) from rfl, hspan, if_neg (by omega), hbehind, charAt_cons,
    if_neg (by decide), if_neg (by decide), hcontext, hindex]
  rfl

/-- A context in a user macro is found again, as the whole context of one macro. -/
structure ContextKept (wantOp : Bool) (name context q : List Char) : Prop where
  accepted : ∀ rest, ∃ m, zbxUserMacroParse wantOp (macroWith name q ++ rest) = some m ∧
    m.macroR + 1 = (macroWith name q).length
  read : ∀ rest, ∃ d, zbxUserMacroParseDyn wantOp (macroWith name q ++ rest) = some d ∧
    d.name = '{' :: '$' :: (name ++ ['}']) ∧ d.context = some context ∧
    d.length = (macroWith name q).length

theorem regexPrefix_iff (q rest : List Char) :
    zbxMacroRegexPrefix <+: q ++ '}' :: rest ↔ zbxMacroRegexPrefix <+: q := by
  constructor
  · intro h
    obtain hbegins | ⟨more, hmore⟩ := List.prefix_or_prefix_of_prefix h (List.prefix_append q _)
    · exact hbegins
    cases more with
    | nil =>
      rw [List.append_nil] at hmore
      exact hmore ▸ List.prefix_refl q
    | cons c more =>
      rw [← hmore, List.prefix_append_right_inj, List.cons_prefix_cons] at h
      have hmem : '}' ∈ zbxMacroRegexPrefix := by
        rw [← hmore, ← h.1]
        exact List.mem_append_right q List.mem_cons_self
      exact absurd hmem (by decide)
  · exact fun h => h.trans (List.prefix_append q _)

theorem macroWith_eq (name q rest : List Char) : macroWith name q ++ rest =
    '{' :: '$' :: (name ++ [':']) ++ (q ++ '}' :: rest) := by
  simp [macroWith]

theorem length_macroWith (name q : List Char) :
    (macroWith name q).length = name.length + 3 + q.length + 1 := by
  simp only [macroWith, List.length_cons, List.length_append, List.length_nil]
  omega

theorem contextKept_of_parse {wantOp forceQuote : Bool} (contextOp : Option ContextOp)
    (h : zbxUserMacroQuoteContextDyn context forceQuote = .ok q) (hop : contextOp ≠ some .regexp)
    (hparse : ∀ rest, zbxUserMacroParse wantOp (macroWith name q ++ rest) =
      userMacroContext (macroWith name q ++ rest) (name.length + 3) contextOp) :
    ContextKept wantOp name context q := by
  have hfront : ('{' :: '$' :: (name ++ [':'])).length = name.length + 3 := by
    rw [List.length_cons, List.length_cons, List.length_append]
    rfl
  have hmacro (rest : List Char) : zbxUserMacroParse wantOp (macroWith name q ++ rest) =
      some ⟨name.length + 3 + q.length, name.length + 3, name.length + 3 + q.length - 1,
        contextOp⟩ := by
    rw [hparse, macroWith_eq, ← hfront]
    exact (userMacroContext_quote h rest).1
  constructor
  · exact fun rest => ⟨_, hmacro rest, (length_macroWith name q).symm⟩
  · intro rest
    have hname : ((macroWith name q ++ rest).take (name.length + 3)).rdropWhile (· = ' ') =
        '{' :: '$' :: (name ++ [':']) := by
      rw [macroWith_eq, List.take_left' hfront]
      exact List.rdropWhile_concat_neg _ ('{' :: '$' :: name) ':' (by decide)
    have htake : (macroWith name q ++ rest).take (name.length + 2) = '{' :: '$' :: name := by
      have hsplit : macroWith name q ++ rest =
          ('{' :: '$' :: name) ++ (':' :: (q ++ '}' :: rest)) := by simp [macroWith]
      rw [hsplit]
      exact List.take_left' rfl
    have hunquote := (@userMacroContext_quote context q contextOp forceQuote [] h rest).2
    have hlength : name.length + 3 + q.length - 1 + 1 - (name.length + 3) = q.length := by omega
    have hdrop : (macroWith name q ++ rest).drop (name.length + 3) = q ++ '}' :: rest := by
      rw [macroWith_eq]
      exact List.drop_left' hfront
    refine ⟨⟨'{' :: '$' :: name ++ ['}'], some context, name.length + 3 + q.length + 1, contextOp⟩,
      ?_, rfl, rfl, (length_macroWith name q).symm⟩
    rw [zbxUserMacroParseDyn, hmacro, Option.bind_some]
    dsimp only
    rw [if_pos (by omega), hname, if_neg hop, hlength, hdrop, hunquote, hfront,
      Nat.add_sub_cancel (m := 1), htake]
    rfl

theorem length_unquoteContextLoop (quoted : Bool) (len : ℕ) (text : List Char) :
    (unquoteContextLoop quoted len text).length ≤ len := by
  induction len, text using unquoteContextLoop.induct quoted with
  | case1 => exact Nat.le_refl 0
  | case2 text h | case3 text h =>
    rw [unquoteContextLoop]
    split_ifs
    exact Nat.le_refl 1
  | case4 text len h ih =>
    rw [unquoteContextLoop, if_pos h, List.length_cons]
    omega
  | case5 text len h ih =>
    rw [unquoteContextLoop, if_neg h, List.length_cons]
    omega

theorem length_unquoteContext {text : List Char} {len : ℕ}
    (h : zbxUserMacroUnquoteContextDyn text len = some v) : v.length ≤ len := by
  unfold zbxUserMacroUnquoteContextDyn at h
  split_ifs at h
  · obtain rfl := Option.some.inj h
    have hlength := length_unquoteContextLoop true (len - 1) text.tail
    rw [List.length_dropLast]
    omega
  · obtain rfl := Option.some.inj h
    exact length_unquoteContextLoop false len text

theorem userMacroContext_bounds {text : List Char} {m : UserMacro} (hi : 0 < i)
    (h : userMacroContext text i contextOp = some m) :
    i ≤ m.contextL ∧ m.contextR < m.macroR ∧ m.macroR < text.length := by
  have hinside {j : ℕ} (hne : text.drop j ≠ []) : j < text.length := by
    by_contra hle
    exact hne (List.drop_eq_nil_of_le (not_lt.mp hle))
  unfold userMacroContext at h
  dsimp only at h
  split_ifs at h with hquote hend
  · obtain ⟨contextR, -, h⟩ := Option.bind_eq_some_iff.mp h
    split_ifs at h with hclose
    obtain rfl := Option.some.inj h
    refine ⟨Nat.le_add_right _ _, by dsimp only; omega, hinside fun hnil => ?_⟩
    rw [hnil] at hclose
    exact absurd hclose (by decide)
  · obtain rfl := Option.some.inj h
    exact ⟨Nat.le_add_right _ _, by dsimp only; omega, hinside hend⟩

/-- A quoted context is found again in a user macro with any text behind it, if and only if it is
not taken for a regular expression. -/
theorem contextKept_iff {wantOp forceQuote : Bool} (hname : name ≠ [])
    (hchars : ∀ c ∈ name, zbxIsMacroChar c = true)
    (h : zbxUserMacroQuoteContextDyn context forceQuote = .ok q) :
    ContextKept wantOp name context q ↔ ¬ (wantOp = true ∧ zbxMacroRegexPrefix <+: q) := by
  constructor
  · rintro hkept ⟨rfl, hbegins⟩
    obtain ⟨d, hd, -, hcontext, -⟩ := hkept.read []
    obtain ⟨m, hm, hmap⟩ := Option.bind_eq_some_iff.mp hd
    have hregexp := hm
    rw [parse_macroWith hname hchars, if_pos rfl,
      if_pos ((regexPrefix_iff q []).mpr hbegins)] at hregexp
    obtain ⟨hl, hr, hmacro⟩ := userMacroContext_bounds (by omega) hregexp
    have hq : q = context := by
      obtain ⟨rfl, -⟩ | ⟨rfl, -⟩ := zbxUserMacroQuoteContextDyn_cases h
      · rfl
      · exact absurd (List.cons_prefix_cons.mp hbegins).1 (by decide)
    dsimp only at hmap
    rw [if_pos (by omega)] at hmap
    obtain ⟨v, hunquote, rfl⟩ := Option.map_eq_some_iff.mp hmap
    obtain rfl := Option.some.inj hcontext
    have hlength := length_unquoteContext hunquote
    have hsix : 6 ≤ q.length := hbegins.length_le
    rw [List.append_nil, length_macroWith] at hmacro
    rw [← hq] at hlength
    omega
  · intro hop
    cases wantOp with
    | false =>
      exact contextKept_of_parse none h (Option.some_ne_none _).symm fun rest =>
        (parse_macroWith hname hchars q rest).trans (if_neg Bool.false_ne_true)
    | true =>
      have hbegins (rest : List Char) : ¬ zbxMacroRegexPrefix <+: q ++ '}' :: rest :=
        fun hbegins => hop ⟨rfl, (regexPrefix_iff q rest).mp hbegins⟩
      refine contextKept_of_parse (some .equal) h (by decide) fun rest => ?_
      rw [parse_macroWith hname hchars, if_pos rfl, if_neg (hbegins rest)]

/-- A context with a closing brace and a quote. -/
theorem contextKept_brace :
    ContextKept true ['M'] ['}', '"'] ['"', '}', '\\', '"', '"'] ↔
      ¬ (true = true ∧ zbxMacroRegexPrefix <+: ['"', '}', '\\', '"', '"']) :=
  contextKept_iff (cons_ne_nil _ _) (all_eq_true.mp (by decide))
    (show zbxUserMacroQuoteContextDyn ['}', '"'] false = .ok ['"', '}', '\\', '"', '"'] by decide)

/-- A context that starts like a regular expression is not put into quotes. -/
theorem contextKept_regex :
    zbxUserMacroQuoteContextDyn ['r', 'e', 'g', 'e', 'x', ':', 'a'] false =
        .ok ['r', 'e', 'g', 'e', 'x', ':', 'a'] ∧
      (zbxUserMacroParseDyn true
        (macroWith ['M'] ['r', 'e', 'g', 'e', 'x', ':', 'a'])).bind (·.context) = some ['a'] ∧
      ¬ ContextKept true ['M'] ['r', 'e', 'g', 'e', 'x', ':', 'a']
        ['r', 'e', 'g', 'e', 'x', ':', 'a'] := by
  have hread : (zbxUserMacroParseDyn true
      (macroWith ['M'] ['r', 'e', 'g', 'e', 'x', ':', 'a'])).bind (·.context) = some ['a'] := by
    decide
  refine ⟨by decide, hread, fun hkept => ?_⟩
  obtain ⟨d, hd, -, hcontext, -⟩ := hkept.read []
  rw [append_nil] at hd
  rw [hd, Option.bind_some, hcontext] at hread
  exact absurd hread (by decide)

end Zabbix.Expr
