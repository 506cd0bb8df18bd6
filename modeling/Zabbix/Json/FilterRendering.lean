import Zabbix.Json.FilterPostfix

/-!
# Filter expressions and their texts

Abstract filter expressions, the texts they are written as, and what `jsonpath_parse_expression`
puts out for such a text.
-/

namespace Zabbix.JsonPath

open Option List Zabbix.Expr Zabbix.Json Zabbix.Postfix

variable {strtod : List Char → ℕ × Bool}
variable {type : TokenType} {text token expression close next : List Char} {prevGroup : TokenGroup}
  {popped operators output tokens : List Token} {written : List Char → Prop} {wrap : Prop}

structure Operand (strtod : List Char → ℕ × Bool) where
  type : TokenType
  text : List Char
  token : Token
  group : jsonpathTokenGroup type = .operand
  alone : tokenAt strtod text .none = some (type, text.length)
  -- `strtod` reads a number in the same way when no part of a number follows
  number : type = .constNum → ∀ rest, Delimited rest → strtod (text ++ rest) = strtod text
  created : jsonpathCreateToken type text = .ok token

variable (o : Operand strtod)

theorem Operand.text_ne_nil : o.text ≠ [] := by
  intro hnil
  have halone := o.alone
  rw [hnil] at halone
  cases halone

theorem tokenAt_number_append {rest : List Char}
    (halone : (if charAt text = '-' ∨ isdigit (charAt text) = true then
      (jsonpathParseNumber strtod text).map fun len => (TokenType.constNum, len) else none) =
        some (type, text.length)) (hrest : Delimited rest)
    (hnumber : type = .constNum → strtod (text ++ rest) = strtod text) :
    (if charAt text = '-' ∨ isdigit (charAt text) = true then
      (jsonpathParseNumber strtod (text ++ rest)).map fun len => (TokenType.constNum, len) else none) =
        some (type, text.length) := by
  split_ifs at halone ⊢
  obtain ⟨len, hlen, heq⟩ := map_eq_some_iff.mp halone
  obtain ⟨rfl, rfl⟩ := Prod.mk.inj heq
  rw [jsonpathParseNumber_append hlen hrest (hnumber rfl), map_some]

theorem Operand.tokenAt_append {rest : List Char} (hrest : Delimited rest)
    (hprev : prevGroup ≠ .operand) :
    tokenAt strtod (o.text ++ rest) prevGroup = some (o.type, o.text.length) := by
  have hne := o.text_ne_nil
  have halone := o.alone
  have hgroup := o.group
  have hnumber := fun htype => o.number htype rest hrest
  generalize o.type = type at *
  generalize o.text = text at *
  unfold tokenAt at halone ⊢
  dsimp only at halone ⊢
  rw [charAt_append hne]
  have hoperator : ∀ {t : TokenType} {n : ℕ}, some (t, n) = some (type, text.length) →
      jsonpathTokenGroup t ≠ .operand → False := by
    intro t n heq hne
    obtain ⟨rfl, -⟩ := Prod.mk.inj (Option.some.inj heq)
    exact hne hgroup
  split at halone
  case h_4 h =>
    rw [if_neg nofun] at halone
    rw [if_neg hprev]
    exact tokenAt_number_append halone hrest hnumber
  case h_13 h =>
    obtain ⟨len, hlen, heq⟩ := map_eq_some_iff.mp halone
    obtain ⟨rfl, rfl⟩ := Prod.mk.inj heq
    simp only [jsonpathParsePath_append hne hlen hrest, map_some]
  case h_14 h =>
    obtain ⟨len, hlen, heq⟩ := map_eq_some_iff.mp halone
    obtain ⟨rfl, rfl⟩ := Prod.mk.inj heq
    simp only [jsonpathParsePath_append hne hlen hrest, map_some]
  case h_15 h =>
    obtain ⟨len, hlen, heq⟩ := map_eq_some_iff.mp halone
    obtain ⟨rfl, rfl⟩ := Prod.mk.inj heq
    simp only [jsonpathParseSubstring_append hne hlen, map_some]
  case h_16 h =>
    obtain ⟨len, hlen, heq⟩ := map_eq_some_iff.mp halone
    obtain ⟨rfl, rfl⟩ := Prod.mk.inj heq
    simp only [jsonpathParseSubstring_append hne hlen, map_some]
  case h_17 => exact tokenAt_number_append halone hrest hnumber
  all_goals first
    | exact (hoperator halone nofun).elim
    | split_ifs at halone <;> exact (hoperator halone nofun).elim

theorem Operand.charAt_ne : isWhitespace (charAt o.text) = false ∧ charAt o.text ≠ '=' := by
  have halone := o.alone
  have hgroup := o.group
  have hnumber : ∀ c, charAt o.text = c → ¬ (c = '-' ∨ isdigit c = true) → (∀ d : Char, c = d →
      d ∉ ['(', ')', '+', '-', '/', '*', '!', '=', '<', '>', '|', '&', '@', '$', '\'', '"']) → False := by
    intro c hc hdigit hne
    unfold tokenAt at halone
    dsimp only at halone
    rw [hc] at halone
    split at halone <;> first
      | exact hne _ rfl (by decide)
      | (rw [if_neg hdigit] at halone; cases halone)
  refine ⟨Bool.eq_false_iff.mpr fun hspace => ?_, fun heq => ?_⟩
  · simp only [isWhitespace, Bool.or_eq_true, decide_eq_true_eq] at hspace
    obtain ((hc | hc) | hc) | hc := hspace
    all_goals exact hnumber _ hc (by decide) (by rintro d rfl; decide)
  · unfold tokenAt at halone
    dsimp only at halone
    rw [heq] at halone
    change (if charAt o.text.tail = '=' then some (TokenType.opEq, 2)
      else if charAt o.text.tail = '~' then some (.opRegexp, 2) else none) = _ at halone
    split_ifs at halone
    all_goals
      obtain ⟨htype, -⟩ := Prod.mk.inj (Option.some.inj halone)
      rw [← htype] at hgroup
      cases hgroup

def BinaryOperator : Type := { type : TokenType // jsonpathTokenGroup type = .operator2 }

inductive FilterExpr (strtod : List Char → ℕ × Bool)
  | operand (o : Operand strtod)
  | paren (x : FilterExpr strtod)
  | not (x : FilterExpr strtod)
  | binary (op : BinaryOperator) (l r : FilterExpr strtod)

def operatorToken (type : TokenType) : Token := { type := type, text := [], path := [] }

def symbol : TokenType → List Char
  | .opPlus => ['+']
  | .opMinus => ['-']
  | .opMult => ['*']
  | .opDiv => ['/']
  | .opEq => ['=', '=']
  | .opNe => ['!', '=']
  | .opGt => ['>']
  | .opGe => ['>', '=']
  | .opLt => ['<']
  | .opLe => ['<', '=']
  | .opNot => ['!']
  | .opAnd => ['&', '&']
  | .opOr => ['|', '|']
  | .opRegexp => ['=', '~']
  | .parenLeft => ['(']
  | .parenRight => [')']
  | _ => []

namespace FilterExpr

def precedence : FilterExpr strtod → ℕ
  | operand _ => 0
  | paren _ => 0
  | not _ => jsonpathTokenPrecedence .opNot
  | binary op _ _ => jsonpathTokenPrecedence op.1

def postorder : FilterExpr strtod → List Token
  | operand o => [o.token]
  | paren x => x.postorder
  | not x => x.postorder ++ [operatorToken .opNot]
  | binary op l r => l.postorder ++ r.postorder ++ [operatorToken op.1]

def isNegation : FilterExpr strtod → Bool
  | not _ => true
  | _ => false

def NoDoubleNegation : FilterExpr strtod → Prop
  | operand _ => True
  | paren x => x.NoDoubleNegation
  | not x => x.isNegation = false ∧ x.NoDoubleNegation
  | binary _ l r => l.NoDoubleNegation ∧ r.NoDoubleNegation

end FilterExpr

def Spaced (token text : List Char) : Prop :=
  ∃ space, (∀ c ∈ space, isWhitespace c = true) ∧ text = space ++ token

def Wrapped (written : List Char → Prop) (text : List Char) : Prop :=
  ∃ left inner right, Spaced (symbol .parenLeft) left ∧ written inner ∧
    Spaced (symbol .parenRight) right ∧ text = left ++ inner ++ right

def Child (wrap : Prop) (written : List Char → Prop) (text : List Char) : Prop :=
  wrap ∧ Wrapped written text ∨ ¬ wrap ∧ written text

def FilterExpr.WrittenAs : FilterExpr strtod → List Char → Prop
  | operand o, text => Spaced o.text text
  | paren x, text => Wrapped x.WrittenAs text
  | not x, text => ∃ sign inner, Spaced (symbol .opNot) sign ∧
      Child (jsonpathTokenPrecedence .opNot < x.precedence) x.WrittenAs inner ∧ text = sign ++ inner
  | binary op l r, text => ∃ left sign right,
      Child (jsonpathTokenPrecedence op.1 < l.precedence) l.WrittenAs left ∧
      Spaced (symbol op.1) sign ∧
      Child (jsonpathTokenPrecedence op.1 ≤ r.precedence) r.WrittenAs right ∧
      text = left ++ sign ++ right

def FilterExpr.emitted : FilterExpr strtod → List Token
  | operand o => [o.token]
  | paren x => x.emitted
  | not x =>
    if x.isNegation then operatorToken .opNot :: x.emitted
    else x.emitted ++ [operatorToken .opNot]
  | binary op l r => l.emitted ++ r.emitted ++ [operatorToken op.1]

variable (e : FilterExpr strtod)

theorem FilterExpr.length_emitted : e.emitted.length = e.postorder.length := by
  induction e with
  | operand o => rfl
  | paren x ih => exact ih
  | not x ih =>
    rw [emitted, postorder]
    split_ifs <;> simp [ih]
  | binary op l r ihl ihr => simp [emitted, postorder, ihl, ihr]

theorem FilterExpr.head_postorder :
    ∃ t rest, e.postorder = t :: rest ∧ jsonpathTokenGroup t.type = .operand := by
  induction e with
  | operand o => exact ⟨o.token, [], rfl, createToken_type o.created ▸ o.group⟩
  | paren x ih => exact ih
  | not x ih =>
    obtain ⟨t, rest, heq, hgroup⟩ := ih
    exact ⟨t, rest ++ [operatorToken .opNot], by simp [postorder, heq], hgroup⟩
  | binary op l r ihl ihr =>
    obtain ⟨t, rest, heq, hgroup⟩ := ihl
    exact ⟨t, rest ++ r.postorder ++ [operatorToken op.1], by simp [postorder, heq], hgroup⟩

theorem FilterExpr.emitted_eq_postorder_iff : e.emitted = e.postorder ↔ e.NoDoubleNegation := by
  induction e with
  | operand o => exact iff_of_true rfl trivial
  | paren x ih => exact ih
  | not x ih =>
    rw [emitted, postorder, NoDoubleNegation, ← ih]
    split_ifs with hnegation
    · rw [hnegation]
      refine iff_of_false (fun heq => ?_) (fun h => nomatch h.1)
      obtain ⟨t, rest, hpost, hgroup⟩ := x.head_postorder
      rw [hpost] at heq
      obtain ⟨rfl, -⟩ := List.cons.inj heq
      cases hgroup
    · simp [hnegation]
  | binary op l r ihl ihr =>
    rw [emitted, postorder, NoDoubleNegation, ← ihl, ← ihr, append_left_inj]
    refine ⟨fun heq => append_inj heq l.length_emitted, ?_⟩
    rintro ⟨hl, hr⟩
    rw [hl, hr]

variable {state state' : ParseState} {ptr ptr' rest : List Char}

inductive Run (strtod : List Char → ℕ × Bool) :
    ParseState → List Char → ParseState → List Char → Prop
  | refl (state : ParseState) (ptr : List Char) : Run strtod state ptr state ptr
  | step {state next state' : ParseState} {ptr after ptr' text : List Char} {type : TokenType}
      (hlex : jsonpathExpressionNextToken strtod state.prevGroup ptr = .ok (type, text, after))
      (hlength : after.length < ptr.length)
      (hparse : parseToken state type text (skipWhitespace ptr) = .ok (.more next))
      (hrest : Run strtod next after state' ptr') : Run strtod state ptr state' ptr'

theorem Run.trans {state'' : ParseState} {ptr'' : List Char} (h : Run strtod state ptr state' ptr')
    (h' : Run strtod state' ptr' state'' ptr'') : Run strtod state ptr state'' ptr'' := by
  induction h with
  | refl => exact h'
  | step hlex hlength hparse _ ih => exact .step hlex hlength hparse (ih h')

theorem Run.loop {result : Except String (ParseState × List Char)}
    (h : Run strtod state ptr state' ptr')
    (hresult : ∀ fuel, ptr'.length ≤ fuel → expressionLoop strtod fuel state' ptr' = result) :
    ∀ fuel, ptr.length ≤ fuel → expressionLoop strtod fuel state ptr = result := by
  induction h with
  | refl => exact hresult
  | step hlex hlength hparse _ ih =>
    intro fuel hfuel
    obtain ⟨fuel, rfl⟩ : ∃ k, fuel = k + 1 := ⟨fuel - 1, by omega⟩
    rw [expressionLoop, hlex]
    simp only [Except.bind, hparse]
    exact ih hresult fuel (by omega)

theorem Spaced.charAt (h : Spaced token text) (hne : token ≠ []) :
    (isWhitespace (charAt text) = true ∨ Expr.charAt text = Expr.charAt token) ∧ text ≠ [] := by
  obtain ⟨space, hspace, rfl⟩ := h
  cases space with
  | nil => exact ⟨.inr rfl, hne⟩
  | cons c space => exact ⟨.inl (hspace c mem_cons_self), nofun⟩

theorem nextToken_of_spaced (hspaced : Spaced token text) (hne : token ≠ [])
    (hword : isWhitespace (charAt token) = false)
    (htoken : tokenAt strtod (token ++ rest) prevGroup = some (type, token.length)) :
    jsonpathExpressionNextToken strtod prevGroup (text ++ rest) = .ok (type, token, rest) ∧
      rest.length < (text ++ rest).length := by
  obtain ⟨space, hspace, rfl⟩ := hspaced
  have hskip : skipWhitespace (space ++ token ++ rest) = token ++ rest := by
    rw [skipWhitespace, append_assoc, dropWhile_append_of_pos hspace]
    cases token with
    | nil => exact absurd rfl hne
    | cons c token => exact dropWhile_cons_of_neg (Bool.eq_false_iff.mp hword)
  have hpos := length_pos_iff.mpr hne
  refine ⟨?_, by simp; omega⟩
  unfold jsonpathExpressionNextToken
  dsimp only
  rw [hskip, htoken]
  simp

theorem symbol_facts : ∀ {type : TokenType}, jsonpathTokenGroup type ≠ .operand →
    symbol type ≠ [] ∧ isWhitespace (charAt (symbol type)) = false ∧
      charAt (symbol type) ≠ '[' := by
  intro type h
  cases type <;> first | exact absurd rfl h | decide

theorem tokenAt_symbol (hgroup : jsonpathTokenGroup type = .operator2 ∧ prevGroup = .operand ∨
      jsonpathTokenGroup type = .operator1 ∨ jsonpathTokenGroup type = .none)
    (hrest : charAt rest ≠ '=') :
    tokenAt strtod (symbol type ++ rest) prevGroup = some (type, (symbol type).length) := by
  cases type
  all_goals first
    | (obtain ⟨⟨⟩, -⟩ | ⟨⟨⟩⟩ | ⟨⟨⟩⟩ := hgroup; done)
    | rfl
    | (obtain ⟨-, rfl⟩ | ⟨⟨⟩⟩ | ⟨⟨⟩⟩ := hgroup; rfl)
    | exact if_neg hrest

def Guard (precedence : ℕ) (operators : List Token) : Prop :=
  ∀ t ∈ operators.head?, precedence < jsonpathTokenPrecedence t.type ∨ t.type = .parenLeft

def Popped (precedence : ℕ) (tokens : List Token) : Prop :=
  ∀ t ∈ tokens, jsonpathTokenPrecedence t.type ≤ precedence ∧ t.type ≠ .parenLeft

theorem popOperators_append {precedence : ℕ} (hpopped : Popped precedence popped)
    (hguard : Guard precedence operators) :
    popOperators precedence (popped ++ operators) output = (operators, output ++ popped) := by
  induction popped generalizing output with
  | nil =>
    rw [nil_append, append_nil]
    cases operators with
    | nil => rfl
    | cons t operators => exact if_pos (hguard t rfl)
  | cons t popped ih =>
    obtain ⟨hle, hleft⟩ := hpopped t mem_cons_self
    rw [cons_append, popOperators, if_neg (not_or.mpr ⟨not_lt.mpr hle, hleft⟩),
      ih fun s hs => hpopped s (mem_cons_of_mem t hs), append_assoc, singleton_append]

theorem popParen_append {precedence : ℕ} {paren : Token} (hpopped : Popped precedence popped)
    (hparen : paren.type = .parenLeft) :
    popParen (popped ++ paren :: operators) output = some (operators, output ++ popped) := by
  induction popped generalizing output with
  | nil =>
    rw [nil_append, append_nil]
    exact if_pos hparen
  | cons t popped ih =>
    rw [cons_append, popParen, if_neg (hpopped t mem_cons_self).2,
      ih fun s hs => hpopped s (mem_cons_of_mem t hs), append_assoc, singleton_append]

theorem run_one {next : ParseState} (hspaced : Spaced token text) (hne : token ≠ [])
    (hword : isWhitespace (charAt token) = false)
    (htoken : tokenAt strtod (token ++ rest) state.prevGroup = some (type, token.length))
    (hparse : ∀ ptr, parseToken state type token ptr = .ok (.more next)) :
    Run strtod state (text ++ rest) next rest := by
  obtain ⟨hlex, hlength⟩ := nextToken_of_spaced hspaced hne hword htoken
  exact .step hlex hlength (hparse _) (.refl _ _)

theorem run_operand (hspaced : Spaced o.text text) (hprev : state.prevGroup ≠ .operand)
    (hrest : Delimited rest) :
    Run strtod state (text ++ rest) { state with
      operators := o.token :: state.operators
      prevGroup := .operand } rest := by
  refine run_one hspaced o.text_ne_nil o.charAt_ne.1 (o.tokenAt_append hrest hprev) fun ptr => ?_
  rw [parseToken, o.group]
  simp only [if_neg hprev, o.created]
  rfl

theorem createToken_symbol (hgroup : jsonpathTokenGroup type ≠ .operand) :
    jsonpathCreateToken type text = .ok (operatorToken type) := by
  cases type <;> first | rfl | exact absurd rfl hgroup

theorem run_binary (op : BinaryOperator) (hspaced : Spaced (symbol op.1) text)
    (hprev : state.prevGroup = .operand) (hoperators : state.operators = popped ++ operators)
    (hpopped : Popped (jsonpathTokenPrecedence op.1) popped)
    (hguard : Guard (jsonpathTokenPrecedence op.1) operators) (hrest : charAt rest ≠ '=') :
    Run strtod state (text ++ rest) { state with
      operators := operatorToken op.1 :: operators
      output := state.output ++ popped
      prevGroup := .operator2 } rest := by
  have hgroup : jsonpathTokenGroup op.1 ≠ .operand := by
    rw [op.2]
    nofun
  obtain ⟨hne, hword, -⟩ := symbol_facts hgroup
  refine run_one hspaced hne hword (tokenAt_symbol (.inl ⟨op.2, hprev⟩) hrest) fun ptr => ?_
  rw [parseToken, op.2]
  simp only [hprev, ne_eq, not_true, if_false, hoperators, popOperators_append hpopped hguard,
    createToken_symbol hgroup]
  rfl

theorem run_not (hspaced : Spaced (symbol .opNot) text) (hprev : state.prevGroup ≠ .operand)
    (hoperators : state.operators = popped ++ operators)
    (hpopped : Popped (jsonpathTokenPrecedence .opNot) popped)
    (hguard : Guard (jsonpathTokenPrecedence .opNot) operators) (hrest : charAt rest ≠ '=') :
    Run strtod state (text ++ rest) { state with
      operators := operatorToken .opNot :: operators
      output := state.output ++ popped
      prevGroup := .operator1 } rest := by
  refine run_one hspaced (by decide) (by decide) (tokenAt_symbol (.inr (.inl rfl)) hrest)
    fun ptr => ?_
  rw [parseToken, show jsonpathTokenGroup .opNot = .operator1 from rfl]
  simp only [if_neg hprev, hoperators, popOperators_append hpopped hguard]
  rfl

theorem run_left (hspaced : Spaced (symbol .parenLeft) text) (hrest : charAt rest ≠ '=') :
    Run strtod state (text ++ rest) { state with
      nesting := state.nesting + 1
      operators := operatorToken .parenLeft :: state.operators
      prevGroup := .none } rest :=
  run_one hspaced (by decide) (by decide) (tokenAt_symbol (.inr (.inr rfl)) hrest) fun _ => rfl

theorem run_right {precedence : ℕ} {paren : Token} (hspaced : Spaced (symbol .parenRight) text)
    (hprev : state.prevGroup = .operand) (hnesting : state.nesting - 1 ≠ 0)
    (hparen : paren.type = .parenLeft) (hoperators : state.operators = popped ++ paren :: operators)
    (hpopped : Popped precedence popped) :
    Run strtod state (text ++ rest)
      { nesting := state.nesting - 1
        operators := operators
        output := state.output ++ popped
        prevGroup := .operand } rest := by
  refine run_one hspaced (by decide) (by decide) rfl fun ptr => ?_
  rw [parseToken, show jsonpathTokenGroup .parenRight = .none from rfl]
  simp only [hprev, ne_eq, not_true, if_false, hoperators, popParen_append hpopped hparen,
    if_neg hnesting]
  rfl

theorem Delimited.of_spaced (h : Spaced (symbol type) text)
    (htype : type = .parenRight ∨ jsonpathTokenGroup type = .operator2) :
    Delimited (text ++ rest) := by
  have hsymbol : symbol type ≠ [] ∧ charAt (symbol type) ∈ delimiters := by
    obtain rfl | htype := htype
    · decide
    · cases type <;> first | cases htype; done | decide
  obtain ⟨hchar, hne⟩ := h.charAt hsymbol.1
  rw [Delimited, charAt_append hne]
  obtain hspace | hchar := hchar
  · simp only [isWhitespace, Bool.or_eq_true, decide_eq_true_eq] at hspace
    obtain ((hc | hc) | hc) | hc := hspace
    all_goals
      rw [hc]
      decide
  · exact hchar ▸ hsymbol.2

theorem Spaced.ne_equals (h : Spaced token text) (hne : token ≠ [])
    (htoken : Expr.charAt token ≠ '=') : Expr.charAt (text ++ rest) ≠ '=' := by
  obtain ⟨hchar, hne⟩ := h.charAt hne
  rw [charAt_append hne]
  obtain hspace | hchar := hchar
  · intro heq
    rw [heq] at hspace
    exact absurd hspace (by decide)
  · rwa [hchar]

theorem Wrapped.ne_equals (h : Wrapped written text) : charAt (text ++ rest) ≠ '=' := by
  obtain ⟨left, inner, right, hleft, -, -, rfl⟩ := h
  rw [append_assoc, append_assoc]
  exact hleft.ne_equals (by decide) (by decide)

theorem Child.ne_equals (h : Child wrap written text)
    (hwritten : written text → charAt (text ++ rest) ≠ '=') :
    charAt (text ++ rest) ≠ '=' :=
  h.elim (fun hwrap => hwrap.2.ne_equals) fun hplain => hwritten hplain.2

theorem FilterExpr.ne_equals (h : e.WrittenAs text) : charAt (text ++ rest) ≠ '=' := by
  induction e generalizing text rest with
  | operand o => exact Spaced.ne_equals h o.text_ne_nil o.charAt_ne.2
  | paren x => exact Wrapped.ne_equals h
  | not x =>
    obtain ⟨sign, inner, hsign, -, rfl⟩ := h
    rw [append_assoc]
    exact hsign.ne_equals (by decide) (by decide)
  | binary op l r ihl =>
    obtain ⟨left, sign, right, hleft, -, -, rfl⟩ := h
    rw [append_assoc, append_assoc]
    exact hleft.ne_equals fun hwritten => ihl hwritten

def Parsed (e : FilterExpr strtod) (precedence : ℕ) (state : ParseState)
    (operators output : List Token) (text rest : List Char) : Prop :=
  ∃ pending emitted, Run strtod state (text ++ rest)
      { nesting := state.nesting
        operators := pending ++ operators
        output := output ++ emitted
        prevGroup := .operand } rest ∧
    emitted ++ pending = e.emitted ∧ Popped precedence pending

def FilterExpr.Parses (e : FilterExpr strtod) : Prop :=
  ∀ (state : ParseState) (negation operators : List Token) {text rest : List Char},
    e.WrittenAs text → state.prevGroup ≠ .operand → state.nesting ≠ 0 →
    state.operators = negation ++ operators →
    negation = [] ∨ negation = [operatorToken .opNot] ∧ e.isNegation = true →
    Guard e.precedence operators → Delimited rest →
    Parsed e e.precedence state operators (state.output ++ negation) text rest

variable {x : FilterExpr strtod}

theorem Wrapped.run (hx : x.Parses) (h : Wrapped x.WrittenAs text) (hnesting : state.nesting ≠ 0) :
    Run strtod state (text ++ rest) { state with
      output := state.output ++ x.emitted
      prevGroup := .operand } rest := by
  obtain ⟨left, inner, right, hleft, hinner, hright, rfl⟩ := h
  rw [append_assoc, append_assoc]
  refine (run_left hleft (x.ne_equals hinner)).trans ?_
  obtain ⟨pending, emitted, hrun, hemitted, hpopped⟩ :=
    hx { state with
          nesting := state.nesting + 1
          operators := operatorToken .parenLeft :: state.operators
          prevGroup := .none } [] _ hinner nofun nofun rfl (.inl rfl)
      (fun t ht => .inr (Option.some.inj ht ▸ rfl)) (Delimited.of_spaced hright (.inl rfl))
  refine hrun.trans ?_
  rw [← hemitted, ← append_assoc, append_nil]
  exact run_right hright rfl (Nat.add_sub_cancel state.nesting 1 ▸ hnesting) rfl rfl hpopped

theorem Child.run (state : ParseState) (hx : x.Parses) {precedence : ℕ}
    (h : Child wrap x.WrittenAs text) (hprev : state.prevGroup ≠ .operand)
    (hnesting : state.nesting ≠ 0) (hguard : ¬ wrap → Guard x.precedence state.operators)
    (hle : ¬ wrap → x.precedence ≤ precedence) (hrest : Delimited rest) :
    Parsed x precedence state state.operators state.output text rest := by
  obtain ⟨-, hwrapped⟩ | ⟨hwrap, hwritten⟩ := h
  · exact ⟨[], x.emitted, hwrapped.run hx hnesting, append_nil _, nofun⟩
  · obtain ⟨pending, emitted, hrun, hemitted, hpopped⟩ :=
      hx state [] _ hwritten hprev hnesting rfl (.inl rfl) (hguard hwrap) hrest
    rw [append_nil] at hrun
    exact ⟨pending, emitted, hrun, hemitted, fun t ht =>
      ⟨(hpopped t ht).1.trans (hle hwrap), (hpopped t ht).2⟩⟩

theorem Popped.append {precedence : ℕ} {p q : List Token} (hp : Popped precedence p)
    (hq : Popped precedence q) : Popped precedence (p ++ q) :=
  fun t ht => (mem_append.mp ht).elim (hp t) (hq t)

theorem Popped.one {precedence : ℕ} {token : Token}
    (hle : jsonpathTokenPrecedence token.type ≤ precedence) (hleft : token.type ≠ .parenLeft) :
    Popped precedence [token] := by
  rintro t ⟨⟩
  · exact ⟨hle, hleft⟩
  · contradiction

theorem FilterExpr.precedence_of_isNegation (h : x.isNegation = true) :
    x.precedence = jsonpathTokenPrecedence .opNot := by
  cases x <;> first | rfl | cases h

theorem FilterExpr.precedence_of_le (h : x.isNegation = false)
    (hle : x.precedence ≤ jsonpathTokenPrecedence .opNot) : x.precedence = 0 := by
  cases x with
  | operand => rfl
  | paren => rfl
  | not => cases h
  | binary op =>
    have hlt := lt_precedence_of_operator2 op.2
    exact absurd hlt (not_lt.mpr hle)

theorem FilterExpr.parses : e.Parses := by
  induction e with
  | operand o =>
    intro state negation operators text rest hwritten hprev hnesting hoperators hnegation hguard hrest
    obtain rfl : negation = [] := hnegation.elim id fun h => nomatch h.2
    refine ⟨[o.token], [], ?_, rfl, Popped.one ?_ ?_⟩
    · have hrun := run_operand o hwritten hprev hrest
      rw [hoperators] at hrun
      simpa using hrun
    · rw [createToken_type o.created, (precedence_of_operand o.group).1]
      exact Nat.zero_le _
    · rw [createToken_type o.created]
      exact (precedence_of_operand o.group).2
  | paren x ih =>
    intro state negation operators text rest hwritten hprev hnesting hoperators hnegation hguard hrest
    obtain rfl : negation = [] := hnegation.elim id fun h => nomatch h.2
    refine ⟨[], x.emitted, ?_, append_nil _, nofun⟩
    rw [append_nil, ← nil_append operators, ← hoperators]
    exact Wrapped.run ih hwritten hnesting
  | not x ih =>
    intro state negation operators text rest hwritten hprev hnesting hoperators hnegation hguard hrest
    obtain ⟨sign, inner, hsign, hinner, rfl⟩ := hwritten
    rw [Parsed, append_assoc]
    have hpopped : Popped (jsonpathTokenPrecedence .opNot) negation := by
      obtain rfl | ⟨rfl, -⟩ := hnegation
      · exact nofun
      · exact Popped.one le_rfl nofun
    have hrest' : charAt (inner ++ rest) ≠ '=' := hinner.ne_equals x.ne_equals
    rw [emitted]
    let next : ParseState := { state with
      operators := operatorToken .opNot :: operators
      output := state.output ++ negation
      prevGroup := .operator1 }
    by_cases hx : x.isNegation = true
    · have hprecedence := precedence_of_isNegation hx
      obtain ⟨hwrap, -⟩ | ⟨-, hwritten⟩ := hinner
      · omega
      obtain ⟨pending, emitted, hrun, hemitted, hpending⟩ := ih next [operatorToken .opNot] operators
        hwritten nofun hnesting rfl (.inr ⟨rfl, hx⟩) (hprecedence ▸ hguard) hrest
      refine ⟨pending, operatorToken .opNot :: emitted,
          (run_not hsign hprev hoperators hpopped hguard hrest').trans ?_, ?_, ?_⟩
      · simpa [next] using hrun
      · rw [if_pos hx, cons_append, hemitted]
      · rwa [show x.not.precedence = x.precedence from hprecedence.symm]
    · have hzero : ¬ jsonpathTokenPrecedence .opNot < x.precedence → x.precedence = 0 := fun hle =>
        precedence_of_le (Bool.eq_false_iff.mpr hx) (not_lt.mp hle)
      obtain ⟨pending, emitted, hrun, hemitted, hpending⟩ := hinner.run next ih nofun hnesting
        (fun hle t ht => .inl (by
          obtain rfl := Option.some.inj ht
          rw [hzero hle]
          decide)) not_lt.mp hrest
      refine ⟨pending ++ [operatorToken .opNot], emitted,
          (run_not hsign hprev hoperators hpopped hguard hrest').trans ?_, ?_,
        hpending.append (Popped.one le_rfl nofun)⟩
      · simpa [next] using hrun
      · rw [if_neg hx, ← hemitted, append_assoc]
  | binary op l r ihl ihr =>
    intro state negation operators text rest hwritten hprev hnesting hoperators hnegation hguard hrest
    obtain rfl : negation = [] := hnegation.elim id fun h => nomatch h.2
    obtain ⟨left, sign, right, hleft, hsign, hright, rfl⟩ := hwritten
    rw [nil_append] at hoperators
    have hrest' : charAt (right ++ rest) ≠ '=' := hright.ne_equals r.ne_equals
    rw [Parsed, append_assoc, append_assoc, emitted]
    -- the left operand waits until the operator comes
    obtain ⟨pendingl, emittedl, hrunl, hemittedl, hpendingl⟩ := hleft.run state ihl hprev hnesting
      (fun hle t ht => (hguard t (hoperators ▸ ht)).imp_left (not_lt.mp hle).trans_lt) not_lt.mp
      (Delimited.of_spaced hsign (.inr op.2))
    rw [hoperators] at hrunl
    have hrun := hrunl.trans (run_binary op hsign rfl rfl hpendingl hguard hrest')
    let next : ParseState := { state with
      operators := operatorToken op.1 :: operators
      output := state.output ++ emittedl ++ pendingl
      prevGroup := .operator2 }
    obtain ⟨pendingr, emittedr, hrunr, hemittedr, hpendingr⟩ := hright.run next ihr nofun hnesting
      (fun hle t ht => .inl (Option.some.inj ht ▸ not_le.mp hle)) (fun hle => (not_le.mp hle).le) hrest
    refine ⟨pendingr ++ [operatorToken op.1], l.emitted ++ emittedr, hrun.trans ?_, ?_,
      hpendingr.append (Popped.one le_rfl ?_)⟩
    · rw [← hemittedl]
      simpa [next] using hrunr
    · rw [← hemittedr]
      simp
    · intro hleft
      have hgroup := op.2
      rw [show op.1 = .parenLeft from hleft] at hgroup
      cases hgroup

theorem flushOperators_popped {precedence : ℕ} (h : Popped precedence operators) :
    flushOperators expression operators output = .ok (output ++ operators) := by
  induction operators generalizing output with
  | nil =>
    rw [append_nil]
    rfl
  | cons t operators ih =>
    rw [flushOperators, if_neg (h t mem_cons_self).2,
      ih fun s hs => h s (mem_cons_of_mem t hs), append_assoc, singleton_append]

theorem expressionLoop_close (hclose : Spaced (symbol .parenRight) close)
    (hprev : state.prevGroup = .operand) (hnesting : state.nesting = 1) (fuel : ℕ)
    (hfuel : (close ++ rest).length ≤ fuel) :
    expressionLoop strtod fuel state (close ++ rest) = .ok ({ state with nesting := 0 }, rest) := by
  have htoken : tokenAt strtod (symbol .parenRight ++ rest) state.prevGroup = some (.parenRight, 1) :=
    rfl
  obtain ⟨hlex, hlength⟩ := nextToken_of_spaced hclose (by decide) (by decide) htoken
  obtain ⟨fuel, rfl⟩ : ∃ k, fuel = k + 1 := ⟨fuel - 1, by omega⟩
  rw [expressionLoop, hlex]
  simp [Except.bind, parseToken, jsonpathTokenGroup, jsonpathTokens, hprev, hnesting]

theorem FilterExpr.parseExpressionTokens_eq (hwritten : e.WrittenAs text)
    (hclose : Spaced (symbol .parenRight) close) :
    parseExpressionTokens strtod ('(' :: (text ++ (close ++ rest))) = .ok (e.emitted, rest) := by
  let start : ParseState := { nesting := 1, operators := [], output := [], prevGroup := .none }
  obtain ⟨pending, emitted, hrun, hemitted, hpending⟩ := e.parses start [] [] hwritten nofun
    Nat.one_ne_zero rfl (.inl rfl) nofun (Delimited.of_spaced hclose (.inl rfl))
  have hloop := hrun.loop (expressionLoop_close hclose rfl rfl)
    ('(' :: (text ++ (close ++ rest))).length (Nat.le_succ _)
  unfold parseExpressionTokens
  rw [if_neg (not_not.mpr (show charAt ('(' :: _) = '(' from rfl))]
  dsimp only [tail_cons]
  rw [hloop]
  simp only [Except.bind]
  rw [append_nil, flushOperators_popped hpending, append_nil, nil_append, hemitted]
  rfl

theorem tokens_prepareIndex (tokens : List Token) :
    (jsonpathExpressionPrepareIndex tokens).tokens = tokens := by
  unfold jsonpathExpressionPrepareIndex
  split
  · split_ifs <;> rfl
  · rfl

theorem parseExpression_iff {definite : Bool} :
    (∃ expr, jsonpathParseExpression strtod definite expression = .ok (expr, next) ∧
      expr.tokens = tokens) ↔ parseExpressionTokens strtod expression = .ok (tokens, next) := by
  unfold jsonpathParseExpression
  cases parseExpressionTokens strtod expression with
  | error e => exact iff_of_false (fun ⟨_, h, _⟩ => nomatch h) nofun
  | ok result =>
    obtain ⟨tokens', next'⟩ := result
    cases definite with
    | true =>
      constructor
      · rintro ⟨_, ⟨⟩, rfl⟩
        rw [tokens_prepareIndex]
      · rintro ⟨⟩
        exact ⟨_, rfl, tokens_prepareIndex tokens⟩
    | false =>
      constructor
      · rintro ⟨_, ⟨⟩, rfl⟩
        rfl
      · rintro ⟨⟩
        exact ⟨_, rfl, rfl⟩

theorem parseExpressionTokens_valid_iff
    (h : parseExpressionTokens strtod expression = .ok (tokens, next)) :
    Valid tokenArity tokens ↔
      Admissible .none false (tokenTypes strtod expression.length 1 .none expression.tail) := by
  let start : ParseState := { nesting := 1, operators := [], output := [], prevGroup := .none }
  have hstart : Sound start false [] [] := by
    refine ⟨rfl, nofun, fun _ => rfl, nofun, rfl, fun _ => ?_, fun _ => ?_⟩
    · exact iff_of_false nofun (by decide)
    · exact iff_of_false nofun nofun
  unfold parseExpressionTokens at h
  split_ifs at h
  · exact absurd h jsonpathError_ne
  · change (expressionLoop strtod expression.length start expression.tail).bind _ = _ at h
    cases hloop : expressionLoop strtod expression.length start expression.tail with
    | error e =>
      rw [hloop] at h
      cases h
    | ok result =>
      obtain ⟨last, after⟩ := result
      rw [hloop] at h
      cases hflush : flushOperators expression last.operators last.output with
      | error e =>
        simp only [Except.bind, hflush] at h
        cases h
      | ok output =>
        simp only [Except.bind, hflush] at h
        cases h
        exact loop_valid_iff hstart hloop hflush

/-- An accepted filter expression is a program that leaves one value exactly when its tokens are
admissible, and it is the postorder of a written expression exactly when no negation stands
directly under a negation. -/
theorem jsonpath_filter_postfix (strtod : List Char → ℕ × Bool) (definite : Bool) :
    (∀ expression expr next,
      jsonpathParseExpression strtod definite expression = .ok (expr, next) →
      (Valid tokenArity expr.tokens ↔ Admissible .none false
        (tokenTypes strtod expression.length 1 .none expression.tail))) ∧
    ∀ (e : FilterExpr strtod) (text close rest : List Char), e.WrittenAs text →
      Spaced (symbol .parenRight) close →
      ((∃ expr, jsonpathParseExpression strtod definite ('(' :: (text ++ (close ++ rest))) =
          .ok (expr, rest) ∧ expr.tokens = e.postorder) ↔ e.NoDoubleNegation) := by
  refine ⟨fun expression expr next h => ?_, fun e text close rest hwritten hclose => ?_⟩
  · exact parseExpressionTokens_valid_iff (parseExpression_iff.mp ⟨expr, h, rfl⟩)
  · rw [← e.emitted_eq_postorder_iff, parseExpression_iff,
      e.parseExpressionTokens_eq hwritten hclose]
    simp

def operandA (strtod : List Char → ℕ × Bool) : Operand strtod where
  type := .pathRelative
  text := ['@', '.', 'a']
  token := { type := .pathRelative, text := ['@', '.', 'a'], path := [.name ['a']] }
  group := rfl
  alone := rfl
  number := nofun
  created := by decide

theorem jsonpath_filter_postfix_not :
    Valid tokenArity [(operandA fun _ => (0, false)).token, operatorToken .opNot] := by
  let strtod : List Char → ℕ × Bool := fun _ => (0, false)
  have hwritten : ((FilterExpr.operand (operandA strtod)).not).WrittenAs ['!', ' ', '@', '.', 'a'] := by
    refine ⟨['!'], [' ', '@', '.', 'a'], ⟨[], nofun, rfl⟩, .inr ⟨nofun, [' '], ?_, rfl⟩, rfl⟩
    exact forall_mem_cons.mpr ⟨rfl, nofun⟩
  obtain ⟨hvalid, hpostorder⟩ := jsonpath_filter_postfix strtod false
  obtain ⟨expr, hparse, htokens⟩ := (hpostorder _ _ [')'] [] hwritten ⟨[], nofun, rfl⟩).mpr ⟨rfl, trivial⟩
  have hiff := hvalid _ expr [] hparse
  rw [htokens] at hiff
  exact hiff.mpr ⟨nofun, nofun, nofun, nofun, trivial⟩

theorem negated_negation_invalid :
    (∃ expr next, jsonpathParseExpression (fun _ => (0, false)) true
        ['(', '!', '!', '@', '.', 'a', ')'] = .ok (expr, next) ∧ ¬ Valid tokenArity expr.tokens) ∧
      ∃ expr next, jsonpathParseExpression (fun _ => (0, false)) true
        ['(', '@', '.', 'a', '(', '@', '.', 'a', ')', ')'] = .ok (expr, next) ∧
          ¬ Valid tokenArity expr.tokens := by
  refine ⟨⟨_, _, rfl, ?_⟩, ⟨_, _, rfl, ?_⟩⟩ <;> decide

end Zabbix.JsonPath
