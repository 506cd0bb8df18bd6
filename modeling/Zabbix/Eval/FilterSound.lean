import Zabbix.Eval.FilterLogic

/-!
# Group filters as prefilters

The functions of `query.c` and the evaluation of filters compute what the expression of the
filter says, so that a group filter excludes no matching item exactly when the expression is
polar.
-/

namespace Zabbix.Eval

open Bool List Expr TokenType

variable {D : Type} {fl : Floating D} {expression : List Char} {e : FilterExpr}
  {tokens : List (EvalToken D)} {token : EvalToken D} {property : Property} {v : List Char}

def Property.keyword : Property → List Char
  | .group => "group".toList
  | .tag => "tag".toList

def Quotable : List Char → Prop
  | [] => True
  | '"' :: _ => False
  | '\\' :: [] => False
  | '\\' :: _ :: rest => Quotable rest
  | _ :: rest => Quotable rest

structure IsValue (expression : List Char) (token : EvalToken D) (v : List Char) : Prop where
  value : token.value = .none
  text : (token.type = .parsed varStr ∧ ∃ body, Quotable body ∧
      token.text expression = '"' :: body ++ ['"'] ∧ v = unescape body) ∨
    (token.type = .parsed varUsermacro ∧ token.text expression = v ∧ v.head? ≠ some '"')

structure IsProperty (expression : List Char) (token : EvalToken D) (property : Property) :
    Prop where
  type : token.type = .parsed (if property = .group then propGroup else propTag)
  text : token.text expression = property.keyword

inductive Renders (expression : List Char) : FilterExpr → List (EvalToken D) → Prop
  | equal {property : Property} {v : List Char} {value prop op : EvalToken D} (swapped : Bool)
      (hvalue : IsValue expression value v) (hprop : IsProperty expression prop property)
      (hop : op.type = .parsed opEq) :
      Renders expression (.compare property v)
        (if swapped then [value, prop, op] else [prop, value, op])
  | notEqual {property : Property} {v : List Char} {value prop op : EvalToken D} (swapped : Bool)
      (hvalue : IsValue expression value v) (hprop : IsProperty expression prop property)
      (hop : op.type = .parsed opNe) :
      Renders expression (.not (.compare property v))
        (if swapped then [value, prop, op] else [prop, value, op])
  | not {e : FilterExpr} {ts : List (EvalToken D)} {op : EvalToken D}
      (he : Renders expression e ts) (hop : op.type = .parsed opNot) :
      Renders expression (.not e) (ts ++ [op])
  | and {a b : FilterExpr} {ts us : List (EvalToken D)} {op : EvalToken D}
      (ha : Renders expression a ts) (hb : Renders expression b us)
      (hop : op.type = .parsed opAnd) : Renders expression (.and a b) (ts ++ us ++ [op])
  | or {a b : FilterExpr} {ts us : List (EvalToken D)} {op : EvalToken D}
      (ha : Renders expression a ts) (hb : Renders expression b us)
      (hop : op.type = .parsed opOr) : Renders expression (.or a b) (ts ++ us ++ [op])

structure IsCall (expression : List Char) (token : EvalToken D) (property : Property) : Prop where
  type : token.type = .parsed function
  opt : token.opt = 1
  text : token.text expression = property.keyword

inductive Prepared (expression : List Char) : FilterExpr → List (EvalToken D) → Prop
  | compare {property : Property} {v : List Char} {value call : EvalToken D}
      (hvalue : IsValue expression value v) (hcall : IsCall expression call property) :
      Prepared expression (.compare property v) [value, call]
  | nop {e : FilterExpr} {ts : List (EvalToken D)} {op : EvalToken D}
      (he : Prepared expression e ts) (hop : op.type = .nop) : Prepared expression e (ts ++ [op])
  | not {e : FilterExpr} {ts : List (EvalToken D)} {op : EvalToken D}
      (he : Prepared expression e ts) (hop : op.type = .parsed opNot) :
      Prepared expression (.not e) (ts ++ [op])
  | and {a b : FilterExpr} {ts us : List (EvalToken D)} {op : EvalToken D}
      (ha : Prepared expression a ts) (hb : Prepared expression b us)
      (hop : op.type = .parsed opAnd) : Prepared expression (.and a b) (ts ++ us ++ [op])
  | or {a b : FilterExpr} {ts us : List (EvalToken D)} {op : EvalToken D}
      (ha : Prepared expression a ts) (hb : Prepared expression b us)
      (hop : op.type = .parsed opOr) : Prepared expression (.or a b) (ts ++ us ++ [op])

theorem IsValue.plain (h : IsValue expression token v) :
    token.isProperty = false ∧ token.isEquality = false := by
  unfold EvalToken.isProperty EvalToken.isEquality
  rcases h.text with ⟨htype, -⟩ | ⟨htype, -⟩ <;> simp [htype, TokenType.isProperty]

theorem IsProperty.isProperty (h : IsProperty expression token property) :
    token.isProperty = true := by
  unfold EvalToken.isProperty
  rw [h.type]
  cases property <;> rfl

theorem isEquality_of_type (h : token.type = .parsed opEq ∨ token.type = .parsed opNe) :
    token.isEquality = true := by
  unfold EvalToken.isEquality
  rcases h with h | h <;> simp [h]

theorem preparedOperator_plain (op : EvalToken D) : (preparedOperator op).isProperty = false := by
  unfold preparedOperator EvalToken.isProperty
  dsimp only
  split_ifs <;> rfl

theorem prepareTokens_plain (h : token.isProperty = false) (n : ℕ) (rest : List (EvalToken D)) :
    prepareTokens (n + 1) (token :: rest) = token :: prepareTokens n rest := by
  rw [prepareTokens, if_neg (by simp [h])]

variable {value op : EvalToken D}

theorem prepare_compare {prop : EvalToken D} (swapped : Bool) (hvalue : IsValue expression value v)
    (hprop : IsProperty expression prop property)
    (hop : op.type = .parsed opEq ∨ op.type = .parsed opNe) :
    ∃ call, IsCall expression call property ∧ ∀ n tail,
      prepareTokens (3 + n) ((if swapped then [value, prop, op] else [prop, value, op]) ++ tail) =
        [value, call, preparedOperator op] ++ prepareTokens n tail := by
  obtain ⟨hplain, hne⟩ := hvalue.plain
  have heq := isEquality_of_type hop
  have hrest := preparedOperator_plain op
  cases swapped with
  | true =>
    refine ⟨{ prop with opt := 1, type := .parsed function }, ⟨rfl, rfl, hprop.text⟩,
      fun n tail => ?_⟩
    have hprepare : prepareProperty prop (op :: tail) =
        ({ prop with opt := 1, type := .parsed function }, preparedOperator op :: tail) := by
      simp [prepareProperty, heq]
    rw [show 3 + n = n + 1 + 1 + 1 by omega]
    simp only [if_true, cons_append, nil_append]
    rw [prepareTokens_plain hplain, prepareTokens, if_pos hprop.isProperty, hprepare]
    dsimp only
    rw [prepareTokens_plain hrest]
  | false =>
    refine ⟨{ value with opt := 1, type := .parsed function, loc := prop.loc },
      ⟨rfl, rfl, hprop.text⟩, fun n tail => ?_⟩
    have hprepare : prepareProperty prop (value :: op :: tail) =
        (value, { value with opt := 1, type := .parsed function, loc := prop.loc } ::
          preparedOperator op :: tail) := by
      simp [prepareProperty, heq, hne]
    rw [show 3 + n = n + 1 + 1 + 1 by omega]
    simp only [false_eq_true, if_false, cons_append, nil_append]
    rw [prepareTokens, if_pos hprop.isProperty, hprepare]
    dsimp only
    rw [prepareTokens_plain rfl, prepareTokens_plain hrest]

theorem prepare_operator (h : op.isProperty = false) (n : ℕ) (ts ts' tail : List (EvalToken D))
    (hts : ∀ n tail, prepareTokens (ts.length + n) (ts ++ tail) = ts' ++ prepareTokens n tail) :
    prepareTokens ((ts ++ [op]).length + n) (ts ++ [op] ++ tail) =
      ts' ++ [op] ++ prepareTokens n tail := by
  rw [length_append, append_assoc, Nat.add_assoc, hts]
  rw [show [op].length + n = n + 1 from Nat.add_comm 1 n, cons_append, nil_append,
    prepareTokens_plain h, append_assoc]
  rfl

theorem prepare_append (ts us ts' us' : List (EvalToken D))
    (hts : ∀ n tail, prepareTokens (ts.length + n) (ts ++ tail) = ts' ++ prepareTokens n tail)
    (hus : ∀ n tail, prepareTokens (us.length + n) (us ++ tail) = us' ++ prepareTokens n tail)
    (n : ℕ) (tail : List (EvalToken D)) :
    prepareTokens ((ts ++ us).length + n) (ts ++ us ++ tail) =
      ts' ++ us' ++ prepareTokens n tail := by
  rw [length_append, append_assoc, Nat.add_assoc, hts, hus, append_assoc]

theorem Renders.prepare (h : Renders expression e tokens) :
    ∃ tokens', Prepared expression e tokens' ∧ ∀ n tail,
      prepareTokens (tokens.length + n) (tokens ++ tail) = tokens' ++ prepareTokens n tail := by
  induction h with
  | @equal property v value prop op swapped hvalue hprop hop =>
    obtain ⟨call, hcall, hprepare⟩ := prepare_compare swapped hvalue hprop (.inl hop)
    have hnop : (preparedOperator op).type = .nop := if_neg (by simp [hop])
    refine ⟨[value, call] ++ [preparedOperator op], (Prepared.compare hvalue hcall).nop hnop, ?_⟩
    cases swapped <;> exact hprepare
  | @notEqual property v value prop op swapped hvalue hprop hop =>
    obtain ⟨call, hcall, hprepare⟩ := prepare_compare swapped hvalue hprop (.inr hop)
    have hnot : (preparedOperator op).type = .parsed opNot := if_pos hop
    refine ⟨[value, call] ++ [preparedOperator op], (Prepared.compare hvalue hcall).not hnot, ?_⟩
    cases swapped <;> exact hprepare
  | @not e ts op _ hop ih =>
    obtain ⟨ts', hts', hprepare⟩ := ih
    have hplain : op.isProperty = false := by simp [EvalToken.isProperty, hop, TokenType.isProperty]
    exact ⟨ts' ++ [op], hts'.not hop, fun n tail => prepare_operator hplain n ts ts' tail hprepare⟩
  | @and a b ts us op _ _ hop iha ihb =>
    obtain ⟨ts', hts', hprepareA⟩ := iha
    obtain ⟨us', hus', hprepareB⟩ := ihb
    have hplain : op.isProperty = false := by simp [EvalToken.isProperty, hop, TokenType.isProperty]
    exact ⟨ts' ++ us' ++ [op], hts'.and hus' hop, fun n tail => prepare_operator hplain n _ _ tail
      (prepare_append ts us ts' us' hprepareA hprepareB)⟩
  | @or a b ts us op _ _ hop iha ihb =>
    obtain ⟨ts', hts', hprepareA⟩ := iha
    obtain ⟨us', hus', hprepareB⟩ := ihb
    have hplain : op.isProperty = false := by simp [EvalToken.isProperty, hop, TokenType.isProperty]
    exact ⟨ts' ++ us' ++ [op], hts'.or hus' hop, fun n tail => prepare_operator hplain n _ _ tail
      (prepare_append ts us ts' us' hprepareA hprepareB)⟩

theorem Renders.prepared (h : Renders expression e tokens) :
    Prepared expression e (zbxEvalPrepareFilter tokens) := by
  obtain ⟨tokens', htokens', hprepare⟩ := h.prepare
  have hall := hprepare 0 []
  rw [append_nil, prepareTokens, append_nil] at hall
  rw [zbxEvalPrepareFilter]
  rw [Nat.add_zero] at hall
  rw [hall]
  exact htokens'

structure Floating.Lawful (fl : Floating D) : Prop where
  zero_equal : fl.equal fl.zero fl.zero = true
  one_unequal : fl.equal fl.one fl.zero = false
  zero_regular : fl.regular fl.zero = true
  one_regular : fl.regular fl.one = true

theorem Floating.Lawful.equal_ofBool (h : fl.Lawful) (b : Bool) :
    fl.equal (fl.ofBool b) fl.zero = !b := by
  cases b
  · exact h.zero_equal
  · exact h.one_unequal

theorem Floating.Lawful.regular_ofBool (h : fl.Lawful) (b : Bool) :
    fl.regular (fl.ofBool b) = true := by
  cases b
  · exact h.zero_regular
  · exact h.one_regular

theorem IsValue.literalValue (fl : Floating D) (h : IsValue expression token v) :
    literalValue fl expression token = .str v := by
  unfold Eval.literalValue
  rcases h.text with ⟨htype, body, -, htext, rfl⟩ | ⟨htype, htext, -⟩
  · unfold EvalToken.text at htext
    simp [htype, htext]
  · unfold EvalToken.text at htext
    simp [htype, htext]

theorem IsCall.isPrefixOf (h : IsCall expression token property) :
    property.keyword.isPrefixOf (expression.drop token.loc.l) = true := by
  rw [ isPrefixOf_iff_prefix, ← h.text]
  exact take_prefix _ _

variable (fl) (item : FilterItem)

theorem filterFunctions_call (h : IsCall expression token property) (s : List (Variant D)) :
    filterFunctions fl expression item token (.str v :: s) =
      .ok (.dbl (fl.ofBool (item.valuation property v)) :: s) := by
  have hfun : evalFunctionFilter fl item (expression.drop token.loc.l) [.str v] =
      .ok (.dbl (fl.ofBool (item.valuation property v))) := by
    have hkeyword := h.isPrefixOf
    unfold evalFunctionFilter
    dsimp only
    cases property with
    | group =>
      unfold Property.keyword at hkeyword
      rw [if_pos hkeyword]
      rfl
    | tag =>
      unfold Property.keyword at hkeyword
      have hgroup : ("group".toList).isPrefixOf (expression.drop token.loc.l) = false := by
        obtain ⟨rest, hrest⟩ := isPrefixOf_iff_prefix.mp hkeyword
        rw [← hrest]
        rfl
      rw [if_neg (by rw [hgroup]; exact Bool.false_ne_true), if_pos hkeyword]
      rfl
  unfold filterFunctions
  have hlength : ¬((Variant.str v :: s).length : ℤ) < 1 := by
    rw [length_cons]
    omega
  simp only [h.opt]
  rw [if_neg hlength]
  simp [hfun, Variant.isErr]

variable {fl item}

theorem executeTokens_append (functions : Functions D) (ctx : ExecContext D)
    (ts us : List (EvalToken D)) (s : List (Variant D)) :
    executeTokens fl functions ctx (ts ++ us) s =
      (executeTokens fl functions ctx ts s).bind fun s =>
        executeTokens fl functions ctx us s := by
  induction ts generalizing s with
  | nil => rfl
  | cons t ts ih =>
    rw [cons_append, executeTokens, executeTokens]
    cases executeToken fl functions ctx t s with
    | error => rfl
    | ok s' => exact ih s'

variable {functions : Functions D} {ctx : ExecContext D}

theorem execute_operator1 (hlawful : fl.Lawful) (hop : op.type = .parsed opNot) (a : Bool)
    (s : List (Variant D)) :
    executeToken fl functions ctx op (.dbl (fl.ofBool a) :: s) =
      .ok (.dbl (fl.ofBool !a) :: s) := by
  unfold executeToken
  simp [hop, isOperator1, evalExecuteOpUnary, unaryOperand, Variant.isErr, variantToDbl,
    hlawful.equal_ofBool, hlawful.regular_ofBool, Except.map]

theorem execute_operator2 (hlawful : fl.Lawful)
    (hop : op.type = .parsed opAnd ∨ op.type = .parsed opOr) (a b : Bool) (s : List (Variant D)) :
    executeToken fl functions ctx op (.dbl (fl.ofBool b) :: .dbl (fl.ofBool a) :: s) =
      .ok (.dbl (fl.ofBool (if op.type = .parsed opAnd then a && b else a || b)) :: s) := by
  unfold executeToken
  rcases hop with hop | hop <;>
    simp [hop, isOperator1, isOperator2, evalExecuteOpBinary, binaryOperand, binaryOperands,
      Variant.isErr, variantToDbl, binaryValue, hlawful.equal_ofBool, Except.map]

theorem Prepared.execute (hlawful : fl.Lawful) (h : Prepared expression e tokens)
    (item : FilterItem) (ctx : ExecContext D) (hctx : ctx.expression = expression)
    (s : List (Variant D)) :
    executeTokens fl (filterFunctions fl expression item) ctx tokens s =
      .ok (.dbl (fl.ofBool (e.holds item.valuation)) :: s) := by
  induction h generalizing s with
  | @compare property v value call hvalue hcall =>
    have hpush : executeToken fl (filterFunctions fl expression item) ctx value s =
        .ok (.str v :: s) := by
      have hliteral := hvalue.literalValue fl
      unfold executeToken
      rcases hvalue.text with ⟨htype, -⟩ | ⟨htype, -⟩ <;>
        simp [htype, isOperator1, isOperator2, evalExecutePushValue, hvalue.value, hctx, hliteral]
    have hcalled : executeToken fl (filterFunctions fl expression item) ctx call (.str v :: s) =
        .ok (.dbl (fl.ofBool (item.valuation property v)) :: s) := by
      unfold executeToken
      simp only [hcall.type, isOperator1, isOperator2, false_eq_true, if_false]
      exact filterFunctions_call fl item hcall s
    rw [executeTokens, hpush]
    show (executeToken fl (filterFunctions fl expression item) ctx call (.str v :: s)).bind _ = _
    rw [hcalled]
    rfl
  | @nop e ts op _ hop ih =>
    rw [executeTokens_append, ih]
    show (executeToken fl (filterFunctions fl expression item) ctx op _).bind _ = _
    unfold executeToken
    rw [hop]
    rfl
  | @not e ts op _ hop ih =>
    rw [executeTokens_append, ih]
    show (executeToken fl (filterFunctions fl expression item) ctx op _).bind _ = _
    rw [execute_operator1 hlawful hop]
    rfl
  | @and a b ts us op _ _ hop iha ihb =>
    rw [executeTokens_append, executeTokens_append, iha]
    show ((executeTokens fl (filterFunctions fl expression item) ctx us _).bind _) = _
    rw [ihb]
    show (executeToken fl (filterFunctions fl expression item) ctx op _).bind _ = _
    rw [execute_operator2 hlawful (.inl hop), hop]
    rfl
  | @or a b ts us op _ _ hop iha ihb =>
    rw [executeTokens_append, executeTokens_append, iha]
    show ((executeTokens fl (filterFunctions fl expression item) ctx us _).bind _) = _
    rw [ihb]
    show (executeToken fl (filterFunctions fl expression item) ctx op _).bind _ = _
    rw [execute_operator2 hlawful (.inr hop), hop]
    rfl

theorem Prepared.itemMatches (hlawful : fl.Lawful) (h : Prepared expression e tokens)
    (item : FilterItem) :
    itemMatches fl expression tokens item = e.holds item.valuation := by
  have hrun := h.execute hlawful item ⟨expression, false, tokens⟩ rfl []
  unfold Eval.itemMatches evalExecute
  rw [hrun]
  simp [variantToDbl, hlawful.equal_ofBool]

def Fragment (expression : List Char) (e : FilterExpr) (fragment : List (EvalToken D)) : Prop :=
  if e.unrestricted then ∃ token, fragment = [token] ∧ token.type = .tagExpression
  else Prepared expression e.restrict fragment

variable {fragment stack tail : List (EvalToken D)} {index : List ℕ}

theorem Prepared.head (h : Prepared expression e tokens) :
    ∃ token rest, tokens = token :: rest ∧ token.type ≠ .tagExpression := by
  induction h with
  | compare hvalue hcall =>
    refine ⟨_, _, rfl, ?_⟩
    rcases hvalue.text with ⟨htype, -⟩ | ⟨htype, -⟩ <;> simp [htype]
  | nop _ _ ih | not _ _ ih =>
    obtain ⟨token, rest, rfl, htype⟩ := ih
    exact ⟨token, _, rfl, htype⟩
  | and _ _ _ iha | or _ _ _ iha =>
    obtain ⟨token, rest, rfl, htype⟩ := iha
    exact ⟨token, _, rfl, htype⟩

theorem Fragment.isTagExpression (h : Fragment expression e fragment)
    (stack tail : List (EvalToken D)) :
    isTagExpression (stack ++ (fragment ++ tail)) stack.length = e.unrestricted := by
  unfold Fragment at h
  unfold Eval.isTagExpression
  split at h
  · next hu =>
    obtain ⟨token, rfl, htype⟩ := h
    simp [htype, hu]
  · next hu =>
    obtain ⟨token, rest, rfl, htype⟩ := h.head
    simp [htype, hu]

theorem fragment_of_restricted (h : e.unrestricted = false) :
    Fragment expression e fragment ↔ Prepared expression e.restrict fragment := by
  unfold Fragment
  rw [if_neg (by simp [h])]

theorem fragment_of_unrestricted (h : e.unrestricted = true) :
    Fragment expression e fragment ↔ ∃ token, fragment = [token] ∧ token.type = .tagExpression := by
  unfold Fragment
  rw [if_pos h]

theorem Fragment.ne_nil (h : Fragment expression e fragment) : fragment ≠ [] := by
  unfold Fragment at h
  split at h
  · obtain ⟨token, rfl, -⟩ := h
    exact cons_ne_nil _ _
  · obtain ⟨token, rest, rfl, -⟩ := h.head
    exact cons_ne_nil _ _

theorem groupFilterTokens_append (ts us : List (EvalToken D)) (s : FilterState D) :
    groupFilterTokens expression (ts ++ us) s =
      (groupFilterTokens expression ts s).bind fun s => groupFilterTokens expression us s := by
  induction ts generalizing s with
  | nil => rfl
  | cons t ts ih =>
    rw [cons_append, groupFilterTokens, groupFilterTokens]
    cases groupFilterToken expression t s with
    | error => rfl
    | ok s' => exact ih s'

theorem groupFilterTokens_one (s : FilterState D) :
    groupFilterTokens expression [token] s = groupFilterToken expression token s := by
  rw [groupFilterTokens]
  cases groupFilterToken expression token s <;> rfl

theorem truncateToTag_eq (stack rest : List (EvalToken D)) (token : EvalToken D) :
    truncateToTag (stack ++ token :: rest) stack.length =
      stack ++ [{ token with type := .tagExpression }] := by
  simp [truncateToTag]

theorem groupFilter_compare {call : EvalToken D} (hvalue : IsValue expression value v)
    (hcall : IsCall expression call property) (stack : List (EvalToken D)) (index : List ℕ) :
    ∃ fragment, Fragment expression (.compare property v) fragment ∧
      groupFilterTokens expression [value, call] ⟨stack, index⟩ =
        .ok ⟨stack ++ fragment, stack.length :: index⟩ := by
  have hpush : groupFilterToken expression value ⟨stack, index⟩ =
      .ok ⟨stack ++ [value], stack.length :: index⟩ := by
    unfold groupFilterToken
    rcases hvalue.text with ⟨htype, -⟩ | ⟨htype, -⟩ <;>
      simp [htype, isOperator1, isOperator2]
  have hcalled (s : FilterState D) : groupFilterToken expression call s =
      .ok (evalFilterApplyFunc expression call s) := by
    unfold groupFilterToken
    simp [hcall.type, isOperator1, isOperator2]
  rw [groupFilterTokens, hpush]
  show ∃ fragment, _ ∧ groupFilterTokens expression [call] _ = _
  rw [groupFilterTokens_one, hcalled]
  unfold evalFilterApplyFunc
  rw [hcall.text]
  cases property with
  | group =>
    refine ⟨[value, call], ?_, ?_⟩
    · exact (fragment_of_restricted rfl).mpr (.compare hvalue hcall)
    · rw [if_neg (by unfold Property.keyword; decide)]
      simp
  | tag =>
    refine ⟨[{ value with type := .tagExpression }],
      (fragment_of_unrestricted rfl).mpr ⟨_, rfl, rfl⟩, ?_⟩
    unfold Property.keyword
    rw [if_pos rfl]
    dsimp only
    rw [truncateToTag_eq]

theorem groupFilter_not (hop : op.type = .parsed opNot) (h : Fragment expression e fragment)
    (stack : List (EvalToken D)) (index : List ℕ) :
    ∃ fragment', Fragment expression (.not e) fragment' ∧
      groupFilterToken expression op ⟨stack ++ fragment, stack.length :: index⟩ =
        .ok ⟨stack ++ fragment', stack.length :: index⟩ := by
  have htag := h.isTagExpression stack []
  rw [append_nil] at htag
  unfold groupFilterToken evalFilterApplyOp1
  simp only [hop, isOperator1, isOperator2, false_eq_true, if_false, if_true, htag]
  cases hu : e.unrestricted with
  | true =>
    refine ⟨fragment, ?_, by simp⟩
    exact (fragment_of_unrestricted (e := .not e) hu).mpr ((fragment_of_unrestricted hu).mp h)
  | false =>
    refine ⟨fragment ++ [op], ?_, by simp⟩
    exact (fragment_of_restricted (e := .not e) hu).mpr
      (((fragment_of_restricted hu).mp h).not hop)

variable {a b : FilterExpr} {fa fb : List (EvalToken D)}

theorem groupFilter_and (hop : op.type = .parsed opAnd) (ha : Fragment expression a fa)
    (hb : Fragment expression b fb) (stack : List (EvalToken D)) (index : List ℕ) :
    ∃ fragment, Fragment expression (.and a b) fragment ∧
      groupFilterToken expression op
        ⟨stack ++ fa ++ fb, (stack ++ fa).length :: stack.length :: index⟩ =
          .ok ⟨stack ++ fragment, stack.length :: index⟩ := by
  have hleft := ha.isTagExpression stack fb
  have hright := hb.isTagExpression (stack ++ fa) []
  rw [← append_assoc] at hleft
  rw [append_nil] at hright
  unfold groupFilterToken evalFilterApplyOp2
  simp only [hop, isOperator2, if_true, hleft, hright]
  cases hua : a.unrestricted with
  | true =>
    have hu : (FilterExpr.and a b).unrestricted = b.unrestricted := by
      simp [FilterExpr.unrestricted, hua]
    have hrestrict : (FilterExpr.and a b).restrict = b.restrict := if_pos hua
    refine ⟨fb, ?_, by simp⟩
    unfold Fragment
    rw [hu, hrestrict]
    exact hb
  | false =>
    have hu : (FilterExpr.and a b).unrestricted = false := by simp [FilterExpr.unrestricted, hua]
    have ha' := (fragment_of_restricted hua).mp ha
    cases hub : b.unrestricted with
    | true =>
      obtain ⟨token, rfl, -⟩ := (fragment_of_unrestricted hub).mp hb
      have hrestrict : (FilterExpr.and a b).restrict = a.restrict := by
        simp [FilterExpr.restrict, hua, hub]
      refine ⟨fa, (fragment_of_restricted hu).mpr (hrestrict ▸ ha'), ?_⟩
      simp only [Bool.or_true, if_true, false_eq_true, if_false, dropLast_concat]
    | false =>
      have hb' := (fragment_of_restricted hub).mp hb
      have hrestrict : (FilterExpr.and a b).restrict = .and a.restrict b.restrict := by
        simp [FilterExpr.restrict, hua, hub]
      refine ⟨fa ++ fb ++ [op], (fragment_of_restricted hu).mpr ?_, by simp⟩
      rw [hrestrict]
      exact ha'.and hb' hop

theorem groupFilter_or (hop : op.type = .parsed opOr) (ha : Fragment expression a fa)
    (hb : Fragment expression b fb) (stack : List (EvalToken D)) (index : List ℕ) :
    ∃ fragment, Fragment expression (.or a b) fragment ∧
      groupFilterToken expression op
        ⟨stack ++ fa ++ fb, (stack ++ fa).length :: stack.length :: index⟩ =
          .ok ⟨stack ++ fragment, stack.length :: index⟩ := by
  have hleft := ha.isTagExpression stack fb
  have hright := hb.isTagExpression (stack ++ fa) []
  rw [← append_assoc] at hleft
  rw [append_nil] at hright
  unfold groupFilterToken evalFilterApplyOp2
  simp only [hop, isOperator2, if_true, hleft, hright]
  cases hu : (a.unrestricted || b.unrestricted) with
  | true =>
    obtain ⟨token, rest, rfl⟩ := exists_cons_of_ne_nil ha.ne_nil
    refine ⟨[{ token with type := .tagExpression }],
      (fragment_of_unrestricted (e := .or a b) hu).mpr ⟨_, rfl, rfl⟩, ?_⟩
    have htruncate := truncateToTag_eq stack (rest ++ fb) token
    simp only [if_true, append_assoc, cons_append]
    rw [htruncate]
    simp
  | false =>
    obtain ⟨hua, hub⟩ := or_eq_false_iff.mp hu
    have ha' := (fragment_of_restricted hua).mp ha
    have hb' := (fragment_of_restricted hub).mp hb
    exact ⟨fa ++ fb ++ [op], (fragment_of_restricted (e := .or a b) hu).mpr (ha'.or hb' hop),
      by simp⟩

theorem Prepared.groupFilter (h : Prepared expression e tokens) (stack : List (EvalToken D))
    (index : List ℕ) :
    ∃ fragment, Fragment expression e fragment ∧
      groupFilterTokens expression tokens ⟨stack, index⟩ =
        .ok ⟨stack ++ fragment, stack.length :: index⟩ := by
  induction h generalizing stack index with
  | compare hvalue hcall => exact groupFilter_compare hvalue hcall stack index
  | @nop e ts op _ hop ih =>
    obtain ⟨fragment, hfragment, hrun⟩ := ih stack index
    refine ⟨fragment, hfragment, ?_⟩
    rw [groupFilterTokens_append, hrun]
    show groupFilterTokens expression [op] _ = _
    rw [groupFilterTokens_one, groupFilterToken, hop]
  | @not e ts op _ hop ih =>
    obtain ⟨fragment, hfragment, hrun⟩ := ih stack index
    obtain ⟨fragment', hfragment', hop'⟩ := groupFilter_not hop hfragment stack index
    refine ⟨fragment', hfragment', ?_⟩
    rw [groupFilterTokens_append, hrun]
    show groupFilterTokens expression [op] _ = _
    rw [groupFilterTokens_one, hop']
  | @and a b ts us op _ _ hop iha ihb =>
    obtain ⟨fa, hfa, hruna⟩ := iha stack index
    obtain ⟨fb, hfb, hrunb⟩ := ihb (stack ++ fa) (stack.length :: index)
    obtain ⟨fragment, hfragment, hop'⟩ := groupFilter_and hop hfa hfb stack index
    refine ⟨fragment, hfragment, ?_⟩
    rw [groupFilterTokens_append, groupFilterTokens_append, hruna]
    show (groupFilterTokens expression us _).bind _ = _
    rw [hrunb]
    show groupFilterTokens expression [op] _ = _
    rw [groupFilterTokens_one, hop']
  | @or a b ts us op _ _ hop iha ihb =>
    obtain ⟨fa, hfa, hruna⟩ := iha stack index
    obtain ⟨fb, hfb, hrunb⟩ := ihb (stack ++ fa) (stack.length :: index)
    obtain ⟨fragment, hfragment, hop'⟩ := groupFilter_or hop hfa hfb stack index
    refine ⟨fragment, hfragment, ?_⟩
    rw [groupFilterTokens_append, groupFilterTokens_append, hruna]
    show (groupFilterTokens expression us _).bind _ = _
    rw [hrunb]
    show groupFilterTokens expression [op] _ = _
    rw [groupFilterTokens_one, hop']

def template : FilterExpr → ℕ → List Char × List (List Char)
  | .compare _ v, n => (placeholder n, [v])
  | .not e, n => ("not ".toList ++ (template e n).1, (template e n).2)
  | .and a b, n =>
    let left := template a n
    let right := template b (n + left.2.length)
    ('(' :: left.1 ++ " and ".toList ++ right.1 ++ [')'], left.2 ++ right.2)
  | .or a b, n =>
    let left := template a n
    let right := template b (n + left.2.length)
    ('(' :: left.1 ++ " or ".toList ++ right.1 ++ [')'], left.2 ++ right.2)

theorem unquoteTail_quotable {body : List Char} (h : Quotable body) (rest : List Char) :
    unquoteTail (body ++ '"' :: rest) = unescape body := by
  fun_induction Quotable body with
  | case1 => rfl
  | case2 => exact h.elim
  | case3 => exact h.elim
  | case4 c body ih => simpa [unquoteTail, unescape] using ih h
  | case5 c body hquote hlast hescape ih =>
    have hc : c ≠ '"' := fun heq => hquote heq
    have hc' : c ≠ '\\' := by
      intro heq
      cases body with
      | nil => exact hlast heq rfl
      | cons d body => exact hescape d body heq rfl
    simp [unquoteTail, unescape, hc', ih h]

theorem IsValue.unquote (h : IsValue expression token v) :
    evalUnquoteStr (token.text expression) = v := by
  rcases h.text with ⟨-, body, hbody, htext, rfl⟩ | ⟨-, htext, hquote⟩
  · rw [htext]
    exact unquoteTail_quotable hbody []
  · rw [htext]
    cases v with
    | nil => rfl
    | cons c v =>
      have hc : c ≠ '"' := by simpa using hquote
      unfold evalUnquoteStr
      split
      · next heq => exact absurd (List.cons.inj heq).1 hc
      · rfl

theorem generateTokens_append (ts us : List (EvalToken D)) (s : GenerateState) :
    generateTokens expression (ts ++ us) s =
      (generateTokens expression ts s).bind fun s => generateTokens expression us s := by
  induction ts generalizing s with
  | nil => rfl
  | cons t ts ih =>
    rw [cons_append, generateTokens, generateTokens]
    cases generateToken expression t s with
    | error => rfl
    | ok s' => exact ih s'

theorem generateTokens_one (s : GenerateState) :
    generateTokens expression [token] s = generateToken expression token s := by
  rw [generateTokens]
  cases generateToken expression token s <;> rfl

theorem Prepared.generate (h : Prepared expression e tokens) (out groups : List (List Char)) :
    generateTokens expression tokens ⟨out, groups⟩ =
      .ok ⟨(template e groups.length).1 :: out, groups ++ (template e groups.length).2⟩ := by
  induction h generalizing out groups with
  | @compare property v value call hvalue hcall =>
    have hpush : generateToken expression value ⟨out, groups⟩ =
        .ok ⟨value.text expression :: out, groups⟩ := by
      unfold generateToken
      rcases hvalue.text with ⟨htype, -⟩ | ⟨htype, -⟩ <;>
        simp [htype, isOperator1, isOperator2]
    rw [generateTokens, hpush]
    show generateTokens expression [call] _ = _
    rw [generateTokens_one]
    unfold generateToken
    simp [hcall.type, isOperator1, isOperator2, hvalue.unquote, template]
  | @nop e ts op _ hop ih =>
    rw [generateTokens_append, ih]
    show generateTokens expression [op] _ = _
    rw [generateTokens_one, generateToken, hop]
  | @not e ts op _ hop ih =>
    rw [generateTokens_append, ih]
    show generateTokens expression [op] _ = _
    rw [generateTokens_one]
    unfold generateToken
    simp [hop, isOperator1, isOperator2, evalOpStr, template]
  | @and a b ts us op _ _ hop iha ihb | @or a b ts us op _ _ hop iha ihb =>
    rw [generateTokens_append, generateTokens_append, iha]
    show (generateTokens expression us _).bind _ = _
    rw [ihb]
    show generateTokens expression [op] _ = _
    rw [generateTokens_one]
    unfold generateToken
    simp [hop, isOperator2, evalOpStr, template]

def GroupsOnly : FilterExpr → Prop
  | .compare property _ => property = .group
  | .not e => GroupsOnly e
  | .and a b => GroupsOnly a ∧ GroupsOnly b
  | .or a b => GroupsOnly a ∧ GroupsOnly b

theorem groupsOnly_restrict (h : e.unrestricted = false) : GroupsOnly e.restrict := by
  induction e with
  | compare property value =>
    cases property with
    | group => rfl
    | tag => cases h
  | not e ih => exact ih h
  | and a b iha ihb =>
    unfold FilterExpr.restrict
    split
    · next hua =>
      simp only [FilterExpr.unrestricted, hua, Bool.true_and] at h
      exact ihb h
    · next hua =>
      split
      · exact iha (by simpa using hua)
      · next hub => exact ⟨iha (by simpa using hua), ihb (by simpa using hub)⟩
  | or a b iha ihb =>
    obtain ⟨hua, hub⟩ := or_eq_false_iff.mp h
    exact ⟨iha hua, ihb hub⟩

theorem reads_template (h : GroupsOnly e) (item : FilterItem) {m : ℕ → Bool} {n : ℕ}
    (hmember : ∀ i v, (template e n).2[i]? = some v → m (n + i) = item.inGroup v) :
    Reads m (template e n).1 (e.holds item.valuation) := by
  induction e generalizing n with
  | compare property v =>
    obtain rfl : property = .group := h
    have hv := hmember 0 v rfl
    rw [show (FilterExpr.compare .group v).holds item.valuation = m n from hv.symm]
    exact .index n
  | not e ih => exact (ih h hmember).not
  | and a b iha ihb =>
    refine (iha h.1 fun i v hv => hmember i v ?_).and (ihb h.2 fun i v hv => ?_)
    · exact (List.getElem?_append_left (List.getElem?_eq_some_iff.mp hv).1).trans hv
    · rw [Nat.add_assoc]
      refine hmember _ v ?_
      rw [template, List.getElem?_append_right (Nat.le_add_right _ _), Nat.add_sub_cancel_left]
      exact hv
  | or a b iha ihb =>
    refine (iha h.1 fun i v hv => hmember i v ?_).or (ihb h.2 fun i v hv => ?_)
    · exact (List.getElem?_append_left (List.getElem?_eq_some_iff.mp hv).1).trans hv
    · rw [Nat.add_assoc]
      refine hmember _ v ?_
      rw [template, List.getElem?_append_right (Nat.le_add_right _ _), Nat.add_sub_cancel_left]
      exact hv

end Zabbix.Eval
