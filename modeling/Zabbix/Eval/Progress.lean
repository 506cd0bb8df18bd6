import Zabbix.Eval.Parse
import Zabbix.Foundation.Except
import Mathlib.Data.Nat.Basic
import Mathlib.Order.Basic

/-!
# What reading a token guarantees

A token that is read lies behind the position it is read from, so the loop of
`eval_parse_expression` ends; it leaves the stack alone and changes `ops` only by turning
the function under an opening parenthesis into a history function.
-/

namespace Zabbix.Eval

open List Zabbix.Expr TokenType

variable {ctx ctx' done next : Context} {pos n offset r skip : ℕ} {token : Token} {s : List Char}
  {ext : External} {type : TokenType} {α : Type}

structure Read (ctx : Context) (pos : ℕ) (ctx' : Context) (token : Token) : Prop where
  expression : ctx'.expression = ctx.expression
  rules : ctx'.rules = ctx.rules
  last : ctx'.lastTokenType = ctx.lastTokenType
  stack : ctx'.stack = ctx.stack
  ops : ctx'.ops = ctx.ops ∨
    ctx.lastTokenType = groupOpen ∧ setHistFunction ctx.ops = some ctx'.ops
  progress : pos ≤ token.loc.r
  started : token.type ≠ classSeparator
  func : token.type.isFunction → token.type = function ∧ token.opt = ctx.stack.length ∧
    ctx.at (token.loc.r + 1) = '('
  property : token.type.isProperty → ctx.rules.property

theorem Read.weaken {start : ℕ} (h : Read ctx pos ctx' token) (hle : start ≤ pos) :
    Read ctx start ctx' token :=
  { h with progress := hle.trans h.progress }

theorem Read.plain (hprogress : pos ≤ token.loc.r) (hstarted : token.type ≠ classSeparator)
    (hfunc : token.type.isFunction = false) (hproperty : token.type.isProperty = false) :
    Read ctx pos ctx token where
  expression := rfl
  rules := rfl
  last := rfl
  stack := rfl
  ops := .inl rfl
  progress := hprogress
  started := hstarted
  func := by simp [hfunc]
  property := by simp [hproperty]

theorem Read.ofOperand (hprogress : pos ≤ token.loc.r) (hoperand : token.type.isOperand = true) :
    Read ctx pos ctx token := by
  refine .plain hprogress ?_ ?_ ?_ <;> revert hoperand <;> cases token.type <;> decide

theorem evalUpdateConstVariable_read {token' : Token} (hprogress : pos ≤ token.loc.r)
    (hoperand : token.type.isOperand = true)
    (h : evalUpdateConstVariable ctx token = (ctx', token')) : Read ctx pos ctx' token' := by
  unfold evalUpdateConstVariable at h
  split at h
  · cases h
    have hread : Read ctx pos ctx { token with opt := ctx.constIndex } :=
      .ofOperand hprogress hoperand
    exact { hread with }
  · cases h
    exact .ofOperand hprogress hoperand

theorem zbxNumberParse_pos (h : zbxNumberParse s = some n) : 0 < n := by
  obtain ⟨exponent, -, h⟩ := Option.bind_eq_some_iff.mp h
  split at h
  · cases h
  · next hdigits =>
    obtain rfl := Option.some.inj h
    have hle := countP_le_length (p := isdigit) (l := s.takeWhile fun c => isdigit c || c = '.')
    omega

theorem zbxSuffixedNumberParse_pos (h : zbxSuffixedNumberParse s = some n) : 0 < n := by
  obtain ⟨len, hlen, rfl⟩ := Option.map_eq_some_iff.mp h
  have hpos := zbxNumberParse_pos hlen
  split <;> omega

theorem evalParseNumber_pos (h : evalParseNumber ext ctx pos = some n) : 0 < n := by
  unfold evalParseNumber at h
  dsimp only at h
  obtain ⟨len, hlen, h⟩ := Option.bind_eq_some_iff.mp h
  have hpos := zbxSuffixedNumberParse_pos hlen
  generalize (if ctx.at pos = '-' then 1 else 0) = offset at h
  split at h
  · cases h
  · obtain rfl := Option.some.inj h
    omega

theorem evalParseNumberToken_read (h : evalParseNumberToken ext ctx pos = some (ctx', token)) :
    Read ctx pos ctx' token := by
  obtain ⟨len, hlen, hupdate⟩ := Option.map_eq_some_iff.mp h
  have hpos := evalParseNumber_pos hlen
  exact evalUpdateConstVariable_read (by simp only; omega) rfl hupdate

theorem constantMacroType_isOperand {kind : MacroType} (h : constantMacroType kind = some type) :
    type.isOperand = true := by
  cases kind <;> cases h <;> rfl

/-- A type that the loop gives to the constant is an operand type, and giving one moves on. -/
structure ConstantEnd (offset : ℕ) (type : Option TokenType) (result : Option TokenType × ℕ) :
    Prop where
  forward : offset ≤ result.2
  moved : result.1 = type ∨ offset < result.2
  operand : (∀ t ∈ type, t.isOperand = true) → ∀ t ∈ result.1, t.isOperand = true

theorem ConstantEnd.stop (offset : ℕ) (type : Option TokenType) :
    ConstantEnd offset type (type, offset) := ⟨le_rfl, .inl rfl, id⟩

theorem ConstantEnd.trans {next : ℕ} {type type' : Option TokenType} {result : Option TokenType × ℕ}
    (h : ConstantEnd next type' result) (hlt : offset < next)
    (hoperand : (∀ t ∈ type, t.isOperand = true) → ∀ t ∈ type', t.isOperand = true) :
    ConstantEnd offset type result :=
  ⟨hlt.le.trans h.forward, .inr (hlt.trans_le h.forward), fun ht => h.operand (hoperand ht)⟩

theorem constantLoop_end (ext : External) (ctx : Context) (pos fuel offset : ℕ)
    (type : Option TokenType) (afterNumber : Bool) :
    ConstantEnd offset type (constantLoop ext ctx pos fuel offset type afterNumber) := by
  induction fuel generalizing offset type afterNumber with
  | zero => exact .stop offset type
  | succ fuel ih =>
    have hnext (offset : ℕ) (type : Option TokenType) (afterNumber : Bool) :
        ConstantEnd offset type (if ctx.rules.compoundConst = true then
          constantLoop ext ctx pos fuel offset type afterNumber else (type, offset)) := by
      split
      · exact ih offset type afterNumber
      · exact .stop offset type
    have hnum : (∀ t ∈ type, t.isOperand = true) → ∀ t ∈ some varNum, t.isOperand = true := by
      rintro - t ⟨⟩
      rfl
    unfold constantLoop
    dsimp only
    split
    · split
      · exact .stop offset type
      · next kind len _ =>
        have hkind : (∀ t ∈ type, t.isOperand = true) →
            ∀ t ∈ if offset = pos then constantMacroType kind <|> type else some varNum,
              t.isOperand = true := by
          intro htype t ht
          split at ht
          · cases hk : constantMacroType kind with
            | none => exact htype t (by simpa [hk] using ht)
            | some t' =>
              obtain rfl : t' = t := by simpa [hk] using ht
              exact constantMacroType_isOperand hk
          · exact hnum htype t ht
        split
        · exact (ConstantEnd.stop _ (some varNum)).trans (by omega) hnum
        · exact (hnext _ _ _).trans (by omega) hkind
    · split
      · next len hlen =>
        have hpos : 0 < len := by
          split at hlen
          · cases hlen
          · exact evalParseNumber_pos hlen
        exact (hnext _ _ _).trans (by omega) hnum
      · split
        · exact (hnext _ _ _).trans (by omega) id
        · exact .stop offset type

theorem evalParseConstant_read (h : evalParseConstant ext ctx pos = .ok (ctx', token)) :
    Read ctx pos ctx' token := by
  have hend := constantLoop_end ext ctx pos (ctx.expression.length + 1) pos none false
  unfold evalParseConstant at h
  split at h
  · cases h
  · next type offset heq =>
    rw [heq] at hend
    have hoperand : type.isOperand = true := hend.operand (by simp) type rfl
    have hmoved : pos ≤ offset - 1 := by
      rcases hend.moved with hnone | hlt
      · cases hnone
      · simp only at hlt
        omega
    split at h
    · cases h
    · split at h
      · exact evalUpdateConstVariable_read hmoved hoperand (Except.ok.inj h)
      · cases h
        exact .ofOperand hmoved hoperand

theorem stringEnd_le {compat : Bool} (h : stringEnd compat pos s = .ok r) : pos ≤ r := by
  fun_induction stringEnd compat pos s with
  | case1 => cases h
  | case2 => cases h; exact le_rfl
  | case3 => cases h
  | case4 _ _ _ _ ih => exact (Nat.le_succ _).trans (ih h)
  | case5 => cases h
  | case6 _ _ _ _ _ ih => exact (Nat.le_add_right _ 2).trans (ih h)
  | case7 _ _ _ _ _ ih => exact (Nat.le_succ _).trans (ih h)

theorem evalParseStringToken_read (h : evalParseStringToken ctx pos = .ok (ctx', token)) :
    Read ctx pos ctx' token := by
  unfold evalParseStringToken at h
  split at h
  · next r hr =>
    have hle := stringEnd_le hr
    exact evalUpdateConstVariable_read (by simp only; omega) rfl (Except.ok.inj h)
  · cases h
  · cases h

theorem evalParseFunctionid_read (h : evalParseFunctionid ctx pos = some (ctx', token)) :
    Read ctx pos ctx' token := by
  obtain ⟨len, -, heq⟩ := Option.map_eq_some_iff.mp h
  cases heq
  have hread : Read ctx pos ctx ⟨functionid, 0, ⟨pos, pos + len⟩⟩ :=
    .ofOperand (Nat.le_add_right pos len) rfl
  exact { hread with func := by simp [isFunction] }

theorem evalParseLogicToken_read (h : evalParseLogicToken ctx pos = some token) :
    Read ctx pos ctx token := by
  obtain ⟨⟨type, len⟩, hkeyword, htoken⟩ := Option.bind_eq_some_iff.mp h
  dsimp only at htoken
  split at htoken
  · cases htoken
    have hcases : (type = opAnd ∨ type = opOr ∨ type = opNot) ∧ 0 < len := by
      split at hkeyword
      · cases hkeyword
        simp
      · split at hkeyword
        · cases hkeyword
          simp
        · split at hkeyword
          · cases hkeyword
            simp
          · cases hkeyword
    obtain ⟨htype, hlen⟩ := hcases
    refine .plain (by simp only; omega) ?_ ?_ ?_ <;> rcases htype with rfl | rfl | rfl <;>
      simp [isFunction, isProperty]
  · cases htoken

theorem evalParseFunctionToken_read (hstart : ctx.at pos ≠ '(')
    (h : evalParseFunctionToken ctx pos = some token) :
    Read ctx pos ctx token := by
  unfold evalParseFunctionToken at h
  dsimp only at h
  split at h
  · next hopen =>
    cases h
    have hlen : 0 < ((ctx.expression.drop pos).takeWhile isFunctionChar).length := by
      by_contra hzero
      rw [Nat.eq_zero_of_not_pos hzero] at hopen
      exact hstart hopen
    have hnext : pos + ((ctx.expression.drop pos).takeWhile isFunctionChar).length - 1 + 1 =
        pos + ((ctx.expression.drop pos).takeWhile isFunctionChar).length := by omega
    exact
      { expression := rfl
        rules := rfl
        last := rfl
        stack := rfl
        ops := .inl rfl
        progress := by simp only; omega
        started := by simp
        func := fun _ => ⟨rfl, rfl, by simp only [hnext]; exact hopen⟩
        property := by simp [isProperty] }
  · cases h

theorem evalParsePropertyToken_read (hrules : ctx.rules.property = true)
    (h : evalParsePropertyToken ctx pos = some token) :
    Read ctx pos ctx token := by
  have hread (type : TokenType) (len : ℕ) (hstarted : type ≠ classSeparator)
      (hfunc : type.isFunction = false) : Read ctx pos ctx ⟨type, 0, ⟨pos, pos + len⟩⟩ :=
    { expression := rfl
      rules := rfl
      last := rfl
      stack := rfl
      ops := .inl rfl
      progress := Nat.le_add_right pos len
      started := hstarted
      func := by simp [hfunc]
      property := fun _ => hrules }
  unfold evalParsePropertyToken at h
  dsimp only at h
  split at h
  · cases h
    exact hread _ 2 (by decide) rfl
  · split at h
    · cases h
      exact hread _ 4 (by decide) rfl
    · cases h

theorem evalParseWord_read (hstart : ctx.at pos ≠ '(') (h : evalParseWord ctx skip pos = some token)
    :
    Read ctx pos ctx token := by
  unfold evalParseWord at h
  dsimp only at h
  split at h
  · simp only [Option.orElse_eq_orElse, Option.orElse_eq_or, Option.or_eq_some_iff] at h
    rcases h with hlogic | ⟨-, hfunc | ⟨-, hprop⟩⟩
    · split at hlogic
      · exact evalParseLogicToken_read hlogic
      · cases hlogic
    · split at hfunc
      · exact evalParseFunctionToken_read hstart hfunc
      · cases hfunc
    · split at hprop
      · next hrules => exact evalParsePropertyToken_read hrules hprop
      · cases hprop
  · cases h

theorem evalParseLessCharacterToken_read (h : evalParseLessCharacterToken ctx pos = some token) :
    Read ctx pos ctx token := by
  unfold evalParseLessCharacterToken at h
  split at h
  · cases h
    exact .plain (Nat.le_succ pos) (by simp) rfl rfl
  · split at h
    · cases h
    · split at h
      · cases h
        exact .plain le_rfl (by simp [evalParseCharacterToken]) rfl rfl
      · cases h
        exact .plain (Nat.le_succ pos) (by simp) rfl rfl

theorem evalParseGreaterCharacterToken_read (ctx : Context) (pos : ℕ) :
    Read ctx pos ctx (evalParseGreaterCharacterToken ctx pos) := by
  unfold evalParseGreaterCharacterToken
  split
  · exact .plain (Nat.le_succ pos) (by simp) rfl rfl
  · exact .plain le_rfl (by simp [evalParseCharacterToken]) rfl rfl

theorem evalParseQueryToken_read (h : evalParseQueryToken ctx pos = .ok token) :
    Read ctx pos ctx token := by
  unfold evalParseQueryToken at h
  dsimp only at h
  split at h
  · cases h
  · cases h
    exact .ofOperand (by simp only; omega) rfl

theorem periodEnd_lt {fuel : ℕ} (hstart : pos < offset)
    (h : periodEnd ext ctx fuel offset = some r) :
    pos < r := by
  induction fuel generalizing offset with
  | zero => cases h
  | succ fuel ih =>
    unfold periodEnd at h
    dsimp only at h
    split at h
    · cases h
    · split at h
      · split at h
        · exact ih (by omega) h
        · exact ih (by omega) h
      · split at h
        · cases h
          exact hstart
        · exact ih (by omega) h

theorem evalParsePeriodToken_read (hcomma : ctx.at pos ≠ ',') (hclose : ctx.at pos ≠ ')')
    (hspace : isspace (ctx.at pos) = false) (h : evalParsePeriodToken ext ctx pos = .ok token) :
    Read ctx pos ctx token := by
  unfold evalParsePeriodToken at h
  split at h
  · next offset hoffset =>
    cases h
    have hlt : pos < offset := by
      unfold periodEnd at hoffset
      dsimp only at hoffset
      split at hoffset
      · cases hoffset
      · split at hoffset
        · split at hoffset
          · exact periodEnd_lt (by omega) hoffset
          · exact periodEnd_lt (by omega) hoffset
        · simp only [hcomma, hclose, hspace, Bool.false_eq_true, or_self, if_false] at hoffset
          exact periodEnd_lt (by omega) hoffset
    exact .ofOperand (by simp only; omega) rfl
  · cases h

theorem evalParseCharacterToken_read (ctx : Context) (pos : ℕ) (hstarted : type ≠ classSeparator)
    (hfunc : type.isFunction = false) (hproperty : type.isProperty = false) :
    Read ctx pos ctx (evalParseCharacterToken pos type) :=
  .plain le_rfl hstarted hfunc hproperty

theorem map_some_eq_ok {x : Except String α} {a : α} (h : x.map some = .ok (some a)) :
    x = .ok a := by
  cases x with
  | error e => cases h
  | ok b =>
    cases h
    rfl

theorem evalParseTokenAt_read (hspace : isspace (ctx.at pos) = false)
    (h : evalParseTokenAt ext ctx skip pos = .ok (some (ctx', token))) :
    Read ctx pos ctx' token := by
  have hchar {allowed : Bool} {type : TokenType} {message : String}
      (hstarted : type ≠ classSeparator) (hfunc : type.isFunction = false)
      (hproperty : type.isProperty = false)
      (h : (if allowed = true then .ok (some (ctx, evalParseCharacterToken pos type))
        else .error message : Except String (Option (Context × Token))) =
          .ok (some (ctx', token))) : Read ctx pos ctx' token := by
    split at h
    · cases h
      exact evalParseCharacterToken_read ctx pos hstarted hfunc hproperty
    · cases h
  have hperiod (hcomma : ctx.at pos ≠ ',') (hclose : ctx.at pos ≠ ')')
      (h : ((evalParsePeriodToken ext ctx pos).bind fun token =>
        (.ok (some (ctx, token)) : Except String (Option (Context × Token)))) =
          .ok (some (ctx', token))) : Read ctx pos ctx' token := by
    cases hp : evalParsePeriodToken ext ctx pos with
    | error e =>
      rw [hp] at h
      cases h
    | ok t =>
      rw [hp] at h
      cases h
      exact evalParsePeriodToken_read hcomma hclose hspace hp
  unfold evalParseTokenAt at h
  dsimp only at h
  split at h
  · -- '{'
    next hat =>
    split at h
    · exact hperiod (by simp [hat]) (by simp [hat]) h
    · split at h
      · next hid =>
        cases h
        split at hid
        · exact evalParseFunctionid_read hid
        · cases hid
      · exact evalParseConstant_read (map_some_eq_ok h)
  · exact hchar (by decide) rfl rfl h
  · -- '-'
    split at h
    · next hnumber =>
      cases h
      split at hnumber
      · exact evalParseNumberToken_read hnumber
      · cases hnumber
    · exact hchar (by split <;> decide) (by split <;> rfl) (by split <;> rfl) h
  · -- '/'
    split at h
    · next hquery =>
      split at h
      · cases h
      · next ops hops =>
        cases hq : evalParseQueryToken ctx pos with
        | error e =>
          rw [hq] at h
          cases h
        | ok t =>
          rw [hq] at h
          cases h
          exact { evalParseQueryToken_read hq with ops := .inr ⟨hquery.1, hops⟩ }
    · exact hchar (by decide) rfl rfl h
  · exact hchar (by decide) rfl rfl h
  · -- '<'
    split at h
    · split at h
      · next hless =>
        cases h
        exact evalParseLessCharacterToken_read hless
      · cases h
    · cases h
  · -- '>'
    split at h
    · cases h
      exact evalParseGreaterCharacterToken_read ctx pos
    · cases h
  · exact hchar (by decide) rfl rfl h
  · exact hchar (by decide) rfl rfl h
  · exact hchar (by decide) rfl rfl h
  · -- '"'
    split at h
    · exact evalParseStringToken_read (map_some_eq_ok h)
    · cases h
  · -- '#'
    next hat =>
    split at h
    · exact hperiod (by simp [hat]) (by simp [hat]) h
    · cases h
  · exact hchar (by decide) rfl rfl h
  · cases h
  · -- digits and words
    next hopen hclose _ _ hcomma _ =>
    split at h
    · exact hperiod hcomma hclose h
    · split at h
      · split at h
        · exact evalParseConstant_read (map_some_eq_ok h)
        · cases h
      · split at h
        · next hword =>
          cases h
          exact evalParseWord_read hopen hword
        · cases h

theorem isspace_charAt_dropWhile (s : List Char) : isspace (charAt (s.dropWhile isspace)) = false := by
  cases h : s.dropWhile isspace with
  | nil => rfl
  | cons c cs =>
    have hne : s.dropWhile isspace ≠ [] := by simp [h]
    have hhead := head_dropWhile_not isspace hne
    simpa [h, charAt] using hhead

theorem drop_takeWhile_length (p : α → Bool) (s : List α) :
    s.drop (s.takeWhile p).length = s.dropWhile p := by
  induction s with
  | nil => rfl
  | cons a s ih => by_cases h : p a <;> simp [h, ih]

theorem isspace_at_whitespace (ctx : Context) (pos : ℕ) :
    isspace (ctx.at (pos + evalGetWhitespaceLen ctx pos)) = false := by
  unfold Context.at evalGetWhitespaceLen
  rw [← drop_drop, drop_takeWhile_length]
  exact isspace_charAt_dropWhile _

theorem evalParseToken_read (h : evalParseToken ext ctx pos = .ok (some (ctx', token))) :
    Read ctx pos ctx' token :=
  (evalParseTokenAt_read (isspace_at_whitespace ctx pos) h).weaken (Nat.le_add_right _ _)

theorem evalParseToken_of_open (hat : ctx.at pos = '(') :
    evalParseToken ext ctx pos ≠ .ok none := by
  have hlen : evalGetWhitespaceLen ctx pos = 0 := by
    unfold evalGetWhitespaceLen
    unfold Context.at charAt at hat
    cases hs : ctx.expression.drop pos with
    | nil => rfl
    | cons c cs =>
      obtain rfl : c = '(' := by simpa [hs] using hat
      rfl
  unfold evalParseToken evalParseTokenAt
  simp only [hlen, Nat.add_zero, hat]
  split <;> simp

def parseSteps (ext : External) : ℕ → Context → ℕ → List (Context × Token)
  | 0, _, _ => []
  | fuel + 1, ctx, pos =>
    if ctx.expression.length ≤ pos then []
    else
      match evalParseToken ext ctx pos with
      | .ok (some (ctx, token)) =>
        (ctx, token) :: (parseStep ext ctx pos token).toOption.elim [] fun ctx =>
          parseSteps ext fuel ctx (token.loc.r + 1)
      | _ => []

inductive Parses (ext : External) : Context → ℕ → List (Context × Token) → Context → Prop
  | finish {ctx : Context} {pos : ℕ} :
      ctx.expression.length ≤ pos ∨ evalParseToken ext ctx pos = .ok none →
      Parses ext ctx pos [] ctx
  | step {ctx read next last : Context} {pos : ℕ} {token : Token}
      {steps : List (Context × Token)} :
      Read ctx pos read token → parseStep ext read pos token = .ok next →
      Parses ext next (token.loc.r + 1) steps last →
      Parses ext ctx pos ((read, token) :: steps) last

theorem parses_of_parseLoop {fuel : ℕ} {last : Context}
    (h : parseLoop ext fuel ctx pos = some (.ok last)) :
    Parses ext ctx pos (parseSteps ext fuel ctx pos) last := by
  induction fuel generalizing ctx pos with
  | zero => cases h
  | succ fuel ih =>
    unfold parseLoop at h
    unfold parseSteps
    split at h
    · next hend =>
      cases h
      rw [if_pos hend]
      exact .finish (.inl hend)
    · next hend =>
      rw [if_neg hend]
      split at h
      · cases h
      · next hnone =>
        cases h
        rw [hnone]
        exact .finish (.inr hnone)
      · next read token hread =>
        rw [hread]
        split at h
        · cases h
        · next next hnext =>
          simp only [hnext]
          exact .step (evalParseToken_read hread) hnext (ih h)

structure Extends (ctx ctx' : Context) : Prop where
  expression : ctx'.expression = ctx.expression
  rules : ctx'.rules = ctx.rules
  stack : ctx.stack <+: ctx'.stack

theorem Extends.trans {a b c : Context} (h : Extends a b) (h' : Extends b c) : Extends a c :=
  ⟨h'.expression.trans h.expression, h'.rules.trans h.rules, h.stack.trans h'.stack⟩

theorem Extends.ofStack (hexpression : ctx'.expression = ctx.expression)
    (hrules : ctx'.rules = ctx.rules) (hstack : ctx'.stack = ctx.stack) : Extends ctx ctx' :=
  ⟨hexpression, hrules, hstack ▸ prefix_rfl⟩

theorem evalAppendOperator_extends (h : evalAppendOperator ext ctx token = .ok ctx') :
    Extends ctx ctx' := by
  unfold evalAppendOperator at h
  dsimp only at h
  split at h
  · obtain ⟨-, -, rfl⟩ := map_eq_ok h
    exact ⟨rfl, rfl, prefix_append _ _⟩
  · cases h
    exact ⟨rfl, rfl, prefix_append _ _⟩

theorem evalAppendOperand_eq_ok (h : evalAppendOperand ctx token = .ok ctx') :
    ctx' = { ctx with stack := ctx.stack ++ [token] } ∧ ctx.lastTokenType.beforeOperand = true := by
  unfold evalAppendOperand at h
  dsimp only at h
  split at h
  · cases h
  · next hbefore =>
    refine ⟨?_, by simpa using hbefore⟩
    split at h
    · split at h <;> split at h <;> cases h <;> rfl
    · cases h
      rfl

theorem popOps_extends {stop : Token → Bool} {ops : List Token}
    (h : popOps ext stop ops ctx = .ok ctx') : Extends ctx ctx' := by
  induction ops generalizing ctx with
  | nil =>
    cases h
    exact .ofStack rfl rfl rfl
  | cons op ops ih =>
    unfold popOps at h
    split at h
    · cases h
      exact .ofStack rfl rfl rfl
    · obtain ⟨mid, hmid, hrest⟩ := bind_eq_ok h
      exact (evalAppendOperator_extends hmid).trans (ih hrest)

theorem commaStep_extends (h : commaStep ext ctx pos = .ok ctx') : Extends ctx ctx' := by
  unfold commaStep at h
  dsimp only at h
  split at h
  · cases h
  · split at h
    · split at h
      · cases h
      · have hpop := popOps_extends h
        exact ⟨hpop.expression, hpop.rules, (prefix_append _ _).trans hpop.stack⟩
    · split at h
      · cases h
      · exact popOps_extends h

theorem closeFunction_extends (h : closeFunction ext ctx pos = .ok ctx') : Extends ctx ctx' := by
  unfold closeFunction at h
  split at h
  · cases h
    exact .ofStack rfl rfl rfl
  · split at h
    · obtain ⟨mid, hmid, rfl⟩ := map_eq_ok h
      exact (evalAppendOperator_extends hmid).trans (.ofStack rfl rfl rfl)
    · split at h
      · cases h
      · cases h
        exact .ofStack rfl rfl rfl

theorem closeStep_extends (h : closeStep ext ctx pos = .ok ctx') : Extends ctx ctx' := by
  unfold closeStep at h
  dsimp only at h
  split at h
  · cases h
  · split at h
    · cases h
    · obtain ⟨mid, hmid, hclose⟩ := bind_eq_ok h
      have hfunc := closeFunction_extends hclose
      exact (popOps_extends hmid).trans ⟨hfunc.expression, hfunc.rules, hfunc.stack⟩

theorem operatorStep_extends (h : operatorStep ext ctx pos token = .ok ctx') :
    Extends ctx ctx' := by
  unfold operatorStep at h
  dsimp only at h
  split at h
  · cases h
  · split at h
    · cases h
    · obtain ⟨mid, hmid, rfl⟩ := map_eq_ok h
      exact (popOps_extends hmid).trans (.ofStack rfl rfl rfl)

inductive Dispatched (ext : External) (ctx : Context) (pos : ℕ) (token : Token) : Context → Prop
  | opens : token.type = groupOpen →
      ctx.lastTokenType.beforeOperand = true ∨ ctx.lastTokenType.isFunction = true →
      Dispatched ext ctx pos token { ctx with ops := token :: ctx.ops }
  | func : token.type.isFunction = true → ctx.lastTokenType.beforeOperand = true →
      Dispatched ext ctx pos token { ctx with ops := token :: ctx.ops }
  | comma {done : Context} : token.type = comma → commaStep ext ctx pos = .ok done →
      Dispatched ext ctx pos token done
  | close {done : Context} : token.type = groupClose → closeStep ext ctx pos = .ok done →
      Dispatched ext ctx pos token done
  | operand : token.type ≠ groupClose → (token.type.isOperand || token.type.isProperty) = true →
      ctx.lastTokenType.beforeOperand = true →
      Dispatched ext ctx pos token { ctx with stack := ctx.stack ++ [token] }
  | operator {done : Context} : token.type.isOperator = true →
      operatorStep ext ctx pos token = .ok done → Dispatched ext ctx pos token done

theorem dispatchToken_cases (hstarted : token.type ≠ classSeparator)
    (h : dispatchToken ext ctx pos token = .ok done) :
    Dispatched ext ctx pos token done := by
  unfold dispatchToken at h
  dsimp only at h
  split at h
  · next htype =>
    split at h
    · cases h
    · next hlast =>
      cases h
      rw [Bool.not_eq_true', Bool.not_eq_false, Bool.or_eq_true] at hlast
      exact .opens htype hlast
  · next hopen =>
    split at h
    · next hfunc =>
      split at h
      · cases h
      · next hlast =>
        cases h
        exact .func hfunc (by simpa using hlast)
    · next hfunc =>
      split at h
      · next hcomma => exact .comma hcomma h
      · next hcomma =>
        split at h
        · next hclose => exact .close hclose h
        · next hclose =>
          split at h
          · next hoperand =>
            obtain ⟨rfl, hlast⟩ := evalAppendOperand_eq_ok h
            exact .operand hclose hoperand hlast
          · next hoperand =>
            have hoperator : token.type.isOperator = true := by
              revert hstarted hopen hfunc hcomma hclose hoperand
              cases token.type <;> simp [isFunction, isOperand, isProperty, isOperator,
                isOperator1, isOperator2]
            rw [if_pos hoperator] at h
            exact .operator hoperator h

theorem Dispatched.extends (h : Dispatched ext ctx pos token done) : Extends ctx done := by
  cases h with
  | opens | func => exact .ofStack rfl rfl rfl
  | operand => exact ⟨rfl, rfl, prefix_append _ _⟩
  | comma _ h => exact commaStep_extends h
  | close _ h => exact closeStep_extends h
  | operator _ h => exact operatorStep_extends h

theorem parseStep_cases (hstarted : token.type ≠ classSeparator)
    (h : parseStep ext ctx pos token = .ok next) :
    ∃ done, Dispatched ext
        (if token.type = groupClose ∧ ctx.lastTokenType = comma then evalAppendArgNull ctx else ctx)
        pos token done ∧ next = { done with lastTokenType := token.type } := by
  unfold parseStep at h
  split at h
  · cases h
  · split at h
    · cases h
    · obtain ⟨done, hdone, rfl⟩ := map_eq_ok h
      exact ⟨done, dispatchToken_cases hstarted hdone, rfl⟩

theorem parseStep_extends (hstarted : token.type ≠ classSeparator)
    (h : parseStep ext ctx pos token = .ok next) :
    Extends ctx next := by
  obtain ⟨done, hdone, rfl⟩ := parseStep_cases hstarted h
  have hstart : Extends ctx (if token.type = groupClose ∧ ctx.lastTokenType = comma then
      evalAppendArgNull ctx else ctx) := by
    split
    · exact ⟨rfl, rfl, prefix_append _ _⟩
    · exact .ofStack rfl rfl rfl
  exact hstart.trans (hdone.extends.trans (.ofStack rfl rfl rfl))

theorem parseLoop_isSome (ext : External) {fuel : ℕ} (hfuel : 0 < fuel)
    (hlength : ctx.expression.length < pos + fuel) : (parseLoop ext fuel ctx pos).isSome := by
  induction fuel generalizing ctx pos with
  | zero => omega
  | succ fuel ih =>
    unfold parseLoop
    split
    · rfl
    · split
      · rfl
      · rfl
      · next read token hread =>
        split
        · rfl
        · next next hnext =>
          have htoken := evalParseToken_read hread
          have hprogress := htoken.progress
          have hsame : next.expression = ctx.expression :=
            (parseStep_extends htoken.started hnext).expression.trans htoken.expression
          apply ih
          · omega
          · rw [hsame]
            omega

theorem evalParseExpression_isSome (ext : External) (expression : List Char) (rules : Rules) :
    (evalParseExpression ext (expression.length + 1) expression rules).isSome := by
  unfold evalParseExpression
  rw [Option.isSome_map]
  exact parseLoop_isSome ext (Nat.succ_pos _) (by simp [initialContext])

end Zabbix.Eval
