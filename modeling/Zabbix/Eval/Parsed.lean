import Zabbix.Eval.Progress

/-!
# The tokens of a parsed expression

Parsing moves the tokens it reads. It changes nothing but the argument count of a function and
its type when it becomes a history function, and adds a token only for an omitted argument.
-/

namespace Zabbix.Eval

open List Option Expr TokenType

/-- A property of tokens that holds of all that parsing reads, changes and adds. -/
structure KeptByParsing (ext : External) (P : Token → Prop) : Prop where
  opt : ∀ token opt, P token → P { token with opt }
  hist : ∀ token, P token → P { token with type := histFunction }
  argNull : P ⟨argNull, 0, ⟨0, 0⟩⟩
  read : ∀ {ctx ctx' : Context} {pos : ℕ} {token : Token},
    evalParseToken ext ctx pos = .ok (some (ctx', token)) → P token

structure Context.All (P : Token → Prop) (ctx : Context) : Prop where
  stack : ∀ token ∈ ctx.stack, P token
  ops : ∀ token ∈ ctx.ops, P token

theorem setHistFunction_eq_some {ops ops' : List Token} (h : setHistFunction ops = some ops') :
    ∃ top func rest, ops = top :: func :: rest ∧
      ops' = top :: { func with type := histFunction } :: rest := by
  unfold setHistFunction at h
  split at h
  · next top func rest =>
    split at h
    · exact ⟨top, func, rest, rfl, (Option.some.inj h).symm⟩
    · cases h
  · cases h

section Kept

variable {ext : External} {P : Token → Prop} (hP : KeptByParsing ext P)
  {ctx ctx' : Context} {token : Token} {pos : ℕ}

theorem Context.All.push (h : ctx.All P) (htoken : P token) :
    Context.All P { ctx with ops := token :: ctx.ops } :=
  ⟨h.stack, forall_mem_cons.mpr ⟨htoken, h.ops⟩⟩

theorem Context.All.append (h : ctx.All P) (htoken : P token) :
    Context.All P { ctx with stack := ctx.stack ++ [token] } := by
  refine ⟨fun t ht => ?_, h.ops⟩
  rcases mem_append.mp ht with ht | ht
  · exact h.stack t ht
  · rw [mem_singleton.mp ht]
    exact htoken

include hP

variable (h : ctx.All P)

include h

theorem evalAppendOperator_all (htoken : P token)
    (happend : evalAppendOperator ext ctx token = .ok ctx') :
    ctx'.All P ∧ ctx'.ops = ctx.ops := by
  unfold evalAppendOperator at happend
  have hchanged : P (if token.type.isFunction then
      { token with opt := countParams (ctx.stack.drop token.opt.toNat) } else token) := by
    split
    · exact hP.opt token _ htoken
    · exact htoken
  dsimp only at happend
  split at happend
  · obtain ⟨-, -, rfl⟩ := map_eq_ok happend
    exact ⟨h.append hchanged, rfl⟩
  · cases happend
    exact ⟨h.append hchanged, rfl⟩

theorem evalAppendArgNull_all : (evalAppendArgNull ctx).All P := h.append hP.argNull

theorem popOps_all {stop : Token → Bool} {ops : List Token} (hops : ∀ op ∈ ops, P op)
    (hpop : popOps ext stop ops ctx = .ok ctx') : ctx'.All P := by
  induction ops generalizing ctx with
  | nil =>
    cases hpop
    exact ⟨h.stack, hops⟩
  | cons op ops ih =>
    unfold popOps at hpop
    split at hpop
    · cases hpop
      exact ⟨h.stack, hops⟩
    · obtain ⟨mid, hmid, hrest⟩ := bind_eq_ok hpop
      obtain ⟨hop, hops⟩ := forall_mem_cons.mp hops
      exact ih (evalAppendOperator_all hP h hop hmid).1 hops hrest

theorem commaStep_all (hcomma : commaStep ext ctx pos = .ok ctx') : ctx'.All P := by
  unfold commaStep at hcomma
  have hstart :
      (if ctx.lastTokenType.isSeparator then evalAppendArgNull ctx else ctx).All P := by
    split
    · exact evalAppendArgNull_all hP h
    · exact h
  dsimp only at hcomma
  generalize (if ctx.lastTokenType.isSeparator then evalAppendArgNull ctx else ctx) = start
    at hcomma hstart
  split at hcomma
  · cases hcomma
  · split at hcomma
    · cases hcomma
    · exact popOps_all hP hstart hstart.ops hcomma

theorem closeStep_all (hclose : closeStep ext ctx pos = .ok ctx') : ctx'.All P := by
  unfold closeStep at hclose
  dsimp only at hclose
  split at hclose
  · cases hclose
  · split at hclose
    · cases hclose
    · obtain ⟨mid, hmid, hclose⟩ := bind_eq_ok hclose
      have hpopped := popOps_all hP h h.ops hmid
      have htail : Context.All P { mid with ops := mid.ops.tail } :=
        ⟨hpopped.stack, fun t ht => hpopped.ops t (mem_of_mem_tail ht)⟩
      unfold closeFunction at hclose
      split at hclose
      · cases hclose
        exact htail
      · next op ops hops =>
        obtain ⟨hop, hrest⟩ := forall_mem_cons.mp (hops ▸ htail.ops)
        split at hclose
        · obtain ⟨done, hdone, rfl⟩ := map_eq_ok hclose
          exact ⟨(evalAppendOperator_all hP htail hop hdone).1.stack, hrest⟩
        · split at hclose
          · cases hclose
          · cases hclose
            exact htail

theorem operatorStep_all (htoken : P token) (hoperator : operatorStep ext ctx pos token = .ok ctx')
    : ctx'.All P := by
  unfold operatorStep at hoperator
  dsimp only at hoperator
  split at hoperator
  · cases hoperator
  · split at hoperator
    · cases hoperator
    · obtain ⟨mid, hmid, rfl⟩ := map_eq_ok hoperator
      exact (popOps_all hP h h.ops hmid).push htoken

theorem parseStep_all (htoken : P token) (hstarted : token.type ≠ classSeparator)
    (hstep : parseStep ext ctx pos token = .ok ctx') : ctx'.All P := by
  obtain ⟨done, hdone, rfl⟩ := parseStep_cases hstarted hstep
  have hstart : Context.All P (if token.type = groupClose ∧ ctx.lastTokenType = comma then
      evalAppendArgNull ctx else ctx) := by
    split
    · exact evalAppendArgNull_all hP h
    · exact h
  have hall : done.All P := by
    cases hdone with
    | opens | func => exact hstart.push htoken
    | comma _ hcomma => exact commaStep_all hP hstart hcomma
    | close _ hclose => exact closeStep_all hP hstart hclose
    | operand => exact hstart.append htoken
    | operator _ hoperator => exact operatorStep_all hP hstart htoken hoperator
  exact ⟨hall.stack, hall.ops⟩

omit h

theorem Read.all (hread : Read ctx pos ctx' token) (h : ctx.All P) : ctx'.All P := by
  refine ⟨hread.stack ▸ h.stack, ?_⟩
  rcases hread.ops with hops | ⟨-, hops⟩
  · rw [hops]
    exact h.ops
  · obtain ⟨top, func, rest, hbefore, hafter⟩ := setHistFunction_eq_some hops
    have hall := h.ops
    rw [hbefore, forall_mem_cons, forall_mem_cons] at hall
    rw [hafter, forall_mem_cons, forall_mem_cons]
    exact ⟨hall.1, hP.hist func hall.2.1, hall.2.2⟩

theorem parseLoop_all {fuel : ℕ} (h : ctx.All P)
    (hloop : parseLoop ext fuel ctx pos = some (.ok ctx')) : ctx'.All P := by
  induction fuel generalizing ctx pos with
  | zero => cases hloop
  | succ fuel ih =>
    unfold parseLoop at hloop
    split at hloop
    · cases hloop
      exact h
    · split at hloop
      · cases hloop
      · cases hloop
        exact h
      · next read token hread =>
        split at hloop
        · cases hloop
        · next next hnext =>
          have htoken := evalParseToken_read hread
          exact ih (parseStep_all hP (htoken.all hP h) (hP.read hread) htoken.started hnext) hloop

theorem evalParseExpression_all {fuel : ℕ} {expression : List Char} {rules : Rules}
    {tokens : List Token}
    (h : evalParseExpression ext fuel expression rules = some (.ok tokens)) :
    ∀ token ∈ tokens, P token := by
  obtain ⟨result, hloop, hend⟩ := map_eq_some_iff.mp h
  obtain ⟨ctx, rfl, hend⟩ := bind_eq_ok hend
  have hstart : (initialContext expression rules).All P :=
    ⟨fun t ht => absurd ht not_mem_nil, fun t ht => absurd ht not_mem_nil⟩
  have hall := parseLoop_all hP hstart hloop
  change parseEnd ext ctx = .ok tokens at hend
  unfold parseEnd at hend
  split at hend
  · cases hend
  · split at hend
    · cases hend
    · obtain ⟨done, hdone, hend⟩ := bind_eq_ok hend
      have hstack := (popOps_all hP hall hall.ops hdone).stack
      split at hend
      · cases hend
      · split at hend
        · cases hend
        · split at hend
          · cases hend
          · cases hend
            exact hstack
        · cases hend
          exact hstack

end Kept

def Token.IdInBraces (token : Token) : Prop := token.type = functionid → token.loc.l < token.loc.r

section IdInBraces

variable {ext : External} {ctx ctx' : Context} {pos skip : ℕ} {token : Token}

theorem Token.idInBraces_of_ne (h : token.type ≠ functionid) : token.IdInBraces :=
  fun heq => absurd heq h

theorem evalUpdateConstVariable_idInBraces {token' : Token} (hne : token.type ≠ functionid)
    (h : evalUpdateConstVariable ctx token = (ctx', token')) : token'.IdInBraces := by
  unfold evalUpdateConstVariable at h
  split at h <;> cases h <;> exact Token.idInBraces_of_ne hne

variable (ext ctx pos) in
theorem constantLoop_type (fuel offset : ℕ) (type : Option TokenType) (afterNumber : Bool)
    (h : type ≠ some functionid) :
    (constantLoop ext ctx pos fuel offset type afterNumber).1 ≠ some functionid := by
  induction fuel generalizing offset type afterNumber with
  | zero => exact h
  | succ fuel ih =>
    have hnext (offset : ℕ) (type : Option TokenType) (afterNumber : Bool)
        (h : type ≠ some functionid) : (if ctx.rules.compoundConst = true then
          constantLoop ext ctx pos fuel offset type afterNumber else (type, offset)).1 ≠
            some functionid := by
      split
      · exact ih offset type afterNumber h
      · exact h
    have hnum : some varNum ≠ some functionid := by decide
    unfold constantLoop
    dsimp only
    split
    · split
      · exact h
      · next kind len _ =>
        split
        · exact hnum
        · refine hnext _ _ _ ?_
          split
          · cases kind <;> simp [constantMacroType, h]
          · exact hnum
    · split
      · exact hnext _ _ _ hnum
      · split
        · exact hnext _ _ _ h
        · exact h

theorem evalParseConstant_idInBraces (h : evalParseConstant ext ctx pos = .ok (ctx', token)) :
    token.IdInBraces := by
  have htype := constantLoop_type ext ctx pos (ctx.expression.length + 1) pos none false (by simp)
  unfold evalParseConstant at h
  split at h
  · cases h
  · next type offset heq =>
    rw [heq] at htype
    have hne : type ≠ functionid := fun h => htype (congrArg some h)
    split at h
    · cases h
    · split at h
      · exact evalUpdateConstVariable_idInBraces hne (Except.ok.inj h)
      · cases h
        exact Token.idInBraces_of_ne hne

theorem tokenParseObjectid_pos {text : List Char} {len : ℕ}
    (h : tokenParseObjectid text pos = some len) : 0 < len := by
  unfold tokenParseObjectid at h
  dsimp only at h
  split at h
  · rw [← Option.some.inj h]
    exact Nat.succ_pos _
  · cases h

theorem evalParseWord_idInBraces (h : evalParseWord ctx skip pos = some token) :
    token.IdInBraces := by
  unfold evalParseWord at h
  dsimp only at h
  split at h
  · simp only [orElse_eq_orElse, orElse_eq_or, or_eq_some_iff] at h
    rcases h with hlogic | ⟨-, hfunc | ⟨-, hprop⟩⟩
    · split at hlogic
      · obtain ⟨⟨type, len⟩, hkeyword, htoken⟩ := bind_eq_some_iff.mp hlogic
        have hne : type ≠ functionid := by
          rintro rfl
          grind
        dsimp only at htoken
        split at htoken <;> cases htoken
        exact Token.idInBraces_of_ne hne
      · cases hlogic
    · split at hfunc
      · unfold evalParseFunctionToken at hfunc
        dsimp only at hfunc
        split at hfunc <;> cases hfunc
        exact Token.idInBraces_of_ne (by simp)
      · cases hfunc
    · split at hprop
      · unfold evalParsePropertyToken at hprop
        dsimp only at hprop
        split at hprop
        · cases hprop
          exact Token.idInBraces_of_ne (by simp)
        · split at hprop <;> cases hprop
          exact Token.idInBraces_of_ne (by simp)
      · cases hprop
  · cases h

theorem evalParseTokenAt_idInBraces
    (h : evalParseTokenAt ext ctx skip pos = .ok (some (ctx', token))) : token.IdInBraces := by
  have hchar {allowed : Bool} {type : TokenType} {message : String} (hne : type ≠ functionid)
      (h : (if allowed = true then .ok (some (ctx, evalParseCharacterToken pos type))
        else .error message : Except String (Option (Context × Token))) =
          .ok (some (ctx', token))) : token.IdInBraces := by
    split at h
    · cases h
      exact Token.idInBraces_of_ne hne
    · cases h
  have hperiod (h : ((evalParsePeriodToken ext ctx pos).bind fun token =>
        (.ok (some (ctx, token)) : Except String (Option (Context × Token)))) =
          .ok (some (ctx', token))) : token.IdInBraces := by
    obtain ⟨t, ht, heq⟩ := bind_eq_ok h
    cases heq
    unfold evalParsePeriodToken at ht
    split at ht
    · cases ht
      exact Token.idInBraces_of_ne (by simp)
    · cases ht
  unfold evalParseTokenAt at h
  dsimp only at h
  split at h
  · -- '{'
    split at h
    · exact hperiod h
    · split at h
      · next hid =>
        cases h
        split at hid
        · obtain ⟨len, hlen, heq⟩ := map_eq_some_iff.mp hid
          cases heq
          exact fun _ => Nat.lt_add_of_pos_right (tokenParseObjectid_pos hlen)
        · cases hid
      · exact evalParseConstant_idInBraces (map_some_eq_ok h)
  · exact hchar (by decide) h
  · -- '-'
    split at h
    · next hnumber =>
      cases h
      split at hnumber
      · obtain ⟨len, -, heq⟩ := map_eq_some_iff.mp hnumber
        exact evalUpdateConstVariable_idInBraces (by simp) heq
      · cases hnumber
    · exact hchar (by split <;> decide) h
  · -- '/'
    split at h
    · split at h
      · cases h
      · obtain ⟨t, ht, heq⟩ := map_eq_ok h
        cases heq
        unfold evalParseQueryToken at ht
        dsimp only at ht
        split at ht
        · cases ht
        · cases ht
          exact Token.idInBraces_of_ne (by simp)
    · exact hchar (by decide) h
  · exact hchar (by decide) h
  · -- '<'
    split at h
    · split at h
      · next hless =>
        cases h
        unfold evalParseLessCharacterToken at hless
        grind [Token.IdInBraces, evalParseCharacterToken]
      · cases h
    · cases h
  · -- '>'
    split at h
    · cases h
      unfold evalParseGreaterCharacterToken
      split <;> exact Token.idInBraces_of_ne (by simp [evalParseCharacterToken])
    · cases h
  · exact hchar (by decide) h
  · exact hchar (by decide) h
  · exact hchar (by decide) h
  · -- '"'
    split at h
    · have hs := map_some_eq_ok h
      unfold evalParseStringToken at hs
      split at hs
      · exact evalUpdateConstVariable_idInBraces (by simp) (Except.ok.inj hs)
      · cases hs
      · cases hs
    · cases h
  · -- '#'
    split at h
    · exact hperiod h
    · cases h
  · exact hchar (by decide) h
  · cases h
  · -- digits and words
    split at h
    · exact hperiod h
    · split at h
      · split at h
        · exact evalParseConstant_idInBraces (map_some_eq_ok h)
        · cases h
      · split at h
        · next hword =>
          cases h
          exact evalParseWord_idInBraces hword
        · cases h

theorem idInBraces_kept (ext : External) : KeptByParsing ext Token.IdInBraces where
  opt := fun _ _ h => h
  hist := fun _ _ => Token.idInBraces_of_ne (by simp)
  argNull := Token.idInBraces_of_ne (by simp)
  read := fun h => evalParseTokenAt_idInBraces h

end IdInBraces

end Zabbix.Eval
