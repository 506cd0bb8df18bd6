import Zabbix.Foundation.Postfix
import Zabbix.Json.FilterLexing

/-!
# The postfix form of a filter expression

When the tokens that `jsonpath_parse_expression` puts out are a program that can be evaluated.
-/

namespace Zabbix.JsonPath

open List Zabbix.Expr Zabbix.Json Zabbix.Postfix

variable {state next : ParseState} {type : TokenType} {text ptr : List Char}
variable {operators output operators' output' pending rest tail : List Token} {token : Token}
  {seen : Bool}

def groupAfter (type : TokenType) : TokenGroup :=
  if type = .parenRight then .operand else jsonpathTokenGroup type

theorem popOperators_eq {precedence : ℕ}
    (h : popOperators precedence operators output = (operators', output')) :
    ∃ popped, operators = popped ++ operators' ∧ output' = output ++ popped ∧
      (∀ t ∈ popped, jsonpathTokenPrecedence t.type ≤ precedence ∧ t.type ≠ .parenLeft) ∧
      ∀ t ∈ operators'.head?, precedence < jsonpathTokenPrecedence t.type ∨ t.type = .parenLeft := by
  induction operators generalizing output with
  | nil =>
    cases h
    exact ⟨[], rfl, (append_nil _).symm, nofun, nofun⟩
  | cons optoken operators ih =>
    rw [popOperators] at h
    split_ifs at h with hstop
    · cases h
      refine ⟨[], rfl, (append_nil _).symm, nofun, ?_⟩
      rintro t ⟨⟩
      exact hstop
    · obtain ⟨popped, rfl, rfl, hpopped, hhead⟩ := ih h
      rw [not_or, not_lt] at hstop
      refine ⟨optoken :: popped, rfl, by simp, ?_, hhead⟩
      rintro t (_ | ⟨_, ht⟩)
      · exact hstop
      · exact hpopped t ht

theorem popParen_eq (h : popParen operators output = some (operators', output')) :
    ∃ popped paren, operators = popped ++ paren :: operators' ∧ paren.type = .parenLeft ∧
      output' = output ++ popped ∧ ∀ t ∈ popped, t.type ≠ .parenLeft := by
  induction operators generalizing output with
  | nil => cases h
  | cons optoken operators ih =>
    rw [popParen] at h
    split_ifs at h with hparen
    · cases h
      exact ⟨[], optoken, rfl, hparen, (append_nil _).symm, nofun⟩
    · obtain ⟨popped, paren, rfl, hleft, rfl, hpopped⟩ := ih h
      refine ⟨optoken :: popped, paren, rfl, hleft, by simp, ?_⟩
      rintro t (_ | ⟨_, ht⟩)
      · exact hparen
      · exact hpopped t ht

theorem flushOperators_eq {expression : List Char}
    (h : flushOperators expression operators output = .ok output') :
    output' = output ++ operators ∧ ∀ t ∈ operators, t.type ≠ .parenLeft := by
  induction operators generalizing output with
  | nil =>
    cases h
    exact ⟨(append_nil _).symm, nofun⟩
  | cons optoken operators ih =>
    rw [flushOperators] at h
    split_ifs at h with hparen
    obtain ⟨rfl, hrest⟩ := ih h
    refine ⟨by simp, ?_⟩
    rintro t (_ | ⟨_, ht⟩)
    · exact hparen
    · exact hrest t ht

theorem createToken_type (h : jsonpathCreateToken type text = .ok token) : token.type = type := by
  unfold jsonpathCreateToken at h
  split at h
  · cases h
    rfl
  · cases hpath : jsonpathCreateTokenJsonpath text <;> rw [hpath] at h <;> cases h
    rfl
  · cases hpath : jsonpathCreateTokenJsonpath text <;> rw [hpath] at h <;> cases h
    rfl
  · cases h
    rfl
  · cases h
    rfl

theorem createToken_map {α : Type} {f : Token → α} {a : α}
    (h : (jsonpathCreateToken type text).map f = .ok a) : ∃ token, token.type = type ∧ f token = a := by
  cases htoken : jsonpathCreateToken type text with
  | error e =>
    rw [htoken] at h
    cases h
  | ok token =>
    rw [htoken] at h
    exact ⟨token, createToken_type htoken, Except.ok.inj h⟩

inductive Takes (state : ParseState) : TokenType → ParseState → Prop
  | operand (type : TokenType) (token : Token) (hgroup : jsonpathTokenGroup type = .operand)
      (hprev : state.prevGroup ≠ .operand) (htype : token.type = type) :
      Takes state type { state with
        operators := token :: state.operators
        prevGroup := .operand }
  | operator (type : TokenType) (token : Token) (popped operators : List Token)
      (hgroup : jsonpathTokenGroup type = .operator2 ∧ state.prevGroup = .operand ∨
        jsonpathTokenGroup type = .operator1 ∧ state.prevGroup ≠ .operand)
      (htype : token.type = type) (hoperators : state.operators = popped ++ operators)
      (hpopped : ∀ t ∈ popped, jsonpathTokenPrecedence t.type ≤ jsonpathTokenPrecedence type ∧
        t.type ≠ .parenLeft)
      (hhead : ∀ t ∈ operators.head?,
        jsonpathTokenPrecedence type < jsonpathTokenPrecedence t.type ∨ t.type = .parenLeft) :
      Takes state type { state with
        operators := token :: operators
        output := state.output ++ popped
        prevGroup := jsonpathTokenGroup type }
  | left (token : Token) (htype : token.type = .parenLeft) :
      Takes state .parenLeft { state with
        nesting := state.nesting + 1
        operators := token :: state.operators
        prevGroup := .none }
  | right (paren : Token) (popped operators : List Token) (hprev : state.prevGroup = .operand)
      (hnesting : state.nesting - 1 ≠ 0) (hparen : paren.type = .parenLeft)
      (hoperators : state.operators = popped ++ paren :: operators)
      (hpopped : ∀ t ∈ popped, t.type ≠ .parenLeft) :
      Takes state .parenRight
        { nesting := state.nesting - 1
          operators := operators
          output := state.output ++ popped
          prevGroup := .operand }

theorem takes_operator (state : ParseState) (htype : token.type = type)
    (hgroup : jsonpathTokenGroup type = .operator2 ∧ state.prevGroup = .operand ∨
      jsonpathTokenGroup type = .operator1 ∧ state.prevGroup ≠ .operand) :
    Takes state type { state with
      operators := token ::
        (popOperators (jsonpathTokenPrecedence type) state.operators state.output).1
      output := (popOperators (jsonpathTokenPrecedence type) state.operators state.output).2
      prevGroup := jsonpathTokenGroup type } := by
  have heta : popOperators (jsonpathTokenPrecedence type) state.operators state.output = (_, _) :=
    rfl
  obtain ⟨popped, hoperators, houtput, hpopped, hhead⟩ := popOperators_eq heta
  rw [houtput]
  exact .operator type token popped _ hgroup htype hoperators hpopped hhead

theorem eq_parenRight (hgroup : jsonpathTokenGroup type = .none) (hleft : type ≠ .parenLeft) :
    type = .parenRight := by
  cases type <;> first | rfl | exact absurd rfl hleft | cases hgroup

theorem parseToken_more (h : parseToken state type text ptr = .ok (.more next)) :
    Takes state type next := by
  unfold parseToken at h
  split at h
  · next hgroup =>
    split_ifs at h with hprev
    · exact absurd h jsonpathError_ne
    · obtain ⟨token, htype, heq⟩ := createToken_map h
      obtain rfl := Outcome.more.inj heq
      exact .operand type token hgroup hprev htype
  · next hgroup =>
    split_ifs at h with hprev
    · exact absurd h jsonpathError_ne
    · obtain ⟨token, htype, heq⟩ := createToken_map h
      obtain rfl := Outcome.more.inj heq
      have htakes := takes_operator state htype (.inl ⟨hgroup, not_not.mp hprev⟩)
      rwa [hgroup] at htakes
  · next hgroup =>
    split_ifs at h with hprev
    · exact absurd h jsonpathError_ne
    · obtain ⟨token, htype, heq⟩ := createToken_map h
      obtain rfl := Outcome.more.inj heq
      have htakes := takes_operator state htype (.inr ⟨hgroup, hprev⟩)
      rwa [hgroup] at htakes
  · next hgroup =>
    split_ifs at h with hleft hprev hnesting
    · obtain ⟨token, htype, heq⟩ := createToken_map h
      obtain rfl := Outcome.more.inj heq
      subst hleft
      exact .left token htype
    · exact absurd h jsonpathError_ne
    · cases h
    · obtain rfl := eq_parenRight hgroup hleft
      split at h
      · exact absurd h jsonpathError_ne
      · next operators output hpop =>
        obtain ⟨popped, paren, hoperators, hparen, rfl, hpopped⟩ := popParen_eq hpop
        obtain rfl := Outcome.more.inj (Except.ok.inj h)
        exact .right paren popped operators (not_not.mp hprev) hnesting hparen hoperators hpopped

theorem parseToken_finished (h : parseToken state type text ptr = .ok (.finished next)) :
    type = .parenRight ∧ state.prevGroup = .operand ∧ state.nesting - 1 = 0 ∧
      next = { state with nesting := 0 } := by
  unfold parseToken at h
  split at h
  · split_ifs at h
    · exact absurd h jsonpathError_ne
    · obtain ⟨-, -, ⟨⟩⟩ := createToken_map h
  · split_ifs at h
    · exact absurd h jsonpathError_ne
    · obtain ⟨-, -, ⟨⟩⟩ := createToken_map h
  · split_ifs at h
    · exact absurd h jsonpathError_ne
    · obtain ⟨-, -, ⟨⟩⟩ := createToken_map h
  · next hgroup =>
    split_ifs at h with hleft hprev hnesting
    · obtain ⟨-, -, ⟨⟩⟩ := createToken_map h
    · exact absurd h jsonpathError_ne
    · cases h
      exact ⟨eq_parenRight hgroup hleft, not_not.mp hprev, hnesting, rfl⟩
    · split at h
      · exact absurd h jsonpathError_ne
      · cases h

def tokenArity (token : Token) : ℤ :=
  match jsonpathTokenGroup token.type with
  | .operand => 0
  | .operator2 => 2
  | .operator1 => 1
  | .none => 1

theorem tokenArity_eq (htype : token.type = type) :
    tokenArity token = match jsonpathTokenGroup type with
      | .operand => 0
      | .operator2 => 2
      | .operator1 => 1
      | .none => 1 := by
  rw [tokenArity, htype]

theorem one_le_tokenArity (h : jsonpathTokenGroup token.type ≠ .operand) :
    1 ≤ tokenArity token := by
  unfold tokenArity
  split <;> first | decide | exact absurd ‹_› h

theorem opNot_of_group (h : jsonpathTokenGroup type = .operator1) : type = .opNot := by
  cases type <;> first | rfl | cases h

theorem opNot_of_precedence (hprecedence : jsonpathTokenPrecedence type ≤ 2)
    (hoperand : jsonpathTokenGroup type ≠ .operand) (hleft : type ≠ .parenLeft)
    (hright : type ≠ .parenRight) : type = .opNot := by
  cases type <;> first | rfl | exact absurd rfl ‹_› | exact absurd hprecedence (by decide)

theorem lt_precedence_of_operator2 (h : jsonpathTokenGroup type = .operator2) :
    2 < jsonpathTokenPrecedence type := by
  cases type <;> first | cases h; done | decide

theorem precedence_of_operand (h : jsonpathTokenGroup type = .operand) :
    jsonpathTokenPrecedence type = 0 ∧ type ≠ .parenLeft := by
  cases type <;> first | cases h; done | decide

def standing (group : TokenGroup) : ℤ := if group = .operand then 1 else 0

theorem standing_operand : standing .operand = 1 := rfl

theorem standing_of_ne {group : TokenGroup} (h : group ≠ .operand) : standing group = 0 := if_neg h

def surplus (state : ParseState) : ℤ :=
  gain tokenArity state.output + gain tokenArity state.operators - standing state.prevGroup

theorem surplus_step (h : Takes state type next) : surplus next = surplus state +
    if type = .parenLeft then standing state.prevGroup else 0 := by
  cases h with
  | operand _ token hgroup hprev htype =>
    have harity := tokenArity_eq htype
    rw [hgroup] at harity
    rw [if_neg (precedence_of_operand hgroup).2]
    simp only [surplus, gain_cons, harity, standing_operand, standing_of_ne hprev]
    omega
  | operator _ token popped operators hgroup htype hoperators hpopped hhead =>
    have harity := tokenArity_eq htype
    obtain ⟨hgroup, hprev⟩ | ⟨hgroup, hprev⟩ := hgroup
    · rw [hgroup] at harity
      have hleft : type ≠ .parenLeft := by
        rintro rfl
        cases hgroup
      rw [if_neg hleft, hgroup]
      simp only [surplus, gain_append, gain_cons, harity, hoperators, hprev, standing]
      simp
      omega
    · rw [hgroup] at harity
      have hleft : type ≠ .parenLeft := by
        rintro rfl
        cases hgroup
      rw [if_neg hleft, hgroup]
      simp only [surplus, gain_append, gain_cons, harity, hoperators, standing_of_ne hprev]
      simp [standing]
      omega
  | left token htype =>
    have harity := tokenArity_eq htype
    change tokenArity token = 1 at harity
    rw [if_pos rfl]
    simp only [surplus, gain_cons, harity]
    simp [standing]
  | right paren popped operators hprev hnesting hparen hoperators hpopped =>
    have harity := tokenArity_eq hparen
    change tokenArity paren = 1 at harity
    rw [if_neg nofun]
    simp only [surplus, gain_append, gain_cons, harity, hoperators, hprev]
    omega

structure Sound (state : ParseState) (seen : Bool) (pending rest : List Token) : Prop where
  operators_eq : state.operators = pending ++ rest
  pending_operand : ∀ t ∈ pending, jsonpathTokenGroup t.type = .operand
  pending_nil : state.prevGroup ≠ .operand → pending = []
  rest_type : ∀ t ∈ rest, jsonpathTokenGroup t.type ≠ .operand ∧ t.type ≠ .parenRight
  depth_eq : depth tokenArity 0 (state.output ++ pending) =
    some (standing state.prevGroup - gain tokenArity rest)
  seen_iff : state.prevGroup ≠ .operand → (seen ↔ gain tokenArity rest < 0)
  head_iff : state.prevGroup ≠ .operand →
    (state.prevGroup = .operator1 ↔ ∃ t ∈ rest.head?, t.type = .opNot)

variable (h : Sound state seen pending rest)

include h

theorem Sound.rest_arity : ∀ t ∈ rest, 1 ≤ tokenArity t :=
  fun t ht => one_le_tokenArity (h.rest_type t ht).1

theorem Sound.split {popped : List Token} (hpop : state.operators = popped ++ tail)
    (hhead : ∀ t ∈ tail.head?, jsonpathTokenGroup t.type ≠ .operand) :
    ∃ taken, popped = pending ++ taken ∧ rest = taken ++ tail := by
  rw [h.operators_eq] at hpop
  obtain ⟨taken, hpopped, hrest⟩ | ⟨left, hpending, htail⟩ := List.append_eq_append_iff.mp hpop
  · exact ⟨taken, hpopped, hrest⟩
  · cases left with
    | nil => exact ⟨[], by simpa using hpending.symm, by simpa using htail.symm⟩
    | cons t left =>
      refine absurd (h.pending_operand t ?_) (hhead t ?_)
      · simp [hpending]
      · simp [htail]

theorem Sound.surplus_eq : surplus state = 0 := by
  have hgain := depth_eq_gain h.depth_eq
  rw [gain_append] at hgain
  rw [surplus, h.operators_eq, gain_append]
  omega

theorem Sound.popped {taken : List Token} (hprev : state.prevGroup = .operand)
    (hrest : rest = taken ++ tail) :
    depth tokenArity 0 (state.output ++ (pending ++ taken)) = some (1 - gain tokenArity tail) := by
  have hdepth := h.depth_eq
  rw [hprev, standing_operand, hrest] at hdepth
  rw [← append_assoc]
  exact depth_append_popped (hrest ▸ h.rest_arity) hdepth

theorem Sound.operand (hprev : state.prevGroup ≠ .operand)
    (hgroup : jsonpathTokenGroup token.type = .operand) :
    Sound { state with
      operators := token :: state.operators
      prevGroup := .operand } seen [token] rest := by
  have hpending := h.pending_nil hprev
  subst hpending
  refine ⟨congrArg (token :: ·) h.operators_eq, ?_, fun hne => absurd rfl hne, h.rest_type, ?_,
    fun hne => absurd rfl hne, fun hne => absurd rfl hne⟩
  · simpa using hgroup
  · have harity : tokenArity token = 0 := by rw [tokenArity, hgroup]
    have hdepth := h.depth_eq
    rw [append_nil, standing_of_ne hprev] at hdepth
    have hnonpos := gain_nonpos h.rest_arity
    refine (depth_append_one_of_some hdepth (by omega) (by omega)).trans (congrArg some ?_)
    rw [harity, standing_operand]
    omega

theorem Sound.operator2 {popped : List Token} (hprev : state.prevGroup = .operand)
    (hgroup : jsonpathTokenGroup token.type = .operator2)
    (hoperators : state.operators = popped ++ operators) (hhead : ∀ t ∈ operators.head?,
      jsonpathTokenPrecedence token.type < jsonpathTokenPrecedence t.type ∨ t.type = .parenLeft) :
    Sound { state with
      operators := token :: operators
      output := state.output ++ popped
      prevGroup := .operator2 } true [] (token :: operators) := by
  obtain ⟨taken, rfl, hrest⟩ := h.split hoperators fun t ht hoperand => by
    obtain ⟨hprecedence, hleft⟩ := precedence_of_operand hoperand
    obtain hlt | hparen := hhead t ht
    · omega
    · exact hleft hparen
  have harity : tokenArity token = 2 := by rw [tokenArity, hgroup]
  have hnonpos : gain tokenArity operators ≤ 0 := gain_nonpos fun t ht =>
    h.rest_arity t (hrest ▸ mem_append_right taken ht)
  have hgain : gain tokenArity (token :: operators) = gain tokenArity operators - 1 := by
    rw [gain_cons, harity]
    omega
  refine ⟨rfl, nofun, fun _ => rfl, ?_, ?_, fun _ => ?_, fun _ => ?_⟩
  · rintro t (_ | ⟨_, ht⟩)
    · refine ⟨hgroup ▸ nofun, fun hparen => ?_⟩
      rw [hparen] at hgroup
      cases hgroup
    · exact h.rest_type t (hrest ▸ mem_append_right taken ht)
  · rw [append_nil]
    refine (h.popped hprev hrest).trans (congrArg some ?_)
    show 1 - gain tokenArity operators = 0 - gain tokenArity (token :: operators)
    omega
  · rw [hgain]
    exact iff_of_true rfl (by omega)
  · refine iff_of_false nofun ?_
    rintro ⟨t, ⟨⟩, ht⟩
    rw [ht] at hgroup
    cases hgroup

theorem Sound.operator1 {popped : List Token} (hprev : state.prevGroup ≠ .operand)
    (htype : token.type = .opNot) (hoperators : state.operators = popped ++ operators)
    (hpopped : ∀ t ∈ popped, jsonpathTokenPrecedence t.type ≤ 2 ∧ t.type ≠ .parenLeft)
    (hseen : state.prevGroup = .operator1 → seen) :
    Sound { state with
      operators := token :: operators
      output := state.output ++ popped
      prevGroup := .operator1 } seen [] (token :: operators) := by
  have hpending := h.pending_nil hprev
  subst hpending
  have hrest : rest = popped ++ operators := h.operators_eq.symm.trans hoperators
  have hunary : ∀ t ∈ popped, t.type = .opNot := fun t ht => by
    obtain ⟨hprecedence, hleft⟩ := hpopped t ht
    obtain ⟨hoperand, hright⟩ := h.rest_type t (hrest ▸ mem_append_left operators ht)
    exact opNot_of_precedence hprecedence hoperand hleft hright
  have harity : ∀ t : Token, t.type = .opNot → tokenArity t = 1 := fun t ht => tokenArity_eq ht
  have hgain : gain tokenArity (token :: operators) = gain tokenArity rest := by
    rw [hrest, gain_append, gain_cons, harity token htype,
      gain_of_unary fun t ht => harity t (hunary t ht)]
    omega
  refine ⟨rfl, nofun, fun _ => rfl, ?_, ?_, fun _ => ?_, fun _ => ?_⟩
  · rintro t (_ | ⟨_, ht⟩)
    · rw [htype]
      exact ⟨nofun, nofun⟩
    · exact h.rest_type t (hrest ▸ mem_append_right popped ht)
  · have hdepth := h.depth_eq
    rw [append_nil, standing_of_ne hprev, ← hgain] at hdepth
    rw [append_nil]
    show depth tokenArity 0 (state.output ++ popped) = some (0 - gain tokenArity (token :: operators))
    cases popped with
    | nil => rwa [append_nil]
    | cons t popped =>
      have hone := (h.head_iff hprev).mpr ⟨t, by simp [hrest], hunary t mem_cons_self⟩
      have hneg := (h.seen_iff hprev).mp (hseen hone)
      exact depth_append_unary hdepth (by omega) fun t ht => harity t (hunary t ht)
  · rw [hgain]
    exact h.seen_iff hprev
  · exact iff_of_true rfl ⟨token, rfl, htype⟩

omit h

theorem Sound.operator1_early {popped : List Token} (h : Sound state false pending rest)
    (hprev : state.prevGroup = .operator1) (hoperators : state.operators = popped ++ operators)
    (hhead : ∀ t ∈ operators.head?, 2 < jsonpathTokenPrecedence t.type ∨ t.type = .parenLeft) :
    depth tokenArity 0 (state.output ++ popped) = none := by
  have hne : state.prevGroup ≠ .operand := hprev ▸ nofun
  have hpending := h.pending_nil hne
  subst hpending
  have hrest : rest = popped ++ operators := h.operators_eq.symm.trans hoperators
  obtain ⟨t, ht, htype⟩ := (h.head_iff hne).mp hprev
  have hdepth := h.depth_eq
  have hseen : 0 ≤ gain tokenArity rest := by
    by_contra hneg
    exact Bool.false_ne_true ((h.seen_iff hne).mpr (by omega))
  have hnonpos := gain_nonpos h.rest_arity
  rw [append_nil, standing_of_ne hne] at hdepth
  cases popped with
  | nil =>
    obtain hlt | hleft := hhead t (by simpa [hrest] using ht)
    · rw [htype] at hlt
      exact absurd hlt (by decide)
    · rw [htype] at hleft
      cases hleft
  | cons s popped =>
    obtain rfl : s = t := by simpa [hrest] using ht
    rw [append_cons]
    refine depth_append_of_none (depth_append_one_of_lt hdepth ?_) popped
    rw [tokenArity_eq htype]
    show 0 - gain tokenArity rest < 1
    omega

theorem Sound.left (h : Sound state seen pending rest) (hprev : state.prevGroup ≠ .operand)
    (htype : token.type = .parenLeft) :
    Sound { state with
      nesting := state.nesting + 1
      operators := token :: state.operators
      prevGroup := .none } seen [] (token :: rest) := by
  have hpending := h.pending_nil hprev
  subst hpending
  have harity : tokenArity token = 1 := tokenArity_eq htype
  have hgain : gain tokenArity (token :: rest) = gain tokenArity rest := by
    rw [gain_cons, harity]
    omega
  refine ⟨congrArg (token :: ·) h.operators_eq, nofun, fun _ => rfl, ?_, ?_, fun _ => ?_,
    fun _ => ?_⟩
  · rintro t (_ | ⟨_, ht⟩)
    · rw [htype]
      exact ⟨nofun, nofun⟩
    · exact h.rest_type t ht
  · rw [hgain]
    have hdepth := h.depth_eq
    rwa [standing_of_ne hprev] at hdepth
  · rw [hgain]
    exact h.seen_iff hprev
  · refine iff_of_false nofun ?_
    rintro ⟨t, ⟨⟩, ht⟩
    rw [ht] at htype
    cases htype

theorem Sound.right {popped : List Token} {paren : Token} (h : Sound state seen pending rest)
    (hprev : state.prevGroup = .operand) (hparen : paren.type = .parenLeft)
    (hoperators : state.operators = popped ++ paren :: operators) :
    Sound
      { nesting := state.nesting - 1
        operators := operators
        output := state.output ++ popped
        prevGroup := .operand } seen [] operators := by
  obtain ⟨taken, rfl, hrest⟩ := h.split hoperators fun t ht => by
    obtain rfl := Option.some.inj ht
    rw [hparen]
    nofun
  refine ⟨rfl, nofun, fun _ => rfl, fun t ht => ?_, ?_, fun hne => absurd rfl hne,
    fun hne => absurd rfl hne⟩
  · exact h.rest_type t (hrest ▸ mem_append_right taken (mem_cons_of_mem paren ht))
  · rw [append_nil]
    refine (h.popped hprev hrest).trans (congrArg some ?_)
    rw [gain_cons, show tokenArity paren = 1 from tokenArity_eq hparen]
    show 1 - _ = 1 - _
    omega

def nestingAfter (nesting : ℕ) (type : TokenType) : ℕ :=
  if type = .parenLeft then nesting + 1 else if type = .parenRight then nesting - 1 else nesting

theorem Takes.prevGroup_eq (h : Takes state type next) : next.prevGroup = groupAfter type := by
  cases h with
  | operand _ token hgroup => rw [groupAfter, hgroup, ite_self]
  | operator _ token popped operators hgroup =>
    refine (if_neg ?_).symm
    rintro rfl
    obtain ⟨⟨⟩, -⟩ | ⟨⟨⟩, -⟩ := hgroup
  | left => rfl
  | right => rfl

theorem Takes.nesting_eq (h : Takes state type next) :
    next.nesting = nestingAfter state.nesting type := by
  cases h with
  | operand _ token hgroup => cases type <;> first | rfl | cases hgroup
  | operator _ token popped operators hgroup =>
    cases type <;> first | rfl | (obtain ⟨⟨⟩, -⟩ | ⟨⟨⟩, -⟩ := hgroup)
  | left => rfl
  | right => rfl

section

variable (strtod : List Char → ℕ × Bool)

def tokenTypes : ℕ → ℕ → TokenGroup → List Char → List TokenType
  | 0, _, _, _ => []
  | fuel + 1, nesting, prevGroup, ptr =>
    match jsonpathExpressionNextToken strtod prevGroup ptr with
    | .error _ => []
    | .ok (type, _, next) =>
      if type = .parenRight ∧ nesting - 1 = 0 then []
      else type :: tokenTypes fuel (nestingAfter nesting type) (groupAfter type) next

end

/-- No left parenthesis follows an operand, and no negation follows a negation before the first
binary operator. -/
def Admissible (prevGroup : TokenGroup) (seen : Bool) : List TokenType → Prop
  | [] => True
  | type :: types =>
    (type = .parenLeft → prevGroup ≠ .operand) ∧
      (type = .opNot → prevGroup = .operator1 → seen = true) ∧
      Admissible (groupAfter type) (seen || jsonpathTokenGroup type = .operator2) types

variable {strtod : List Char → ℕ × Bool} {fuel : ℕ} {expression rest' : List Char}
  {last : ParseState} {tokens : List Token}

theorem expressionLoop_cases (h : expressionLoop strtod (fuel + 1) state ptr = .ok (last, rest')) :
    ∃ type text after, jsonpathExpressionNextToken strtod state.prevGroup ptr = .ok (type, text, after) ∧
      ((∃ next, Takes state type next ∧ ¬ (type = .parenRight ∧ state.nesting - 1 = 0) ∧
          expressionLoop strtod fuel next after = .ok (last, rest')) ∨
        type = .parenRight ∧ state.prevGroup = .operand ∧ state.nesting - 1 = 0 ∧
          last = { state with nesting := 0 }) := by
  rw [expressionLoop] at h
  cases hlex : jsonpathExpressionNextToken strtod state.prevGroup ptr with
  | error e =>
    rw [hlex] at h
    cases h
  | ok token =>
    obtain ⟨type, text, after⟩ := token
    rw [hlex] at h
    refine ⟨type, text, after, rfl, ?_⟩
    cases hparse : parseToken state type text (skipWhitespace ptr) with
    | error e =>
      simp only [Except.bind, hparse] at h
      cases h
    | ok outcome =>
      simp only [Except.bind, hparse] at h
      cases outcome with
      | more next =>
        refine .inl ⟨next, parseToken_more hparse, ?_, h⟩
        rintro ⟨rfl, hnesting⟩
        cases parseToken_more hparse with
        | operand _ _ hgroup => cases hgroup
        | operator _ _ _ _ hgroup => obtain ⟨⟨⟩, -⟩ | ⟨⟨⟩, -⟩ := hgroup
        | right _ _ _ _ hne => exact hne hnesting
      | finished next =>
        obtain ⟨htype, hprev, hnesting, rfl⟩ := parseToken_finished hparse
        obtain ⟨rfl, -⟩ := Prod.mk.inj (Except.ok.inj h)
        exact .inr ⟨htype, hprev, hnesting, rfl⟩

theorem tokenTypes_of_lex {nesting : ℕ} {prevGroup : TokenGroup} {after : List Char}
    (h : jsonpathExpressionNextToken strtod prevGroup ptr = .ok (type, text, after)) :
    tokenTypes strtod (fuel + 1) nesting prevGroup ptr =
      if type = .parenRight ∧ nesting - 1 = 0 then []
      else type :: tokenTypes strtod fuel (nestingAfter nesting type) (groupAfter type) after := by
  rw [tokenTypes, h]

theorem surplus_pos_of_loop (hpos : 0 < surplus state)
    (h : expressionLoop strtod fuel state ptr = .ok (last, rest')) :
    0 < surplus last ∧ last.prevGroup = .operand := by
  induction fuel generalizing state ptr with
  | zero => exact absurd h jsonpathError_ne
  | succ fuel ih =>
    obtain ⟨type, text, after, -, ⟨next, htakes, -, hloop⟩ | ⟨-, hprev, -, rfl⟩⟩ :=
      expressionLoop_cases h
    · refine ih ?_ hloop
      rw [surplus_step htakes, standing]
      split_ifs <;> omega
    · exact ⟨hpos, hprev⟩

theorem depth_none_of_loop (hnone : depth tokenArity 0 state.output = none)
    (h : expressionLoop strtod fuel state ptr = .ok (last, rest')) :
    depth tokenArity 0 last.output = none := by
  induction fuel generalizing state ptr with
  | zero => exact absurd h jsonpathError_ne
  | succ fuel ih =>
    obtain ⟨type, text, after, -, ⟨next, htakes, -, hloop⟩ | ⟨-, -, -, rfl⟩⟩ :=
      expressionLoop_cases h
    · refine ih ?_ hloop
      cases htakes with
      | operand => exact hnone
      | operator => exact depth_append_of_none hnone _
      | left => exact hnone
      | right => exact depth_append_of_none hnone _
    · exact hnone

theorem Sound.step (h : Sound state seen pending rest) (htakes : Takes state type next)
    (hleft : type = .parenLeft → state.prevGroup ≠ .operand)
    (hnot : type = .opNot → state.prevGroup = .operator1 → seen = true) :
    ∃ pending' rest', Sound next (seen || jsonpathTokenGroup type = .operator2) pending' rest' := by
  cases htakes with
  | operand _ token hgroup hprev htype =>
    rw [hgroup, show (seen || decide (TokenGroup.operand = .operator2)) = seen from by simp]
    exact ⟨_, _, h.operand hprev (htype ▸ hgroup)⟩
  | operator _ token popped operators hgroup htype hoperators hpopped hhead =>
    obtain ⟨hgroup, hprev⟩ | ⟨hgroup, hprev⟩ := hgroup
    · rw [hgroup, show (seen || decide (TokenGroup.operator2 = .operator2)) = true from by simp]
      exact ⟨_, _, h.operator2 hprev (htype ▸ hgroup) hoperators (htype ▸ hhead)⟩
    · rw [hgroup, show (seen || decide (TokenGroup.operator1 = .operator2)) = seen from by simp]
      obtain rfl := opNot_of_group hgroup
      exact ⟨_, _, h.operator1 hprev htype hoperators hpopped (hnot rfl)⟩
  | left token htype =>
    rw [show (seen || decide (jsonpathTokenGroup .parenLeft = .operator2)) = seen from Bool.or_false seen]
    exact ⟨_, _, h.left (hleft rfl) htype⟩
  | right paren popped operators hprev _ hparen hoperators =>
    rw [show (seen || decide (jsonpathTokenGroup .parenRight = .operator2)) = seen from Bool.or_false seen]
    exact ⟨_, _, h.right hprev hparen hoperators⟩

theorem not_valid_of_step (h : Sound state seen pending rest) (htakes : Takes state type next)
    (hbreak : type = .parenLeft ∧ state.prevGroup = .operand ∨
      type = .opNot ∧ state.prevGroup = .operator1 ∧ seen = false)
    (hloop : expressionLoop strtod fuel next ptr = .ok (last, rest'))
    (hflush : flushOperators expression last.operators last.output = .ok tokens) :
    ¬ Valid tokenArity tokens := by
  obtain ⟨rfl, -⟩ := flushOperators_eq hflush
  obtain ⟨rfl, hprev⟩ | ⟨rfl, hprev, rfl⟩ := hbreak
  · have hpos : 0 < surplus next := by
      rw [surplus_step htakes, if_pos rfl, h.surplus_eq, hprev, standing_operand]
      decide
    obtain ⟨hlast, hoperand⟩ := surplus_pos_of_loop hpos hloop
    rw [surplus, hoperand, standing_operand, ← gain_append] at hlast
    intro hvalid
    have hgain := depth_eq_gain hvalid
    omega
  · have hnone : depth tokenArity 0 next.output = none := by
      cases htakes with
      | operand _ _ hgroup => cases hgroup
      | operator _ token popped operators _ _ hoperators _ hhead =>
        exact h.operator1_early hprev hoperators hhead
    have hlast := depth_none_of_loop hnone hloop
    rw [Valid, depth_append_of_none hlast]
    nofun

theorem loop_valid_iff (hsound : Sound state seen pending rest)
    (h : expressionLoop strtod fuel state ptr = .ok (last, rest'))
    (hflush : flushOperators expression last.operators last.output = .ok tokens) :
    Valid tokenArity tokens ↔
      Admissible state.prevGroup seen
        (tokenTypes strtod fuel state.nesting state.prevGroup ptr) := by
  induction fuel generalizing state ptr seen pending rest with
  | zero => exact absurd h jsonpathError_ne
  | succ fuel ih =>
    obtain ⟨type, text, after, hlex, ⟨next, htakes, hmore, hloop⟩ | ⟨rfl, hprev, hnesting, rfl⟩⟩ :=
      expressionLoop_cases h
    · rw [tokenTypes_of_lex hlex, if_neg hmore]
      by_cases hleft : type = .parenLeft → state.prevGroup ≠ .operand
      · by_cases hnot : type = .opNot → state.prevGroup = .operator1 → seen = true
        · obtain ⟨pending', rest', hnext⟩ := hsound.step htakes hleft hnot
          rw [ih hnext hloop, htakes.prevGroup_eq, htakes.nesting_eq]
          exact ⟨fun hrest => ⟨hleft, hnot, hrest⟩, fun hall => hall.2.2⟩
        · refine iff_of_false (not_valid_of_step hsound htakes (.inr ?_) hloop hflush)
            fun hall => hnot hall.2.1
          simpa using hnot
      · refine iff_of_false (not_valid_of_step hsound htakes (.inl ?_) hloop hflush)
          fun hall => hleft hall.1
        simpa using hleft
    · rw [tokenTypes_of_lex hlex, if_pos ⟨rfl, hnesting⟩]
      refine iff_of_true ?_ trivial
      obtain ⟨rfl, hparens⟩ := flushOperators_eq hflush
      obtain ⟨taken, htaken, hrest⟩ := hsound.split (append_nil _).symm nofun
      have hdepth := hsound.popped hprev hrest
      rwa [← htaken] at hdepth

end Zabbix.JsonPath
