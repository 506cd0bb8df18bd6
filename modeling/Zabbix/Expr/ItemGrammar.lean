import Mathlib.Data.List.TakeWhile
import Zabbix.Expr.ItemParams

/-!
# The grammar of parameter lists

What the parsers of item keys read, and what they make of it: a parameter is a text, a quoted
text or an array of such, with spaces before it and, after a closing quote or bracket, behind it.
-/

namespace Zabbix.Expr

open Nat List

variable {body : List Char} {g g' : Getter}

def spaces (n : ℕ) : List Char := List.replicate n ' '

def isPlain (c : Char) : Bool := c ≠ ',' && c ≠ ']'

structure PlainText (text : List Char) : Prop where
  plain : ∀ c ∈ text, isPlain c = true
  head : ∀ c ∈ text.head?, c ≠ ' ' ∧ c ≠ '"' ∧ c ≠ '['

def Quotable : Char → List Char → Prop
  | last, [] => last ≠ '\\'
  | last, c :: body => (c = '"' → last = '\\') ∧ Quotable c body

inductive Element
  | plain (lead : ℕ) (text : List Char) (h : PlainText text)
  | quoted (lead : ℕ) (body : List Char) (trail : ℕ) (h : Quotable '"' body)

inductive ItemParam
  | element (e : Element)
  | array (lead : ℕ) (first : Element) (more : List Element) (trail : ℕ)

def Element.text : Element → List Char
  | .plain lead text _ => spaces lead ++ text
  | .quoted lead body trail _ => spaces lead ++ '"' :: (body ++ '"' :: spaces trail)

def moreText (more : List Element) : List Char := more.flatMap fun e => ',' :: e.text

def ItemParam.text : ItemParam → List Char
  | .element e => e.text
  | .array lead first more trail =>
    spaces lead ++ '[' :: (first.text ++ moreText more ++ ']' :: spaces trail)

def moreParams (ps : List ItemParam) : List Char := ps.flatMap fun p => ',' :: p.text

def paramsText (p : ItemParam) (ps : List ItemParam) : List Char := p.text ++ moreParams ps

def unescape : List Char → List Char
  | '\\' :: '"' :: body => '"' :: unescape body
  | c :: body => c :: unescape body
  | [] => []

def Element.raw : Element → List Char
  | .plain _ text _ => text
  | .quoted _ body _ _ => '"' :: (body ++ ['"'])

def Element.value : Element → List Char
  | .plain _ text _ => text
  | .quoted _ body _ _ => unescape body

def moreRaw (more : List Element) : List Char := more.flatMap fun e => ',' :: e.raw

def ItemParam.value : ItemParam → List Char
  | .element e => e.value
  | .array _ first more _ => first.raw ++ moreRaw more

variable (e : Element)

@[simp] theorem moreText_cons (more : List Element) :
    moreText (e :: more) = ',' :: (e.text ++ moreText more) := rfl

@[simp] theorem moreParams_cons (p : ItemParam) (ps : List ItemParam) :
    moreParams (p :: ps) = ',' :: (p.text ++ moreParams ps) := rfl

theorem unescape_cons {c : Char} (h : c ≠ '\\') (body : List Char) :
    unescape (c :: body) = c :: unescape body := by
  rw [unescape]
  exact fun _ heq => absurd heq h

theorem unescape_backslash {c : Char} (h : c ≠ '"') (body : List Char) :
    unescape ('\\' :: c :: body) = '\\' :: unescape (c :: body) := by
  rw [unescape]
  rintro rest - heq
  exact h (List.cons.inj heq).1

def pending (last : Char) : List Char := if last = '\\' then ['\\'] else []

def emitted (last c : Char) : List Char :=
  if c = '"' then ['"'] else if c = '\\' then pending last else pending last ++ [c]

theorem unescape_pending {last c : Char} (body : List Char) (h : c = '"' → last = '\\') :
    unescape (pending last ++ c :: body) = emitted last c ++ unescape (pending c ++ body) := by
  unfold emitted pending
  by_cases hquote : c = '"'
  · subst hquote
    rw [h rfl]
    rfl
  · by_cases hlast : last = '\\'
    · rw [if_pos hlast, if_neg hquote, singleton_append, unescape_backslash hquote]
      by_cases hc : c = '\\'
      · rw [if_pos hc, if_pos hc, hc]
        rfl
      · rw [if_neg hc, if_neg hc, unescape_cons hc]
        rfl
    · rw [if_neg hlast, if_neg hquote, nil_append]
      by_cases hc : c = '\\'
      · rw [if_pos hc, if_pos hc, hc]
        rfl
      · rw [if_neg hc, if_neg hc, unescape_cons hc]
        rfl

def Separated (left : List Char) : Prop := ∃ c rest, left = c :: rest ∧ (c = ',' ∨ c = ']')

def quotedState (last : Char) : KeyState := if last = '\\' then .backslash else .quoted

variable {array : Bool} {left : List Char}

theorem keyParams_cons {state state' : KeyState} {array' : Bool} {c : Char}
    (h : keyStep array c state = .next state' array') (left : List Char) :
    keyParams state array (c :: left) = keyParams state' array' left := by
  rw [keyParams, h]

theorem keyParams_spaces (n : ℕ) (left : List Char) :
    keyParams .init array (spaces n ++ left) = keyParams .init array left := by
  induction n with
  | zero => rfl
  | succ n ih => exact (keyParams_cons rfl _).trans ih

theorem keyParams_quoteClosed (n : ℕ) (left : List Char) :
    keyParams .quoteClosed array (spaces n ++ left) = keyParams .quoteClosed array left := by
  induction n with
  | zero => rfl
  | succ n ih => exact (keyParams_cons rfl _).trans ih

theorem keyParams_arrayClosed (n : ℕ) (left : List Char) :
    keyParams .arrayClosed array (spaces n ++ left) = keyParams .arrayClosed array left := by
  induction n with
  | zero => rfl
  | succ n ih => exact (keyParams_cons rfl _).trans ih

theorem keyStep_quoted {last c : Char} (h : c = '"' → last = '\\') :
    keyStep array c (quotedState last) = .next (quotedState c) array := by
  have hnext (hquote : c ≠ '"') : keyQuoted array c = .next (quotedState c) array := by
    unfold keyQuoted quotedState
    rw [if_neg hquote]
    split_ifs <;> rfl
  by_cases hquote : c = '"'
  · rw [h hquote, hquote]
    rfl
  · rw [← hnext hquote, quotedState]
    split_ifs
    · rw [keyStep, if_neg hquote]
    · rfl

theorem keyParams_quoted {last : Char} {body : List Char} (h : Quotable last body)
    (left : List Char) :
    keyParams (quotedState last) array (body ++ '"' :: left) =
      keyParams .quoteClosed array left := by
  induction body generalizing last with
  | nil => exact keyParams_cons (by rw [quotedState, if_neg h]; rfl) left
  | cons c body ih => exact (keyParams_cons (keyStep_quoted h.1) _).trans (ih h.2)

theorem not_sep_of_isPlain {c : Char} (h : isPlain c = true) : c ≠ ',' ∧ c ≠ ']' := by
  obtain ⟨hcomma, hclose⟩ := Bool.and_eq_true_iff.mp h
  exact ⟨of_decide_eq_true hcomma, of_decide_eq_true hclose⟩

theorem keyStep_unquoted {c : Char} (h : isPlain c = true) :
    keyStep array c .unquoted = .next .unquoted array := by
  obtain ⟨hcomma, hclose⟩ := not_sep_of_isPlain h
  rw [keyStep, if_neg (by simp [hcomma, hclose]), if_neg hclose]

theorem keyParams_unquoted {text : List Char} (h : ∀ c ∈ text, isPlain c = true)
    (left : List Char) :
    keyParams .unquoted array (text ++ left) = keyParams .unquoted array left := by
  induction text with
  | nil => rfl
  | cons c text ih =>
    obtain ⟨hc, htext⟩ := forall_mem_cons.mp h
    exact (keyParams_cons (keyStep_unquoted hc) _).trans (ih htext)

theorem keyParams_separated (h : Separated left) :
    keyParams .unquoted array left = keyParams .init array left ∧
      keyParams .quoteClosed array left = keyParams .init array left := by
  obtain ⟨c, rest, rfl, rfl | rfl⟩ := h
  · exact ⟨rfl, rfl⟩
  · cases array <;> exact ⟨rfl, rfl⟩

theorem keyParams_element (h : Separated left) :
    keyParams .init array (e.text ++ left) = keyParams .init array left := by
  obtain ⟨hunquoted, hquoted⟩ := @keyParams_separated array left h
  cases e with
  | plain lead text htext =>
    rw [Element.text, append_assoc, keyParams_spaces]
    cases text with
    | nil => rfl
    | cons c text =>
      obtain ⟨hc, hrest⟩ := forall_mem_cons.mp htext.plain
      obtain ⟨hspace, hquote, hopen⟩ := htext.head c rfl
      obtain ⟨hcomma, hclose⟩ := not_sep_of_isPlain hc
      have hstep : keyStep array c .init = .next .unquoted array := by
        rw [keyStep, keyInit, if_neg hcomma, if_neg hquote, if_neg hopen, if_neg hclose,
          if_neg hspace]
      exact (keyParams_cons hstep _).trans ((keyParams_unquoted hrest _).trans hunquoted)
  | quoted lead body trail hbody =>
    rw [Element.text, append_assoc, keyParams_spaces, cons_append, append_assoc, cons_append]
    refine (keyParams_cons rfl _).trans ?_
    exact (keyParams_quoted hbody _).trans ((keyParams_quoteClosed _ _).trans hquoted)

theorem separated_comma (rest : List Char) : Separated (',' :: rest) := ⟨_, _, rfl, .inl rfl⟩

theorem separated_close (rest : List Char) : Separated (']' :: rest) := ⟨_, _, rfl, .inr rfl⟩

theorem separated_more (more : List Element) (left : List Char) :
    Separated (moreText more ++ ']' :: left) := by
  cases more with
  | nil => exact separated_close left
  | cons => exact separated_comma _

theorem keyParams_more (more : List Element) (left : List Char) :
    keyParams .init true (moreText more ++ ']' :: left) = keyParams .arrayClosed false left := by
  induction more with
  | nil => exact keyParams_cons rfl left
  | cons e more ih =>
    rw [moreText_cons, cons_append, append_assoc]
    exact (keyParams_cons rfl _).trans ((keyParams_element e (separated_more more left)).trans ih)

theorem keyParams_elements (first : Element) (more : List Element) (left : List Char) :
    keyParams .init true (first.text ++ moreText more ++ ']' :: left) =
      keyParams .arrayClosed false left := by
  rw [append_assoc, keyParams_element first (separated_more more left), keyParams_more]

theorem keyParams_param (p : ItemParam) (h : Separated left) :
    keyParams .init false (p.text ++ left) = keyParams .init false left := by
  cases p with
  | element e => exact keyParams_element e h
  | array lead first more trail =>
    rw [ItemParam.text, append_assoc, keyParams_spaces, cons_append]
    refine (keyParams_cons rfl _).trans ?_
    rw [append_assoc, cons_append, keyParams_elements, keyParams_arrayClosed]
    obtain ⟨c, rest, rfl, rfl | rfl⟩ := h <;> rfl

variable (ps : List ItemParam)

theorem separated_moreParams (left : List Char) : Separated (moreParams ps ++ ']' :: left) := by
  cases ps with
  | nil => exact separated_close left
  | cons => exact separated_comma _

theorem keyParams_params (p : ItemParam) (ps : List ItemParam) (left : List Char) :
    keyParams .init false (paramsText p ps ++ ']' :: left) = some left := by
  induction ps generalizing p with
  | nil =>
    rw [paramsText, append_assoc, keyParams_param p (separated_moreParams [] left)]
    rfl
  | cons q ps ih =>
    rw [paramsText, append_assoc, keyParams_param p (separated_moreParams _ left)]
    rw [moreParams_cons]
    exact (keyParams_cons rfl _).trans (ih q)

def Follows (inArray : Bool) (left : List Char) : Prop :=
  left = [] ∨ ∃ c rest, left = c :: rest ∧ (c = ',' ∨ c = ']' ∧ inArray = true)

variable {ret : ℕ}

theorem count_cons {n n' : Count} {c : Char} (h : n.step c = some n') (left : List Char) :
    n.loop (c :: left) = n'.loop left := by
  rw [Count.loop, h]

theorem count_spaces {state : KeyState}
    (h : state = .init ∨ state = .quoteClosed ∨ state = .arrayClosed) (n : ℕ)
    (left : List Char) :
    Count.loop ⟨state, array, ret⟩ (spaces n ++ left) = Count.loop ⟨state, array, ret⟩ left := by
  have hstep : Count.step ⟨state, array, ret⟩ ' ' = some ⟨state, array, ret⟩ := by
    obtain rfl | rfl | rfl := h <;> rfl
  induction n with
  | zero => rfl
  | succ n ih => exact (count_cons hstep _).trans ih

theorem count_quoted {last : Char} (h : Quotable last body) (left : List Char) :
    Count.loop ⟨quotedState last, array, ret⟩ (body ++ '"' :: left) =
      Count.loop ⟨.quoteClosed, array, ret⟩ left := by
  induction body generalizing last with
  | nil =>
    refine count_cons ?_ left
    rw [quotedState, if_neg h]
    rfl
  | cons c body ih =>
    have hnext (hquote : c ≠ '"') (state : KeyState) :
        Count.quoted ⟨state, array, ret⟩ c = ⟨quotedState c, array, ret⟩ := by
      unfold Count.quoted quotedState
      rw [if_neg hquote]
      split_ifs <;> rfl
    refine (count_cons ?_ _).trans (ih h.2)
    by_cases hquote : c = '"'
    · rw [h.1 hquote, hquote]
      rfl
    · rw [quotedState]
      split_ifs
      · rw [← hnext hquote .backslash, Count.step, if_neg hquote]
      · exact congrArg some (hnext hquote _)

theorem count_unquoted {text : List Char} (h : ∀ c ∈ text, isPlain c = true) (left : List Char) :
    Count.loop ⟨.unquoted, array, ret⟩ (text ++ left) =
      Count.loop ⟨.unquoted, array, ret⟩ left := by
  induction text with
  | nil => rfl
  | cons c text ih =>
    obtain ⟨hc, htext⟩ := List.forall_mem_cons.mp h
    obtain ⟨hcomma, hclose⟩ := not_sep_of_isPlain hc
    have hsep : ¬ (c = ',' ∨ c = ']' ∧ array = true) := by simp [hcomma, hclose]
    have hstep : Count.step ⟨.unquoted, array, ret⟩ c = some ⟨.unquoted, array, ret⟩ :=
      (if_neg hsep).trans (if_neg hclose)
    exact (count_cons hstep _).trans (ih htext)

theorem count_follows (h : Follows array left) :
    Count.loop ⟨.unquoted, array, ret⟩ left = Count.loop ⟨.init, array, ret⟩ left ∧
      Count.loop ⟨.quoteClosed, array, ret⟩ left = Count.loop ⟨.init, array, ret⟩ left := by
  obtain rfl | ⟨c, rest, rfl, rfl | ⟨rfl, rfl⟩⟩ := h
  · cases array <;> exact ⟨rfl, rfl⟩
  · exact ⟨rfl, rfl⟩
  · exact ⟨rfl, rfl⟩

theorem count_element (h : Follows array left) :
    Count.loop ⟨.init, array, ret⟩ (e.text ++ left) = Count.loop ⟨.init, array, ret⟩ left := by
  obtain ⟨hunquoted, hquoted⟩ := @count_follows array left ret h
  cases e with
  | plain lead text htext =>
    rw [Element.text, List.append_assoc, count_spaces (.inl rfl)]
    cases text with
    | nil => rfl
    | cons c text =>
      obtain ⟨hc, hrest⟩ := List.forall_mem_cons.mp htext.plain
      obtain ⟨hspace, hquote, hopen⟩ := htext.head c rfl
      obtain ⟨hcomma, hclose⟩ := not_sep_of_isPlain hc
      have hstep : Count.step ⟨.init, array, ret⟩ c = some ⟨.unquoted, array, ret⟩ := by
        rw [Count.step, Count.init, if_neg hcomma, if_neg hquote, if_neg hopen, if_neg hclose,
          if_neg hspace]
      exact (count_cons hstep _).trans ((count_unquoted hrest _).trans hunquoted)
  | quoted lead body trail hbody =>
    rw [Element.text, List.append_assoc, count_spaces (.inl rfl), List.cons_append,
      List.append_assoc, List.cons_append]
    refine (count_cons rfl _).trans ?_
    exact (count_quoted hbody _).trans ((count_spaces (.inr (.inl rfl)) _ _).trans hquoted)

theorem follows_more (more : List Element) (left : List Char) :
    Follows true (moreText more ++ ']' :: left) := by
  cases more with
  | nil => exact .inr ⟨_, _, rfl, .inr ⟨rfl, rfl⟩⟩
  | cons => exact .inr ⟨_, _, rfl, .inl rfl⟩

theorem count_more (more : List Element) (left : List Char) :
    Count.loop ⟨.init, true, ret⟩ (moreText more ++ ']' :: left) =
      Count.loop ⟨.arrayClosed, false, ret⟩ left := by
  induction more with
  | nil => exact count_cons rfl left
  | cons e more ih =>
    rw [moreText_cons, List.cons_append, List.append_assoc]
    exact (count_cons rfl _).trans ((count_element e (follows_more more left)).trans ih)

theorem count_param (p : ItemParam) (h : Follows false left) :
    Count.loop ⟨.init, false, ret⟩ (p.text ++ left) = Count.loop ⟨.init, false, ret⟩ left := by
  cases p with
  | element e => exact count_element e h
  | array lead first more trail =>
    rw [ItemParam.text, List.append_assoc, count_spaces (.inl rfl), List.cons_append]
    refine (count_cons rfl _).trans ?_
    rw [List.append_assoc, List.append_assoc, List.cons_append,
      count_element first (follows_more more _), count_more, count_spaces (.inr (.inr rfl))]
    obtain rfl | ⟨c, rest, rfl, rfl | ⟨-, hfalse⟩⟩ := h
    · rfl
    · rfl
    · cases hfalse

theorem follows_moreParams : Follows false (moreParams ps) := by
  cases ps with
  | nil => exact .inl rfl
  | cons => exact .inr ⟨_, _, rfl, .inl rfl⟩

theorem count_params (p : ItemParam) (ps : List ItemParam) (ret : ℕ) :
    Count.loop ⟨.init, false, ret⟩ (paramsText p ps) = ret + ps.length := by
  induction ps generalizing p ret with
  | nil =>
    rw [paramsText, count_param p (follows_moreParams [])]
    rfl
  | cons q ps ih =>
    rw [paramsText, count_param p (follows_moreParams _), moreParams_cons]
    refine (count_cons rfl _).trans ((ih q (ret + 1)).trans ?_)
    rw [List.length_cons]
    omega

theorem zbxNumParam_params (p : ItemParam) (ps : List ItemParam) :
    zbxNumParam (paramsText p ps) = (p :: ps).length := by
  rw [zbxNumParam, count_params, List.length_cons, Nat.add_comm]

def kept (n i : ℕ) (text : List Char) : List Char := if i = n then text else []

variable {n m i d : ℕ} {b : List Char} {t : ParamType} {state : KeyState}

theorem kept_append (text more : List Char) :
    kept n i text ++ kept n i more = kept n i (text ++ more) := by
  unfold kept
  split_ifs <;> rfl

theorem kept_nil : kept n i [] = [] := ite_self []

theorem kept_length (text : List Char) : (kept n i text).length ≤ text.length := by
  unfold kept
  split_ifs
  · exact Nat.le_refl _
  · exact Nat.zero_le _

theorem assign_eq (h : b.length < m) (c : Char) :
    Getter.assign n m ⟨state, d, i, b, t⟩ c = some ⟨state, d, i, b ++ kept n i [c], t⟩ := by
  unfold Getter.assign kept
  dsimp only
  split_ifs with hidx hfull
  · exact absurd h (Nat.not_lt_of_le hfull.ge)
  · rfl
  · rw [List.append_nil]

theorem assignInArray_eq (h : b.length < m) (c : Char) :
    Getter.assignInArray n m ⟨state, d, i, b, t⟩ c =
      some ⟨state, d, i, b ++ kept n i (if d = 0 then [] else [c]), t⟩ := by
  rw [Getter.assignInArray]
  split_ifs with hdepth
  · rw [kept_nil, List.append_nil]
  · exact assign_eq h c

theorem setType_eq (type' : ParamType) :
    ∃ ty, Getter.setType n ⟨state, d, i, b, t⟩ type' = ⟨state, d, i, b, ty⟩ := by
  unfold Getter.setType
  split_ifs
  · exact ⟨type', rfl⟩
  · exact ⟨t, rfl⟩

theorem get_cons {c : Char} (hidx : g.idx ≤ n) (h : g.step n m c = some g') (left : List Char) :
    g.loop n m (c :: left) = g'.loop n m left := by
  rw [Getter.loop, if_neg (Nat.not_lt_of_le hidx), h, Option.bind_some]

theorem get_spaces (hidx : i ≤ n)
    (h : state = .init ∨ state = .quoteClosed ∨ state = .arrayClosed) (k : ℕ)
    (left : List Char) :
    Getter.loop n m ⟨state, d, i, b, t⟩ (spaces k ++ left) =
      Getter.loop n m ⟨state, d, i, b, t⟩ left := by
  have hstep : Getter.step n m ⟨state, d, i, b, t⟩ ' ' = some ⟨state, d, i, b, t⟩ := by
    obtain rfl | rfl | rfl := h
    · unfold Getter.step Getter.init
      simp
    · rfl
    · rfl
  induction k with
  | zero => rfl
  | succ k ih => exact (get_cons hidx hstep _).trans ih

def emittedRaw (last c : Char) : List Char :=
  if c = '\\' then pending last else pending last ++ [c]

theorem emittedRaw_append (last c : Char) (body : List Char) :
    emittedRaw last c ++ (pending c ++ body) = pending last ++ c :: body := by
  unfold emittedRaw
  split_ifs with hc
  · subst hc
    rfl
  · rw [pending, pending, if_neg hc, List.nil_append, List.append_assoc, List.singleton_append]

theorem emit_length (d : ℕ) (last c : Char) :
    (if d = 0 then emitted last c else emittedRaw last c).length + (pending c).length ≤
      (pending last).length + 1 := by
  unfold emitted emittedRaw pending
  split_ifs <;> simp_all

theorem getQuoted_eq {c : Char} (hquote : c ≠ '"') (hroom : b.length < m) :
    Getter.quoted n m ⟨state, d, i, b, t⟩ c =
      some ⟨quotedState c, d, i, b ++ kept n i (if c = '\\' then [] else [c]),
        t⟩ := by
  unfold Getter.quoted quotedState
  rw [if_neg hquote]
  split_ifs with hc
  · rw [kept_nil, append_nil]
  · exact assign_eq hroom c

theorem getStep_quoted {last c : Char} (h : c = '"' → last = '\\') (hroom : b.length + 1 < m) :
    Getter.step n m ⟨quotedState last, d, i, b, t⟩ c =
      some ⟨quotedState c, d, i, b ++ kept n i
        (if d = 0 then emitted last c else emittedRaw last c), t⟩ := by
  have hlength (text : List Char) (htext : text.length ≤ 1) :
      (b ++ kept n i text).length < m := by
    rw [List.length_append]
    exact lt_of_le_of_lt (Nat.add_le_add_left ((kept_length text).trans htext) _) hroom
  by_cases hquote : c = '"'
  · subst hquote
    obtain rfl := h rfl
    have hstep : Getter.step n m ⟨quotedState '\\', d, i, b, t⟩ '"' =
        (Getter.assignInArray n m ⟨.quoted, d, i, b, t⟩ '\\').bind
          (·.assign n m '"') := rfl
    rw [hstep, assignInArray_eq (lt_of_succ_lt hroom), Option.bind_some,
      assign_eq (hlength _ (by split_ifs <;> simp)), append_assoc, kept_append]
    by_cases hdepth : d = 0
    · rw [if_pos hdepth, if_pos hdepth]
      rfl
    · rw [if_neg hdepth, if_neg hdepth]
      rfl
  · have hboth : (if d = 0 then emitted last c else emittedRaw last c) =
        pending last ++ if c = '\\' then [] else [c] := by
      unfold emitted emittedRaw
      rw [if_neg hquote, ite_self]
      split_ifs
      · rw [append_nil]
      · rfl
    rw [hboth]
    by_cases hlast : last = '\\'
    · subst hlast
      have hstep : Getter.step n m ⟨quotedState '\\', d, i, b, t⟩ c =
          (Getter.assign n m ⟨.backslash, d, i, b, t⟩ '\\').bind
            (·.quoted n m c) := if_neg hquote
      rw [hstep, assign_eq (lt_of_succ_lt hroom), Option.bind_some,
        getQuoted_eq hquote (hlength _ (Nat.le_refl _)), append_assoc, kept_append]
      rfl
    · have hstep : Getter.step n m ⟨quotedState last, d, i, b, t⟩ c =
          Getter.quoted n m ⟨.quoted, d, i, b, t⟩ c := by
        rw [quotedState, if_neg hlast]
        rfl
      rw [hstep, getQuoted_eq hquote (lt_of_succ_lt hroom), pending, if_neg hlast]
      rfl

theorem get_quoted {last : Char} (h : Quotable last body) (hidx : i ≤ n)
    (hroom : b.length + (pending last).length + body.length < m) (left : List Char) :
    Getter.loop n m ⟨quotedState last, d, i, b, t⟩ (body ++ '"' :: left) =
      Getter.loop n m ⟨.quoteClosed, d, i, b ++ kept n i
        (if d = 0 then unescape (pending last ++ body) else pending last ++ body ++ ['"']),
        t⟩ left := by
  induction body generalizing last b with
  | nil =>
    have hstep : Getter.step n m ⟨quotedState last, d, i, b, t⟩ '"' =
        Getter.assignInArray n m ⟨.quoteClosed, d, i, b, t⟩ '"' := by
      rw [quotedState, if_neg h]
      rfl
    rw [assignInArray_eq (by omega)] at hstep
    refine (get_cons hidx hstep left).trans ?_
    rw [pending, if_neg h]
    rfl
  | cons c body ih =>
    have hemit := emit_length d last c
    have hkept := kept_length (n := n) (i := i)
      (if d = 0 then emitted last c else emittedRaw last c)
    rw [length_cons] at hroom
    refine (get_cons hidx (getStep_quoted h.1 (by omega)) _).trans ((ih h.2 ?_).trans ?_)
    · rw [length_append]
      omega
    · rw [append_assoc, kept_append]
      by_cases hdepth : d = 0
      · rw [if_pos hdepth, if_pos hdepth, if_pos hdepth, unescape_pending body h.1]
      · rw [if_neg hdepth, if_neg hdepth, if_neg hdepth, ← append_assoc, emittedRaw_append]

theorem get_unquoted {text : List Char} (h : ∀ c ∈ text, isPlain c = true) (hidx : i ≤ n)
    (hroom : b.length + text.length ≤ m) (left : List Char) :
    Getter.loop n m ⟨.unquoted, d, i, b, t⟩ (text ++ left) =
      Getter.loop n m ⟨.unquoted, d, i, b ++ kept n i text, t⟩ left := by
  induction text generalizing b with
  | nil => rw [kept_nil, append_nil, nil_append]
  | cons c text ih =>
    obtain ⟨hc, htext⟩ := forall_mem_cons.mp h
    obtain ⟨hcomma, hclose⟩ := not_sep_of_isPlain hc
    have hsep : ¬ (c = ',' ∨ c = ']' ∧ d ≠ 0) := by simp [hcomma, hclose]
    have hkept := kept_length (n := n) (i := i) [c]
    rw [length_cons] at hroom
    rw [length_singleton] at hkept
    have hstep : Getter.step n m ⟨.unquoted, d, i, b, t⟩ c =
        some ⟨.unquoted, d, i, b ++ kept n i [c], t⟩ :=
      (if_neg hsep).trans (assign_eq (by omega) c)
    refine (get_cons hidx hstep _).trans ((ih htext ?_).trans ?_)
    · rw [length_append]
      omega
    · rw [append_assoc, kept_append, singleton_append]

def getResult (n m : ℕ) (g : Getter) (left : List Char) : Option (List Char × ParamType) :=
  (g.loop n m left).bind (·.finish n)

theorem getResult_cons {c : Char} (hidx : g.idx ≤ n) (h : g.step n m c = some g') (left : List Char)
    :
    getResult n m g (c :: left) = getResult n m g' left :=
  congrArg (·.bind (·.finish n)) (get_cons hidx h left)

theorem getResult_follows (h : Follows (d ≠ 0) left)
    (hstate : state = .unquoted ∨ state = .quoteClosed ∨ state = .arrayClosed) :
    getResult n m ⟨state, d, i, b, t⟩ left = getResult n m ⟨.init, d, i, b, t⟩ left := by
  have hstep {c : Char} (hc : c = ',' ∨ c = ']' ∧ d ≠ 0) :
      Getter.step n m ⟨state, d, i, b, t⟩ c = Getter.init n m ⟨state, d, i, b, t⟩ c := by
    have hspace : c ≠ ' ' := by obtain rfl | ⟨rfl, -⟩ := hc <;> decide
    obtain rfl | rfl | rfl := hstate
    · exact if_pos hc
    · exact (if_neg hspace).trans (if_pos hc)
    · exact (if_neg hspace).trans (if_pos hc)
  have hinit (c : Char) : Getter.init n m ⟨state, d, i, b, t⟩ c =
      Getter.init n m ⟨.init, d, i, b, t⟩ c := rfl
  have hfinish : Getter.finish n ⟨state, d, i, b, t⟩ = Getter.finish n ⟨.init, d, i, b, t⟩ := by
    obtain rfl | rfl | rfl := hstate <;> simp [Getter.finish]
  unfold getResult
  obtain rfl | ⟨c, rest, rfl, hc⟩ := h
  · exact hfinish
  · have hc : c = ',' ∨ c = ']' ∧ d ≠ 0 := hc.imp_right (And.imp_right of_decide_eq_true)
    rw [Getter.loop, Getter.loop]
    split_ifs with hidx
    · exact hfinish
    · rw [hstep hc, hinit]
      rfl

theorem raw_length : e.raw.length ≤ e.text.length := by
  cases e with
  | plain lead text h => simp [Element.raw, Element.text]
  | quoted lead body trail h =>
    simp only [Element.raw, Element.text, length_append, length_cons, length_nil]
    omega

theorem get_element (hidx : i ≤ n) (h : Follows (d ≠ 0) left) (hroom : b.length + e.text.length ≤ m)
    :
    ∃ ty, getResult n m ⟨.init, d, i, b, t⟩ (e.text ++ left) =
      getResult n m ⟨.init, d, i, b ++ kept n i
        (if d = 0 then e.value else e.raw), ty⟩ left := by
  unfold getResult
  cases e with
  | plain lead text htext =>
    rw [Element.text, append_assoc, get_spaces hidx (.inl rfl)]
    cases text with
    | nil =>
      refine ⟨t, ?_⟩
      simp only [Element.value, Element.raw, ite_self, kept_nil, append_nil, nil_append]
    | cons c text =>
      obtain ⟨hc, hrest⟩ := forall_mem_cons.mp htext.plain
      obtain ⟨hspace, hquote, hopen⟩ := htext.head c rfl
      obtain ⟨hcomma, hclose⟩ := not_sep_of_isPlain hc
      obtain ⟨ty, hty⟩ := setType_eq (n := n) (d := d)
        (i := i) (b := b) (t := t) .string
      simp only [Element.text, length_append, length_cons] at hroom
      have hkept := kept_length (n := n) (i := i) [c]
      rw [length_singleton] at hkept
      have hstep : Getter.step n m ⟨.init, d, i, b, t⟩ c =
          some ⟨.unquoted, d, i, b ++ kept n i [c], ty⟩ := by
        rw [Getter.step, Getter.init, if_neg hcomma, if_neg hquote, if_neg hopen,
          if_neg (fun h => hclose h.1), if_neg hspace, hty]
        exact assign_eq (by omega) c
      refine ⟨ty, ?_⟩
      rw [cons_append, get_cons hidx hstep, get_unquoted hrest hidx
        (by rw [length_append]; omega), append_assoc, kept_append]
      rw [Element.value, Element.raw, ite_self]
      exact getResult_follows h (.inl rfl)
  | quoted lead body trail hbody =>
    simp only [Element.text, length_append, length_cons] at hroom
    rw [Element.text, append_assoc, get_spaces hidx (.inl rfl), cons_append,
      append_assoc, cons_append]
    obtain ⟨ty, hty⟩ := setType_eq (n := n) (d := d)
        (i := i) (b := b) (t := t) .string
    have hstep : Getter.step n m ⟨.init, d, i, b, t⟩ '"' =
        some ⟨quotedState '"', d, i,
          b ++ kept n i (if d = 0 then [] else ['"']), ty⟩ := by
      have hopen : Getter.step n m ⟨.init, d, i, b, t⟩ '"' =
          (Getter.setType n ⟨.quoted, d, i, b, t⟩ .string).assignInArray n m
            '"' := rfl
      rw [hopen, hty]
      exact assignInArray_eq (by omega) '"'
    have hkept := kept_length (n := n) (i := i) (if d = 0 then [] else ['"'])
    have hone : (if d = 0 then [] else ['"']).length ≤ 1 := by split_ifs <;> simp
    refine ⟨ty, ?_⟩
    have hpending : (pending '"').length = 0 := rfl
    rw [get_cons hidx hstep, get_quoted hbody hidx (by rw [length_append]; omega),
      get_spaces hidx (.inr (.inl rfl)), append_assoc, kept_append]
    refine (getResult_follows h (.inr (.inl rfl))).trans ?_
    by_cases hdepth : d = 0
    · rw [if_pos hdepth, if_pos hdepth, if_pos hdepth]
      rfl
    · rw [if_neg hdepth, if_neg hdepth, if_neg hdepth]
      rfl

theorem moreRaw_cons (more : List Element) :
    moreRaw (e :: more) = ',' :: (e.raw ++ moreRaw more) := rfl

theorem get_more (more : List Element) (hidx : i ≤ n)
    (hroom : b.length + (moreText more).length ≤ m) :
    ∃ ty, getResult n m ⟨.init, 1, i, b, t⟩ (moreText more ++ ']' :: left) =
      getResult n m ⟨.arrayClosed, 0, i, b ++ kept n i (moreRaw more), ty⟩
        left := by
  induction more generalizing b t with
  | nil =>
    refine ⟨t, ?_⟩
    have hstep : Getter.step n m ⟨.init, 1, i, b, t⟩ ']' = some ⟨.arrayClosed, 0, i, b, t⟩ := rfl
    rw [moreRaw, flatMap_nil, kept_nil, append_nil]
    exact getResult_cons hidx hstep left
  | cons e more ih =>
    simp only [moreText_cons, length_cons, length_append] at hroom
    have hkept := kept_length (n := n) (i := i) [',']
    rw [length_singleton] at hkept
    have hstep : Getter.step n m ⟨.init, 1, i, b, t⟩ ',' =
        some ⟨.init, 1, i, b ++ kept n i [','], t⟩ := by
      have hcomma : Getter.step n m ⟨.init, 1, i, b, t⟩ ',' =
          Getter.assign n m ⟨.init, 1, i, b, t⟩ ',' := rfl
      rw [hcomma]
      exact assign_eq (by omega) ','
    rw [moreText_cons, cons_append, append_assoc, getResult_cons hidx hstep]
    obtain ⟨ty, helement⟩ := get_element (t := t) (d := 1) (m := m) e hidx
      (follows_more more left) (b := b ++ kept n i [',']) (by rw [length_append]; omega)
    have hraw := kept_length (n := n) (i := i) e.raw
    have hlength := raw_length e
    obtain ⟨ty', hmore⟩ := ih (t := ty) (b := b ++ kept n i [','] ++
      kept n i e.raw) (by rw [length_append, length_append]; omega)
    refine ⟨ty', helement.trans (hmore.trans ?_)⟩
    rw [append_assoc, append_assoc, kept_append, kept_append]
    rfl

theorem get_param (p : ItemParam) (hidx : i ≤ n) (h : Follows false left)
    (hroom : b.length + p.text.length ≤ m) :
    ∃ ty, getResult n m ⟨.init, 0, i, b, t⟩ (p.text ++ left) =
      getResult n m ⟨.init, 0, i, b ++ kept n i p.value, ty⟩ left := by
  cases p with
  | element e => exact get_element (d := 0) e hidx h hroom
  | array lead first more trail =>
    simp only [ItemParam.text, length_append, length_cons] at hroom
    obtain ⟨ty, hty⟩ := setType_eq (n := n) (d := 0)
        (i := i) (b := b) (t := t) .array
    have hstep : Getter.step n m ⟨.init, 0, i, b, t⟩ '[' = some ⟨.init, 1, i, b, ty⟩ := by
      have hopen : Getter.step n m ⟨.init, 0, i, b, t⟩ '[' =
          ((Getter.setType n ⟨.init, 0, i, b, t⟩ .array).assignInArray n m
            '[').map fun g => { g with array := g.array + 1 } := rfl
      rw [hopen, hty]
      rfl
    obtain ⟨ty₁, hfirst⟩ := get_element (t := ty) (d := 1) first hidx
      (follows_more more (spaces trail ++ left)) (b := b) (m := m) (by omega)
    have hraw := kept_length (n := n) (i := i) first.raw
    have hlength := raw_length first
    obtain ⟨ty₂, hmore⟩ := @get_more (spaces trail ++ left) n m i (b ++ kept n i first.raw) ty₁ more
      hidx (by rw [length_append]; omega)
    refine ⟨ty₂, ?_⟩
    have htext : (ItemParam.array lead first more trail).text ++ left =
        spaces lead ++ '[' :: (first.text ++ (moreText more ++ ']' :: (spaces trail ++ left))) := by
      simp [ItemParam.text]
    have hspaces (g : List Char) (ty : ParamType) (state : KeyState)
        (hstate : state = .init ∨ state = .quoteClosed ∨ state = .arrayClosed) (k : ℕ)
        (rest : List Char) : getResult n m ⟨state, 0, i, g, ty⟩ (spaces k ++ rest) =
          getResult n m ⟨state, 0, i, g, ty⟩ rest :=
      congrArg (·.bind (·.finish n)) (get_spaces hidx hstate k rest)
    calc getResult n m ⟨.init, 0, i, b, t⟩
          ((ItemParam.array lead first more trail).text ++ left)
      _ = getResult n m ⟨.init, 1, i, b, ty⟩
          (first.text ++ (moreText more ++ ']' :: (spaces trail ++ left))) := by
        rw [htext, hspaces _ _ _ (.inl rfl), getResult_cons hidx hstep]
      _ = getResult n m ⟨.arrayClosed, 0, i,
          b ++ kept n i first.raw ++ kept n i (moreRaw more), ty₂⟩
          (spaces trail ++ left) := hfirst.trans hmore
      _ = getResult n m ⟨.init, 0, i, b ++ kept n i
          (ItemParam.array lead first more trail).value, ty₂⟩ left := by
        rw [hspaces _ _ _ (.inr (.inr rfl)), append_assoc, kept_append]
        exact getResult_follows (d := 0) h (.inr (.inr rfl))

theorem get_done : getResult n m ⟨.init, 0, n, b, t⟩ (moreParams ps) = some (b, t) := by
  have hfinish {i : ℕ} (h : n ≤ i) :
      Getter.finish n ⟨.init, 0, i, b, t⟩ = some (b, t) := by
    unfold Getter.finish
    rw [if_neg (by simp [h])]
  cases ps with
  | nil => exact hfinish (Nat.le_refl _)
  | cons p ps =>
    have hstep : Getter.step n m ⟨.init, 0, n, b, t⟩ ',' = some ⟨.init, 0, n + 1, b, t⟩ := rfl
    have hidx : (⟨.init, 0, n, b, t⟩ : Getter).idx ≤ n := Nat.le_refl n
    rw [moreParams_cons, getResult_cons hidx hstep]
    have hloop : Getter.loop n m ⟨.init, 0, n + 1, b, t⟩ (p.text ++ moreParams ps) =
        some ⟨.init, 0, n + 1, b, t⟩ := by
      cases p.text ++ moreParams ps with
      | nil => rfl
      | cons c rest => rw [Getter.loop, if_pos (lt_succ_self n)]
    rw [getResult, hloop, Option.bind_some]
    exact hfinish (le_succ n)

theorem get_params (p : ItemParam) (ps : List ItemParam) (k : ℕ) (hn : i + k = n)
    (hroom : (paramsText p ps).length ≤ m) :
    (getResult n m ⟨.init, 0, i, [], t⟩ (paramsText p ps)).map Prod.fst =
      ((p :: ps)[k]?).map ItemParam.value := by
  induction k generalizing p ps i t with
  | zero =>
    obtain rfl : i = n := hn
    rw [paramsText, length_append] at hroom
    obtain ⟨ty, hparam⟩ := get_param (m := m) (b := []) (t := t) p (Nat.le_refl i)
      (follows_moreParams ps) (by rw [length_nil]; omega)
    rw [paramsText, hparam, nil_append, kept, if_pos rfl, get_done]
    rfl
  | succ k ih =>
    have hlt : i < n := by omega
    rw [paramsText, length_append] at hroom
    obtain ⟨ty, hparam⟩ := get_param (m := m) (b := []) (t := t) p hlt.le
      (follows_moreParams ps) (by rw [length_nil]; omega)
    rw [paramsText, hparam, nil_append, kept, if_neg hlt.ne]
    cases ps with
    | nil =>
      have hmissing : getResult n m ⟨.init, 0, i, [], ty⟩ (moreParams []) = none := by
        have hfinish : Getter.finish n ⟨.init, 0, i, [], ty⟩ = none :=
          if_pos (.inr (.inr (.inr hlt)))
        exact hfinish
      rw [hmissing]
      rfl
    | cons q ps =>
      have hstep : Getter.step n m ⟨.init, 0, i, [], ty⟩ ',' = some ⟨.init, 0, i + 1, [], ty⟩ := rfl
      have hcomma := getResult_cons (g := ⟨.init, 0, i, [], ty⟩) hlt.le hstep
        (q.text ++ moreParams ps)
      rw [moreParams_cons, hcomma]
      rw [moreParams_cons, length_cons] at hroom
      exact ih q ps (by omega) (by rw [paramsText]; omega)

theorem zbxGetParam_params (p : ItemParam) (ps : List ItemParam) (k maxLen : ℕ)
    (hroom : (paramsText p ps).length < maxLen) :
    (zbxGetParam (k + 1) maxLen (paramsText p ps)).map Prod.fst =
      ((p :: ps)[k]?).map ItemParam.value := by
  have hne : maxLen ≠ 0 := Nat.ne_of_gt (zero_lt_of_lt hroom)
  rw [zbxGetParam, if_neg hne]
  exact get_params p ps k (Nat.add_comm 1 k) (le_sub_one_of_lt hroom)

end Zabbix.Expr
