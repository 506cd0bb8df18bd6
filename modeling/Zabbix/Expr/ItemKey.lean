import Mathlib.Data.Int.Notation
import Zabbix.Expr.Text

/-!
# Substitution in item key parameters

`key.c`: the second parser of item keys, which calls a function on each parameter and puts the
text that the function returns in place of the parameter. `front` is the text before the index
`i`, so the index is its length.
-/

namespace Zabbix.Expr

open List

inductive ParserState
  | stateNew
  | stateEnd
  | stateUnquoted
  | stateQuoted
  deriving DecidableEq

/-- `zbx_subst_func_t`, called with the parameter, its level and number and whether it is quoted;
what it returns and puts into `param`. -/
abbrev SubstFunc := List Char → ℤ → ℤ → Bool → Bool × Option (List Char)

structure Parser where
  front : List Char
  level : ℤ
  num : ℤ
  -- where the parameter starts
  l : ℕ
  state : ParserState
  ret : Bool

def Parser.start (front : List Char) : Parser where
  front := front
  level := 0
  num := 0
  l := 0
  state := .stateNew
  ret := true

/-- `(*i)++`. -/
def Parser.push (p : Parser) (c : Char) : Parser := { p with front := p.front ++ [c] }

def Parser.substituteItemKey (p : Parser) (cb : SubstFunc) (isItemKey : Bool) (l : ℕ)
    (isQuoted : Bool) : Parser :=
  let (ret, param) :=
    if isItemKey ∧ p.level = 0 then (true, none) else cb (p.front.drop l) p.level p.num isQuoted
  { p with
    front := param.elim p.front (p.front.take l ++ ·)
    ret := ret }

/-- `if (1 == *level) num++`. -/
def nextNum (level num : ℤ) : ℤ := if level = 1 then num + 1 else num

def Parser.newStep (p : Parser) (cb : SubstFunc) (isItemKey : Bool) (c : Char) :
    Except Parser Parser :=
  if c = ' ' then .ok (p.push c)
  else if c = ',' then
    let p := p.substituteItemKey cb isItemKey p.front.length false
    .ok (({ p with num := nextNum p.level p.num } : Parser).push c)
  else if c = '[' then
    if p.level = 2 then .error p
    else
      .ok (({ p with
        level := p.level + 1
        num := nextNum (p.level + 1) p.num } : Parser).push c)
  else if c = ']' then
    let p := p.substituteItemKey cb isItemKey p.front.length false
    .ok (({ p with level := p.level - 1, state := .stateEnd } : Parser).push c)
  else if c = '"' then
    .ok (({ p with state := .stateQuoted, l := p.front.length } : Parser).push c)
  else .ok (({ p with state := .stateUnquoted, l := p.front.length } : Parser).push c)

def Parser.endStep (p : Parser) (c : Char) : Except Parser Parser :=
  if c = ' ' then .ok (p.push c)
  else if c = ',' then
    .ok (({ p with
      state := .stateNew
      num := nextNum p.level p.num } : Parser).push c)
  else if c = ']' then
    if p.level = 0 then .error p
    else .ok (({ p with level := p.level - 1 } : Parser).push c)
  else .error p

def Parser.unquotedStep (p : Parser) (cb : SubstFunc) (isItemKey : Bool) (c : Char) :
    Except Parser Parser :=
  if c = ']' ∨ c = ',' then
    let p := p.substituteItemKey cb isItemKey p.l false
    let p := { p with state := .stateEnd }
    if p.ret then p.endStep c else .error p
  else .ok (p.push c)

def Parser.quotedStep (p : Parser) (cb : SubstFunc) (isItemKey : Bool) (c : Char) : Parser :=
  if c = '"' ∧ p.front.getLast? ≠ some '\\' then
    let p := (p.push c).substituteItemKey cb isItemKey p.l true
    { p with state := .stateEnd }
  else p.push c

def Parser.step (p : Parser) (cb : SubstFunc) (isItemKey : Bool) (c : Char) :
    Except Parser Parser :=
  match p.state with
  | .stateNew => p.newStep cb isItemKey c
  | .stateEnd => p.endStep c
  | .stateUnquoted => p.unquotedStep cb isItemKey c
  | .stateQuoted => .ok (p.quotedStep cb isItemKey c)

def Parser.loop (cb : SubstFunc) (isItemKey : Bool) : Parser → List Char → Parser × List Char
  | p, [] => (p, [])
  | p, c :: rest =>
    if p.ret then
      match p.step cb isItemKey c with
      | .ok p => p.loop cb isItemKey rest
      | .error p => (p, c :: rest)
    else (p, c :: rest)

def parseParams (cb : SubstFunc) (isItemKey : Bool) (p : Parser) (rest : List Char) :
    Parser × List Char :=
  (p.substituteItemKey cb isItemKey 0 false).loop cb isItemKey rest

structure Substitution where
  ret : Bool
  data : List Char
  error : Option String

def Parser.finish (p : Parser) (rest : List Char) : Substitution :=
  if p.front = [] ∨ rest ≠ [] ∨ p.level ≠ 0 then
    { ret := false
      data := p.front ++ rest
      error := some ("Invalid item key at position " ++ toString p.front.length) }
  else { ret := p.ret, data := p.front ++ rest, error := none }

def zbxSubstituteItemKeyParams (cb : SubstFunc) (data : List Char) : Substitution :=
  let p := Parser.start (data.takeWhile zbxIsKeyChar)
  let rest := data.dropWhile zbxIsKeyChar
  match rest with
  | [] | '[' :: _ =>
    if p.front = [] then p.finish rest
    else
      let (p, rest) := parseParams cb true p rest
      p.finish rest
  | _ => p.finish rest

def ChangesNothing (cb : SubstFunc) : Prop := ∀ text level num isQuoted,
  (cb text level num isQuoted).1 = true ∧
    ∀ param ∈ (cb text level num isQuoted).2, param = text

def keepParam : SubstFunc := fun _ _ _ _ => (true, none)

theorem changesNothing_keepParam : ChangesNothing keepParam := fun _ _ _ _ =>
  ⟨rfl, fun _ h => absurd h (Option.not_mem_none _)⟩

variable {cb : SubstFunc} {isItemKey : Bool} {p p' : Parser} {c : Char}

theorem substituteItemKey_eq (hcb : ChangesNothing cb) (hp : p.ret = true) (l : ℕ)
    (isQuoted : Bool) : p.substituteItemKey cb isItemKey l isQuoted = p := by
  obtain ⟨hret, hparam⟩ := hcb (p.front.drop l) p.level p.num isQuoted
  unfold Parser.substituteItemKey
  split_ifs
  · exact congrArg (fun ret => ({ p with ret := ret } : Parser)) hp.symm
  · cases hresult : (cb (p.front.drop l) p.level p.num isQuoted).2 with
    | none =>
      simp only [hresult, hret, Option.elim_none]
      exact congrArg (fun ret => ({ p with ret := ret } : Parser)) hp.symm
    | some param =>
      rw [hresult] at hparam
      simp only [hresult, hret, Option.elim_some, hparam param rfl, take_append_drop]
      exact congrArg (fun ret => ({ p with ret := ret } : Parser)) hp.symm

/-! ## Parameter lists

The same texts without the buffer: where one is in a parameter list and at which bracket level.
-/

inductive Place
  | new
  | ended
  | unquoted
  -- the last character was a backslash
  | quoted (escaped : Bool)

def afterParam (level : ℤ) (c : Char) : Option (Place × ℤ) :=
  if c = ' ' then some (.ended, level)
  else if c = ',' then some (.new, level)
  else if c = ']' ∧ level ≠ 0 then some (.ended, level - 1)
  else none

def Place.next (level : ℤ) (c : Char) : Place → Option (Place × ℤ)
  | .new =>
    if c = ' ' ∨ c = ',' then some (.new, level)
    else if c = '[' then if level = 2 then none else some (.new, level + 1)
    else if c = ']' then some (.ended, level - 1)
    else if c = '"' then some (.quoted false, level)
    else some (.unquoted, level)
  | .ended => afterParam level c
  | .unquoted => if c = ']' ∨ c = ',' then afterParam level c else some (.unquoted, level)
  | .quoted escaped =>
    if c = '"' ∧ escaped = false then some (.ended, level)
    else some (.quoted (c = '\\'), level)

def continues : Place → ℤ → List Char → Bool
  | _, level, [] => level = 0
  | place, level, c :: rest =>
    match place.next level c with
    | some (place, level) => continues place level rest
    | none => false

def Parser.place (p : Parser) : Place :=
  match p.state with
  | .stateNew => .new
  | .stateEnd => .ended
  | .stateUnquoted => .unquoted
  | .stateQuoted => .quoted (p.front.getLast? = some '\\')

def Parser.Follows (p : Parser) (c : Char) : Except Parser Parser → Prop
  | .ok p' => p'.ret = true ∧ p'.front = p.front ++ [c] ∧
      p.place.next p.level c = some (p'.place, p'.level)
  | .error p' => p'.ret = true ∧ p'.front = p.front ∧ p.place.next p.level c = none

theorem place_of_new (h : p.state = .stateNew) : p.place = .new := by rw [Parser.place, h]

theorem place_of_end (h : p.state = .stateEnd) : p.place = .ended := by rw [Parser.place, h]

theorem place_of_unquoted (h : p.state = .stateUnquoted) : p.place = .unquoted := by
  rw [Parser.place, h]

theorem place_of_quoted (h : p.state = .stateQuoted) :
    p.place = .quoted (p.front.getLast? = some '\\') := by
  rw [Parser.place, h]

theorem push_place_quoted (h : p.state = .stateQuoted) : (p.push c).place = .quoted (c = '\\') := by
  rw [place_of_quoted (p := p.push c) h]
  simp [Parser.push]

theorem some_place {place : Place} {level : ℤ} (hplace : p.place = place)
    (hlevel : p.level = level) : some (place, level) = some (p.place, p.level) := by
  rw [hplace, hlevel]

theorem newStep_follows (hcb : ChangesNothing cb) (hp : p.ret = true)
    (hstate : p.state = .stateNew) : p.Follows c (p.newStep cb isItemKey c) := by
  unfold Parser.newStep
  rw [substituteItemKey_eq hcb hp]
  split_ifs with hspace hcomma hopen hlevel hclose hquote
  · refine ⟨hp, rfl, ?_⟩
    rw [place_of_new hstate, Place.next, if_pos (.inl hspace)]
    exact some_place (place_of_new hstate) rfl
  · refine ⟨hp, rfl, ?_⟩
    rw [place_of_new hstate, Place.next, if_pos (.inr hcomma)]
    exact some_place (place_of_new hstate) rfl
  · refine ⟨hp, rfl, ?_⟩
    rw [place_of_new hstate, Place.next, if_neg (by simp [*]), if_pos hopen, if_pos hlevel]
  · refine ⟨hp, rfl, ?_⟩
    rw [place_of_new hstate, Place.next, if_neg (by simp [*]), if_pos hopen, if_neg hlevel]
    exact some_place (place_of_new hstate) rfl
  · refine ⟨hp, rfl, ?_⟩
    rw [place_of_new hstate, Place.next, if_neg (by simp [*]), if_neg hopen, if_pos hclose]
    exact some_place (place_of_end rfl) rfl
  · refine ⟨hp, rfl, ?_⟩
    rw [place_of_new hstate, Place.next, if_neg (by simp [*]), if_neg hopen, if_neg hclose,
      if_pos hquote]
    exact some_place ((push_place_quoted rfl).trans (by rw [hquote]; rfl)) rfl
  · refine ⟨hp, rfl, ?_⟩
    rw [place_of_new hstate, Place.next, if_neg (by simp [*]), if_neg hopen, if_neg hclose,
      if_neg hquote]
    exact some_place (place_of_unquoted rfl) rfl

theorem endStep_follows (hp : p.ret = true) (hstate : p.state = .stateEnd) :
    p.Follows c (p.endStep c) := by
  unfold Parser.endStep
  split_ifs with hspace hcomma hclose hlevel
  · refine ⟨hp, rfl, ?_⟩
    rw [place_of_end hstate, Place.next, afterParam, if_pos hspace]
    exact some_place (place_of_end hstate) rfl
  · refine ⟨hp, rfl, ?_⟩
    rw [place_of_end hstate, Place.next, afterParam, if_neg hspace, if_pos hcomma]
    exact some_place (place_of_new rfl) rfl
  · refine ⟨hp, rfl, ?_⟩
    rw [place_of_end hstate, Place.next, afterParam, if_neg hspace, if_neg hcomma,
      if_neg (fun h => h.2 hlevel)]
  · refine ⟨hp, rfl, ?_⟩
    rw [place_of_end hstate, Place.next, afterParam, if_neg hspace, if_neg hcomma,
      if_pos ⟨hclose, hlevel⟩]
    exact some_place (place_of_end hstate) rfl
  · refine ⟨hp, rfl, ?_⟩
    rw [place_of_end hstate, Place.next, afterParam, if_neg hspace, if_neg hcomma,
      if_neg (fun h => hclose h.1)]

theorem unquotedStep_follows (hcb : ChangesNothing cb) (hp : p.ret = true)
    (hstate : p.state = .stateUnquoted) : p.Follows c (p.unquotedStep cb isItemKey c) := by
  unfold Parser.unquotedStep
  rw [substituteItemKey_eq hcb hp]
  split_ifs with hlast
  · -- the character is read again after the end of the parameter
    have hend := endStep_follows (p := { p with state := .stateEnd }) (c := c) hp rfl
    have hnext : p.place.next p.level c = afterParam p.level c := by
      rw [place_of_unquoted hstate, Place.next, if_pos hlast]
    dsimp only
    rw [if_pos hp]
    unfold Parser.Follows at hend ⊢
    rw [hnext]
    exact hend
  · refine ⟨hp, rfl, ?_⟩
    rw [place_of_unquoted hstate, Place.next, if_neg hlast]
    exact some_place (place_of_unquoted hstate) rfl

theorem quotedStep_follows (hcb : ChangesNothing cb) (hp : p.ret = true)
    (hstate : p.state = .stateQuoted) : p.Follows c (.ok (p.quotedStep cb isItemKey c)) := by
  unfold Parser.quotedStep
  rw [substituteItemKey_eq hcb (p := p.push c) hp]
  split_ifs with hquote
  · refine ⟨hp, rfl, ?_⟩
    rw [place_of_quoted hstate, Place.next, if_pos ⟨hquote.1, decide_eq_false hquote.2⟩]
    exact some_place (place_of_end rfl) rfl
  · refine ⟨hp, rfl, ?_⟩
    rw [place_of_quoted hstate, Place.next, if_neg (fun h => hquote ⟨h.1, of_decide_eq_false h.2⟩)]
    exact some_place (push_place_quoted hstate) rfl

theorem step_follows (hcb : ChangesNothing cb) (hp : p.ret = true) :
    p.Follows c (p.step cb isItemKey c) := by
  cases hstate : p.state with
  | stateNew =>
    rw [Parser.step, hstate]
    exact newStep_follows hcb hp hstate
  | stateEnd =>
    rw [Parser.step, hstate]
    exact endStep_follows hp hstate
  | stateUnquoted =>
    rw [Parser.step, hstate]
    exact unquotedStep_follows hcb hp hstate
  | stateQuoted =>
    rw [Parser.step, hstate]
    exact quotedStep_follows hcb hp hstate

theorem loop_continues (hcb : ChangesNothing cb) (hp : p.ret = true) (text : List Char) :
    (p.loop cb isItemKey text).1.ret = true ∧
      (p.loop cb isItemKey text).1.front ++ (p.loop cb isItemKey text).2 = p.front ++ text ∧
      ((p.loop cb isItemKey text).2 = [] ∧ (p.loop cb isItemKey text).1.level = 0 ↔
        continues p.place p.level text = true) := by
  induction text generalizing p with
  | nil =>
    refine ⟨hp, rfl, ?_⟩
    simp [Parser.loop, continues]
  | cons c rest ih =>
    have hfollows := @step_follows cb isItemKey p c hcb hp
    rw [Parser.loop, if_pos hp, continues]
    cases hstep : p.step cb isItemKey c with
    | ok p' =>
      rw [hstep] at hfollows
      obtain ⟨hp', hfront, hnext⟩ := hfollows
      obtain ⟨hret, htext, hiff⟩ := ih hp'
      rw [hnext]
      exact ⟨hret, by rw [htext, hfront, append_assoc, singleton_append], hiff⟩
    | error p' =>
      rw [hstep] at hfollows
      obtain ⟨hp', hfront, hnext⟩ := hfollows
      rw [hnext]
      exact ⟨hp', by rw [hfront], by simp⟩

def KeyState.place : KeyState → Place
  | .init => .new
  | .quoted => .quoted false
  | .backslash => .quoted true
  | .quoteClosed => .ended
  | .unquoted => .unquoted
  | .arrayClosed => .ended

def arrayLevel (array : Bool) : ℤ := if array then 2 else 1

def KeyState.Fits (state : KeyState) (array : Bool) : Prop := state = .arrayClosed → array = false

def KeyStep.moved : KeyStep → Option (Place × ℤ)
  | .next state array => some (state.place, arrayLevel array)
  | .succeed => some (.ended, 0)
  | .fail => none

theorem keyInit_moved (array : Bool) (c : Char) :
    (keyInit array c).moved = Place.next (arrayLevel array) c .new := by
  rw [keyInit, Place.next]
  by_cases hcomma : c = ','
  · rw [if_pos hcomma, if_pos (.inr hcomma)]
    rfl
  · by_cases hquote : c = '"'
    · subst hquote
      cases array <;> rfl
    · by_cases hopen : c = '['
      · subst hopen
        cases array <;> rfl
      · by_cases hclose : c = ']'
        · subst hclose
          cases array <;> rfl
        · by_cases hspace : c = ' '
          · subst hspace
            cases array <;> rfl
          · simp only [hcomma, hquote, hopen, hclose, hspace, if_false, or_self]
            rfl

theorem keyQuoted_moved (array : Bool) (c : Char) :
    (keyQuoted array c).moved = Place.next (arrayLevel array) c (.quoted false) := by
  rw [keyQuoted, Place.next]
  by_cases hquote : c = '"'
  · rw [if_pos hquote, if_pos ⟨hquote, rfl⟩]
    rfl
  · have hinside : ¬ (c = '"' ∧ false = false) := fun h => hquote h.1
    rw [if_neg hquote, if_neg hinside]
    by_cases hbackslash : c = '\\'
    · rw [if_pos hbackslash, decide_eq_true hbackslash]
      rfl
    · rw [if_neg hbackslash, decide_eq_false hbackslash]
      rfl

theorem keyStep_moved (state : KeyState) (array : Bool) (c : Char) (hfits : state.Fits array) :
    (keyStep array c state).moved = state.place.next (arrayLevel array) c := by
  cases state with
  | init => exact keyInit_moved array c
  | quoted => exact keyQuoted_moved array c
  | backslash =>
    rw [keyStep]
    split_ifs with hquote
    · subst hquote
      rfl
    · rw [keyQuoted_moved, KeyState.place, Place.next, Place.next,
        if_neg (fun h => hquote h.1), if_neg (fun h => hquote h.1)]
  | quoteClosed =>
    by_cases hspace : c = ' '
    · subst hspace
      cases array <;> rfl
    · by_cases hclose : c = ']'
      · subst hclose
        cases array <;> rfl
      · by_cases hcomma : c = ','
        · subst hcomma
          cases array <;> rfl
        · simp only [keyStep, KeyState.place, Place.next, afterParam, hspace, hclose, hcomma,
            false_and, or_self, if_false]
          rfl
  | unquoted =>
    by_cases hclose : c = ']'
    · subst hclose
      cases array <;> rfl
    · by_cases hcomma : c = ','
      · subst hcomma
        cases array <;> rfl
      · simp only [keyStep, KeyState.place, Place.next, hclose, hcomma, false_and, or_self,
          if_false]
        rfl
  | arrayClosed =>
    obtain rfl := hfits rfl
    by_cases hspace : c = ' '
    · subst hspace
      rfl
    · by_cases hclose : c = ']'
      · subst hclose
        rfl
      · by_cases hcomma : c = ','
        · subst hcomma
          rfl
        · simp only [keyStep, KeyState.place, Place.next, afterParam, hspace, hclose, hcomma,
            false_and, if_false]
          rfl

theorem keyInit_fits {array array' : Bool} (h : keyInit array c = .next .arrayClosed array') :
    array' = false := by
  unfold keyInit at h
  split_ifs at h <;> cases h
  rfl

theorem keyQuoted_fits {array array' : Bool} : keyQuoted array c ≠ .next .arrayClosed array' := by
  unfold keyQuoted
  split_ifs <;> nofun

theorem keyStep_fits {state state' : KeyState} {array array' : Bool} (hfits : state.Fits array)
    (h : keyStep array c state = .next state' array') : state'.Fits array' := by
  rintro rfl
  unfold keyStep at h
  cases state with
  | init => exact keyInit_fits h
  | quoted => exact absurd h keyQuoted_fits
  | backslash =>
    dsimp only at h
    split_ifs at h
    · cases h
    · exact absurd h keyQuoted_fits
  | quoteClosed =>
    dsimp only at h
    split_ifs at h
    · cases h
    · exact keyInit_fits h
  | unquoted =>
    dsimp only at h
    split_ifs at h
    · exact keyInit_fits h
    · cases h
  | arrayClosed =>
    obtain rfl := hfits rfl
    dsimp only at h
    split_ifs at h <;> cases h
    rfl

theorem keyParams_continues (state : KeyState) (array : Bool) (hfits : state.Fits array)
    (text : List Char) : continues state.place (arrayLevel array) text =
      (keyParams state array text).any (continues .ended 0 ·) := by
  induction text generalizing state array with
  | nil => cases array <;> rfl
  | cons c rest ih =>
    rw [continues, keyParams, ← keyStep_moved state array c hfits]
    cases hstep : keyStep array c state with
    | next state' array' => exact ih state' array' (keyStep_fits hfits hstep)
    | succeed => rfl
    | fail => rfl

theorem keyParams_append {state : KeyState} {array : Bool} {text : List Char}
    (h : keyParams state array text = some []) (rest : List Char) :
    keyParams state array (text ++ rest) = some rest := by
  induction text generalizing state array with
  | nil => cases h
  | cons c text ih =>
    rw [keyParams] at h
    rw [cons_append, keyParams]
    cases hstep : keyStep array c state with
    | next state' array' =>
      rw [hstep] at h
      exact ih h
    | succeed =>
      rw [hstep] at h
      rw [Option.some.inj h]
      rfl
    | fail =>
      rw [hstep] at h
      cases h

theorem keyParams_eq_append {state : KeyState} {array : Bool} {text rest : List Char}
    (h : keyParams state array text = some rest) :
    ∃ params, text = params ++ rest ∧ keyParams state array params = some [] := by
  induction text generalizing state array with
  | nil => cases h
  | cons c text ih =>
    rw [keyParams] at h
    cases hstep : keyStep array c state with
    | next state' array' =>
      rw [hstep] at h
      obtain ⟨params, rfl, hparams⟩ := ih h
      exact ⟨c :: params, rfl, by rw [keyParams, hstep]; exact hparams⟩
    | succeed =>
      rw [hstep] at h
      exact ⟨[c], congrArg (c :: ·) (Option.some.inj h), by rw [keyParams, hstep]⟩
    | fail =>
      rw [hstep] at h
      cases h

/-- A complete item key with parameters and after its closing bracket a text that continues the
list of parameters at level 0. -/
def KeyWithTail (s : List Char) : Prop := ∃ name params rest,
  s = name ++ '[' :: (params ++ rest) ∧ name ≠ [] ∧ (∀ c ∈ name, zbxIsKeyChar c = true) ∧
    keyParams .init false params = some [] ∧ rest ≠ [] ∧ continues .ended 0 rest = true

theorem span_name {name rest : List Char} (hname : ∀ c ∈ name, zbxIsKeyChar c = true) :
    (name ++ '[' :: rest).takeWhile zbxIsKeyChar = name ∧
      (name ++ '[' :: rest).dropWhile zbxIsKeyChar = '[' :: rest := by
  have hopen : zbxIsKeyChar '[' = false := rfl
  rw [takeWhile_append_of_pos hname, dropWhile_append_of_pos hname,
    takeWhile_cons_of_neg (by rw [hopen]; exact Bool.false_ne_true), append_nil,
    dropWhile_cons_of_neg (by rw [hopen]; exact Bool.false_ne_true)]
  exact ⟨rfl, rfl⟩

theorem zbxParseKey_complete (s : List Char) : zbxParseKey s = some [] ↔
    s.takeWhile zbxIsKeyChar ≠ [] ∧ (s.dropWhile zbxIsKeyChar = [] ∨
      ∃ params, s.dropWhile zbxIsKeyChar = '[' :: params ∧
        keyParams .init false params = some []) := by
  unfold zbxParseKey
  dsimp only
  split_ifs with hname
  · exact ⟨nofun, fun h => absurd hname h.1⟩
  · split
    · next params hrest =>
      rw [hrest]
      constructor
      · exact fun h => ⟨hname, .inr ⟨params, rfl, h⟩⟩
      · rintro ⟨-, hnil | ⟨params', heq, h⟩⟩
        · cases hnil
        · cases heq
          exact h
    · next hother =>
      constructor
      · exact fun h => ⟨hname, .inl (Option.some.inj h)⟩
      · rintro ⟨-, hnil | ⟨params, heq, -⟩⟩
        · exact congrArg some hnil
        · exact absurd heq (hother params)

theorem finish_ret (p : Parser) (rest : List Char) : (p.finish rest).ret = true ↔
    p.front ≠ [] ∧ rest = [] ∧ p.level = 0 ∧ p.ret = true := by
  unfold Parser.finish
  split_ifs with h
  · refine ⟨nofun, fun ⟨hfront, hrest, hlevel, _⟩ => ?_⟩
    obtain hnil | hne | hne := h
    · exact absurd hnil hfront
    · exact absurd hrest hne
    · exact absurd hlevel hne
  · push Not at h
    exact ⟨fun hret => ⟨h.1, h.2.1, h.2.2, hret⟩, fun h => h.2.2.2⟩

theorem finish_data (p : Parser) (rest : List Char) : (p.finish rest).data = p.front ++ rest := by
  unfold Parser.finish
  split_ifs <;> rfl

theorem parseParams_finish (hcb : ChangesNothing cb) {name : List Char} (hname : name ≠ [])
    (rest : List Char) :
    ((parseParams cb true (.start name) rest).1.finish
        (parseParams cb true (.start name) rest).2).data = name ++ rest ∧
      (((parseParams cb true (.start name) rest).1.finish
        (parseParams cb true (.start name) rest).2).ret = true ↔ continues .new 0 rest = true) := by
  rw [parseParams, substituteItemKey_eq hcb (p := .start name) rfl]
  obtain ⟨hret, htext, hiff⟩ := @loop_continues cb true (.start name) hcb rfl rest
  refine ⟨(finish_data _ _).trans htext, ⟨fun h => ?_, fun h => ?_⟩⟩
  · obtain ⟨-, hrest, hlevel, -⟩ := (finish_ret _ _).mp h
    exact hiff.mp ⟨hrest, hlevel⟩
  · obtain ⟨hrest, hlevel⟩ := hiff.mpr h
    refine (finish_ret _ _).mpr ⟨fun hnil => ?_, hrest, hlevel, hret⟩
    rw [hrest, hnil] at htext
    exact hname (append_eq_nil_iff.mp htext.symm).1

theorem substitute_data (hcb : ChangesNothing cb) (s : List Char) :
    (zbxSubstituteItemKeyParams cb s).data = s := by
  have hsplit : s.takeWhile zbxIsKeyChar ++ s.dropWhile zbxIsKeyChar = s :=
    takeWhile_append_dropWhile
  unfold zbxSubstituteItemKeyParams
  dsimp only
  split
  · split_ifs with hname
    · exact (finish_data _ _).trans hsplit
    · exact (parseParams_finish hcb hname _).1.trans hsplit
  · split_ifs with hname
    · exact (finish_data _ _).trans hsplit
    · exact (parseParams_finish hcb hname _).1.trans hsplit
  · exact (finish_data _ _).trans hsplit

theorem substitute_ret (hcb : ChangesNothing cb) (s : List Char) :
    (zbxSubstituteItemKeyParams cb s).ret = true ↔ s.takeWhile zbxIsKeyChar ≠ [] ∧
      (s.dropWhile zbxIsKeyChar = [] ∨ ∃ params, s.dropWhile zbxIsKeyChar = '[' :: params ∧
        continues .new 1 params = true) := by
  unfold zbxSubstituteItemKeyParams
  dsimp only
  split
  · next hrest =>
    split_ifs with hname
    · rw [finish_ret]
      exact ⟨fun h => absurd hname h.1, fun h => absurd hname h.1⟩
    · replace hname : s.takeWhile zbxIsKeyChar ≠ [] := hname
      rw [(parseParams_finish hcb hname _).2, hrest]
      exact ⟨fun _ => ⟨hname, .inl rfl⟩, fun _ => rfl⟩
  · next params hrest =>
    split_ifs with hname
    · rw [finish_ret]
      exact ⟨fun h => absurd hname h.1, fun h => absurd hname h.1⟩
    · replace hname : s.takeWhile zbxIsKeyChar ≠ [] := hname
      rw [(parseParams_finish hcb hname _).2, hrest]
      constructor
      · exact fun h => ⟨hname, .inr ⟨params, rfl, h⟩⟩
      · rintro ⟨-, hnil | ⟨params', heq, h⟩⟩
        · cases hnil
        · cases heq
          exact h
  · next hnil hopen =>
    rw [finish_ret]
    constructor
    · exact fun h => absurd h.2.1 hnil
    · rintro ⟨-, h | ⟨params, heq, -⟩⟩
      · exact absurd h hnil
      · exact absurd heq (hopen params)

theorem keyWithTail_iff (s : List Char) : KeyWithTail s ↔ s.takeWhile zbxIsKeyChar ≠ [] ∧
    ∃ params rest, s.dropWhile zbxIsKeyChar = '[' :: params ∧
      keyParams .init false params = some rest ∧ rest ≠ [] ∧ continues .ended 0 rest = true := by
  constructor
  · rintro ⟨name, params, rest, rfl, hne, hname, hparams, hrest⟩
    obtain ⟨htake, hdrop⟩ := @span_name name (params ++ rest) hname
    rw [htake, hdrop]
    exact ⟨hne, params ++ rest, rest, rfl, keyParams_append hparams rest, hrest⟩
  · rintro ⟨hne, params, rest, hdrop, hparams, hrest⟩
    obtain ⟨front, rfl, hfront⟩ := keyParams_eq_append hparams
    refine ⟨s.takeWhile zbxIsKeyChar, front, rest, ?_, hne,
      all_eq_true.mp all_takeWhile, hfront, hrest⟩
    rw [← hdrop, takeWhile_append_dropWhile]

/-- With a function that changes nothing both parsers accept the same complete keys and leave the
text, but for keys with a tail that `parse_params` takes for further parameters. -/
theorem substitute_item_key_params_agrees (hcb : ChangesNothing cb) (s : List Char) :
    ((zbxParseKey s = some [] ↔ (zbxSubstituteItemKeyParams cb s).ret = true) ∧
      (zbxSubstituteItemKeyParams cb s).data = s) ↔ ¬ KeyWithTail s := by
  rw [zbxParseKey_complete, substitute_ret hcb, keyWithTail_iff,
    and_iff_left (substitute_data hcb s)]
  have hcontinues (params : List Char) : continues .new 1 params =
      (keyParams .init false params).any (continues .ended 0 ·) :=
    keyParams_continues .init false nofun params
  constructor
  · rintro hagree ⟨hname, params, rest, hdrop, hparams, hrest, htail⟩
    have hret : continues .new 1 params = true := by
      rw [hcontinues, hparams]
      exact htail
    obtain ⟨-, hnil | ⟨params', heq, h⟩⟩ := hagree.mpr ⟨hname, .inr ⟨params, hdrop, hret⟩⟩
    · rw [hdrop] at hnil
      cases hnil
    · rw [hdrop] at heq
      cases heq
      rw [hparams] at h
      exact hrest (Option.some.inj h)
  · intro htail
    refine and_congr_right fun hname => or_congr_right (exists_congr fun params =>
      and_congr_right fun hdrop => ?_)
    rw [hcontinues]
    constructor
    · intro h
      rw [h]
      rfl
    · intro h
      obtain ⟨rest, hparams, hrest⟩ := (Option.any_eq_true _ _).mp h
      by_contra hne
      refine htail ⟨hname, params, rest, hdrop, hparams, fun hnil => ?_, hrest⟩
      exact hne (hnil ▸ hparams)

theorem substitute_item_key_params_agrees_key :
    (zbxParseKey ['k', '[', 'a', ']'] = some [] ↔
        (zbxSubstituteItemKeyParams keepParam ['k', '[', 'a', ']']).ret = true) ∧
      (zbxSubstituteItemKeyParams keepParam ['k', '[', 'a', ']']).data =
        ['k', '[', 'a', ']'] := by
  refine (substitute_item_key_params_agrees changesNothing_keepParam _).mpr fun h => ?_
  obtain ⟨-, params, rest, hdrop, hparams, hrest, -⟩ := (keyWithTail_iff _).mp h
  obtain rfl : ['a', ']'] = params := (List.cons.inj hdrop).2
  exact hrest (Option.some.inj hparams).symm

/-- A comma after the closing bracket. -/
theorem substitute_item_key_params_tail : ChangesNothing keepParam ∧
    zbxParseKey ['k', '[', 'a', ']', ','] ≠ some [] ∧
      (zbxSubstituteItemKeyParams keepParam ['k', '[', 'a', ']', ',']).ret = true :=
  ⟨changesNothing_keepParam, by decide, by decide⟩

end Zabbix.Expr
