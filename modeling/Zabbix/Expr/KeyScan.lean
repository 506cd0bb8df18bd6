import Zabbix.Expr.ItemKey
import Zabbix.Expr.KeyQuoting

/-!
# Pieces of item keys

A key is cut into its parameters and what stands between them, as `zbx_substitute_item_key_params`
walks over it.
-/

namespace Zabbix.Expr

open List Option

variable {level' num' : ℤ} {u body : List Char}

inductive Piece
  | delimiter (c : Char)
  | param (level num : ℤ) (isQuoted : Bool) (text : List Char)

inductive Scan
  | new
  | ended
  | unquoted (text : List Char)
  | quoted (text : List Char)

def Scan.text : Scan → List Char
  | .new | .ended => []
  | .unquoted text | .quoted text => text

def scanEnded (level num : ℤ) (c : Char) : Option (Scan × ℤ × ℤ) :=
  if c = ' ' then some (.ended, level, num)
  else if c = ',' then some (.new, level, nextNum level num)
  else if c = ']' ∧ level ≠ 0 then some (.ended, level - 1, num)
  else none

def scanStep (level num : ℤ) (c : Char) : Scan → Option (List Piece × Scan × ℤ × ℤ)
  | .new =>
    if c = ' ' then some ([.delimiter c], .new, level, num)
    else if c = ',' then
      some ([.param level num false [], .delimiter c], .new, level, nextNum level num)
    else if c = '[' then
      if level = 2 then none
      else some ([.delimiter c], .new, level + 1, nextNum (level + 1) num)
    else if c = ']' then
      some ([.param level num false [], .delimiter c], .ended, level - 1, num)
    else if c = '"' then some ([], .quoted [c], level, num)
    else some ([], .unquoted [c], level, num)
  | .ended => (scanEnded level num c).map ([.delimiter c], ·)
  | .unquoted text =>
    if c = ']' ∨ c = ',' then
      (scanEnded level num c).map ([.param level num false text, .delimiter c], ·)
    else some ([], .unquoted (text ++ [c]), level, num)
  | .quoted text =>
    if c = '"' ∧ text.getLast? ≠ some '\\' then
      some ([.param level num true (text ++ [c])], .ended, level, num)
    else some ([], .quoted (text ++ [c]), level, num)

def Scan.finish (level num : ℤ) : Scan → Option (List Piece)
  | .new | .ended => if level = 0 then some [] else none
  | .unquoted text => if level = 0 then some [.param level num false text] else none
  | .quoted text => if level = 0 then some [.param level num true text] else none

def scan : Scan → ℤ → ℤ → List Char → Option (List Piece)
  | s, level, num, [] => s.finish level num
  | s, level, num, c :: rest =>
    (scanStep level num c s).bind fun (pieces, s, level, num) =>
      (scan s level num rest).map (pieces ++ ·)

def Piece.substitute (cb : SubstFunc) : Piece → List Char
  | .delimiter c => [c]
  | .param level num isQuoted text =>
    if level = 0 then text else (cb text level num isQuoted).2.getD text

def Piece.Succeeds (cb : SubstFunc) : Piece → Prop
  | .delimiter _ => True
  | .param level num isQuoted text => level = 0 ∨ (cb text level num isQuoted).1 = true

def substitutePieces (cb : SubstFunc) (pieces : List Piece) : List Char :=
  pieces.flatMap (·.substitute cb)

def Parser.At (p : Parser) (base : List Char) : Scan → Prop
  | .new => p.state = .stateNew
  | .ended => p.state = .stateEnd
  | .unquoted _ => p.state = .stateUnquoted ∧ p.l = base.length
  | .quoted text => p.state = .stateQuoted ∧ p.l = base.length ∧ text ≠ []

structure Parser.Scans (p : Parser) (s : Scan) (base : List Char) : Prop where
  ret : p.ret = true
  front : p.front = base ++ s.text
  state : p.At base s

def Parser.Steps (cb : SubstFunc) (base : List Char) (result : Except Parser Parser) :
    Option (List Piece × Scan × ℤ × ℤ) → Prop
  | none => ∃ p, result = .error p
  | some (pieces, s, level, num) =>
    ((∀ piece ∈ pieces, piece.Succeeds cb) ∧ ∃ p, result = .ok p ∧
      p.Scans s (base ++ substitutePieces cb pieces) ∧ p.level = level ∧ p.num = num) ∨
    ((∃ piece ∈ pieces, ¬ piece.Succeeds cb) ∧
      ((∃ p, result = .ok p ∧ p.ret = false) ∨ ∃ p, result = .error p))

variable {cb : SubstFunc} {p : Parser} {s : Scan} {base text rest : List Char} {c : Char}
  {level num : ℤ} {pieces : List Piece}

theorem substituteItemKey_text (cb : SubstFunc) (hfront : p.front = base ++ text) (isQuoted : Bool) :
    ∃ ret, p.substituteItemKey cb true base.length isQuoted =
        { p with
          front := base ++ (Piece.param p.level p.num isQuoted text).substitute cb
          ret := ret } ∧
      (ret = true ↔ (Piece.param p.level p.num isQuoted text).Succeeds cb) := by
  unfold Parser.substituteItemKey
  by_cases hlevel : p.level = 0
  · refine ⟨true, ?_, iff_of_true rfl (.inl hlevel)⟩
    rw [if_pos ⟨rfl, hlevel⟩, Piece.substitute, if_pos hlevel, ← hfront]
    rfl
  · refine ⟨(cb text p.level p.num isQuoted).1, ?_, (or_iff_right hlevel).symm⟩
    rw [if_neg (fun h => hlevel h.2), Piece.substitute, if_neg hlevel, hfront, drop_left, take_left]
    obtain ⟨ret, param⟩ := cb text p.level p.num isQuoted
    cases param with
    | none => rfl
    | some param => rfl

theorem steps_ok (hret : p.ret = true ↔ ∀ piece ∈ pieces, piece.Succeeds cb)
    (hscans : p.ret = true → p.Scans s (base ++ substitutePieces cb pieces)) :
    Parser.Steps cb base (.ok p) (some (pieces, s, p.level, p.num)) := by
  by_cases hp : p.ret = true
  · exact .inl ⟨hret.mp hp, p, rfl, hscans hp, rfl, rfl⟩
  · refine .inr ⟨?_, .inl ⟨p, rfl, Bool.not_eq_true _ ▸ hp⟩⟩
    by_contra hall
    exact hp (hret.mpr (by simpa using hall))

theorem steps_delimiter (hret : p.ret = true) (hscans : p.Scans s (base ++ [c])) :
    Parser.Steps cb base (.ok p) (some ([.delimiter c], s, p.level, p.num)) := by
  refine steps_ok (iff_of_true hret fun piece hpiece => ?_) fun _ => hscans
  rw [mem_singleton.mp hpiece]
  trivial

theorem succeeds_param_delimiter {piece : Piece} {ret : Bool}
    (hret : ret = true ↔ piece.Succeeds cb) :
    ret = true ↔ ∀ other ∈ [piece, .delimiter c], other.Succeeds cb := by
  rw [hret, forall_mem_cons, forall_mem_singleton]
  exact (and_iff_left trivial).symm

theorem newStep_steps (hp : p.Scans .new base) :
    Parser.Steps cb base (p.newStep cb true c) (scanStep p.level p.num c .new) := by
  obtain ⟨hret, hfront, hstate⟩ := hp
  replace hfront : p.front = base := hfront.trans (append_nil base)
  obtain ⟨ret, hsubstitute, hsucceeds⟩ :=
    substituteItemKey_text cb (hfront.trans (append_nil base).symm) false
  unfold Parser.newStep
  rw [hfront, hsubstitute, scanStep]
  split_ifs with hspace hcomma hopen hlevel hclose hquote
  · refine steps_delimiter (p := p.push c) hret ⟨hret, ?_, hstate⟩
    rw [Parser.push, hfront, Scan.text, append_nil]
  · refine steps_ok (succeeds_param_delimiter hsucceeds) fun hp => ⟨hp, ?_, hstate⟩
    simp [Parser.push, Scan.text, substitutePieces, Piece.substitute]
  · exact ⟨p, rfl⟩
  · refine steps_delimiter (s := .new) (p := ({ p with
      front := base
      level := p.level + 1
      num := nextNum (p.level + 1) p.num } : Parser).push c) hret ⟨hret, ?_, hstate⟩
    rw [Parser.push, Scan.text, append_nil]
  · refine steps_ok (succeeds_param_delimiter hsucceeds) fun hp => ⟨hp, ?_, rfl⟩
    simp [Parser.push, Scan.text, substitutePieces, Piece.substitute]
  · refine steps_ok (iff_of_true hret (forall_mem_nil _)) fun _ => ⟨hret, ?_, rfl, ?_, ?_⟩
    · simp [Parser.push, Scan.text, substitutePieces]
    · simp [Parser.push, substitutePieces]
    · exact cons_ne_nil _ _
  · refine steps_ok (iff_of_true hret (forall_mem_nil _)) fun _ => ⟨hret, ?_, rfl, ?_⟩
    · simp [Parser.push, Scan.text, substitutePieces]
    · simp [Parser.push, substitutePieces]

theorem endStep_steps (hret : p.ret = true) (hstate : p.state = .stateEnd) :
    match scanEnded p.level p.num c with
    | none => ∃ p', p.endStep c = .error p'
    | some (s, level, num) => ∃ p', p.endStep c = .ok p' ∧ p'.Scans s (p.front ++ [c]) ∧
        p'.level = level ∧ p'.num = num := by
  unfold Parser.endStep scanEnded
  by_cases hspace : c = ' '
  · rw [if_pos hspace, if_pos hspace]
    exact ⟨p.push c, rfl, ⟨hret, (append_nil _).symm, hstate⟩, rfl, rfl⟩
  rw [if_neg hspace, if_neg hspace]
  by_cases hcomma : c = ','
  · rw [if_pos hcomma, if_pos hcomma]
    exact ⟨_, rfl, ⟨hret, (append_nil _).symm, rfl⟩, rfl, rfl⟩
  rw [if_neg hcomma, if_neg hcomma]
  by_cases hclose : c = ']'
  · rw [if_pos hclose]
    by_cases hlevel : p.level = 0
    · rw [if_pos hlevel, if_neg (fun h => h.2 hlevel)]
      exact ⟨p, rfl⟩
    · rw [if_neg hlevel, if_pos ⟨hclose, hlevel⟩]
      exact ⟨_, rfl, ⟨hret, (append_nil _).symm, hstate⟩, rfl, rfl⟩
  · rw [if_neg hclose, if_neg (fun h => hclose h.1)]
    exact ⟨p, rfl⟩

theorem unquotedStep_steps (hp : p.Scans (.unquoted text) base) :
    Parser.Steps cb base (p.unquotedStep cb true c)
      (scanStep p.level p.num c (.unquoted text)) := by
  obtain ⟨hret, hfront, hstate, hl⟩ := hp
  obtain ⟨ret, hsubstitute, hsucceeds⟩ := substituteItemKey_text cb hfront false
  unfold Parser.unquotedStep
  rw [hl, hsubstitute, scanStep]
  split_ifs with hlast
  · dsimp only
    by_cases hp : ret = true
    · rw [if_pos hp]
      have hend := endStep_steps (c := c) (p := { p with
        front := base ++ (Piece.param p.level p.num false text).substitute cb
        state := .stateEnd
        ret := ret }) hp rfl
      dsimp only at hend
      cases hscan : scanEnded p.level p.num c with
      | none =>
        rw [hscan] at hend
        exact hend
      | some next =>
        rw [hscan] at hend
        obtain ⟨p', hp', hscans, hlevel, hnum⟩ := hend
        refine .inl ⟨(succeeds_param_delimiter hsucceeds).mp hp, p', hp', ?_, hlevel, hnum⟩
        rw [append_assoc] at hscans
        exact hscans
    · rw [if_neg hp]
      cases hscan : scanEnded p.level p.num c with
      | none => exact ⟨_, rfl⟩
      | some next => exact .inr ⟨⟨_, mem_cons_self, fun h => hp (hsucceeds.mpr h)⟩, .inr ⟨_, rfl⟩⟩
  · refine steps_ok (iff_of_true hret nofun) fun _ => ⟨hret, ?_, hstate, ?_⟩
    · simp [Parser.push, Scan.text, substitutePieces, hfront]
    · simpa [substitutePieces, Parser.push] using hl

theorem quotedStep_steps (hp : p.Scans (.quoted text) base) :
    Parser.Steps cb base (.ok (p.quotedStep cb true c))
      (scanStep p.level p.num c (.quoted text)) := by
  obtain ⟨hret, hfront, hstate, hl, hne⟩ := hp
  have hlast : p.front.getLast? = text.getLast? := by
    rw [hfront, Scan.text, getLast?_append_of_ne_nil _ hne]
  have hpush : (p.push c).front = base ++ (text ++ [c]) := by
    rw [Parser.push, hfront, append_assoc, Scan.text]
  obtain ⟨ret, hsubstitute, hsucceeds⟩ := substituteItemKey_text cb hpush true
  unfold Parser.quotedStep
  rw [hl, hsubstitute, scanStep, hlast]
  split_ifs with hquote
  · refine steps_ok ?_ fun hp => ⟨hp, ?_, rfl⟩
    · rw [forall_mem_singleton]
      exact hsucceeds
    · simp [Parser.push, Scan.text, substitutePieces]
  · refine steps_ok (iff_of_true hret (forall_mem_nil _)) fun _ => ⟨hret, ?_, hstate, ?_, ?_⟩
    · simp [Parser.push, Scan.text, substitutePieces, hfront]
    · simpa [substitutePieces, Parser.push] using hl
    · exact append_ne_nil_of_left_ne_nil hne _

theorem step_steps (cb : SubstFunc) (c : Char) (hp : p.Scans s base) :
    Parser.Steps cb base (p.step cb true c) (scanStep p.level p.num c s) := by
  cases s with
  | new =>
    rw [Parser.step, show p.state = .stateNew from hp.state]
    exact newStep_steps hp
  | ended =>
    have hend := endStep_steps (c := c) hp.ret hp.state
    rw [Parser.step, show p.state = .stateEnd from hp.state, scanStep]
    cases hscan : scanEnded p.level p.num c with
    | none =>
      rw [hscan] at hend
      exact hend
    | some next =>
      rw [hscan, hp.front] at hend
      obtain ⟨p', hp', hscans, hlevel, hnum⟩ := hend
      rw [Scan.text, append_nil] at hscans
      exact .inl ⟨forall_mem_singleton.mpr trivial, p', hp', hscans, hlevel, hnum⟩
  | unquoted text =>
    rw [Parser.step, show p.state = .stateUnquoted from hp.state.1]
    exact unquotedStep_steps hp
  | quoted text =>
    rw [Parser.step, show p.state = .stateQuoted from hp.state.1]
    exact quotedStep_steps hp

theorem finish_pieces (cb : SubstFunc) (hfinish : s.finish 0 num = some pieces) :
    (∀ piece ∈ pieces, piece.Succeeds cb) ∧ substitutePieces cb pieces = s.text := by
  cases s with
  | new | ended =>
    obtain rfl := Option.some.inj hfinish
    exact ⟨nofun, rfl⟩
  | unquoted text | quoted text =>
    obtain rfl := Option.some.inj hfinish
    exact ⟨forall_mem_singleton.mpr (.inl rfl), append_nil text⟩

theorem finish_isSome (s : Scan) (level num : ℤ) : (s.finish level num).isSome = decide (level = 0) := by
  cases s <;> simp only [Scan.finish] <;> split_ifs with h <;> simp [h]

theorem loop_scan (cb : SubstFunc) (text : List Char) (hp : p.Scans s base) (front : List Char) :
    ((p.loop cb true text).1.ret = true ∧ (p.loop cb true text).2 = [] ∧
        (p.loop cb true text).1.level = 0 ∧ (p.loop cb true text).1.front = front) ↔
      ∃ pieces, scan s p.level p.num text = some pieces ∧
        (∀ piece ∈ pieces, piece.Succeeds cb) ∧ front = base ++ substitutePieces cb pieces := by
  induction text generalizing p s base with
  | nil =>
    rw [Parser.loop, scan, hp.front]
    constructor
    · rintro ⟨-, -, hlevel, rfl⟩
      have hsome : (s.finish p.level p.num).isSome := by rw [finish_isSome, decide_eq_true hlevel]
      obtain ⟨pieces, hfinish⟩ := isSome_iff_exists.mp hsome
      rw [hfinish]
      rw [hlevel] at hfinish
      obtain ⟨hsucceeds, htext⟩ := finish_pieces cb hfinish
      exact ⟨pieces, rfl, hsucceeds, by rw [htext]⟩
    · rintro ⟨pieces, hfinish, -, rfl⟩
      have hlevel : p.level = 0 := by
        have hsome := finish_isSome s p.level p.num
        rw [hfinish] at hsome
        exact of_decide_eq_true hsome.symm
      rw [hlevel] at hfinish
      exact ⟨hp.ret, rfl, hlevel, by rw [(finish_pieces cb hfinish).2]⟩
  | cons c rest ih =>
    have hsteps := step_steps cb c hp
    rw [Parser.loop, if_pos hp.ret, scan]
    cases hscan : scanStep p.level p.num c s with
    | none =>
      rw [hscan] at hsteps
      obtain ⟨p', hstep⟩ := hsteps
      rw [hstep]
      exact iff_of_false (fun h => cons_ne_nil _ _ h.2.1) (by simp)
    | some next =>
      obtain ⟨done, s', level', num'⟩ := next
      rw [hscan] at hsteps
      rw [bind_some]
      simp only [map_eq_some_iff]
      obtain ⟨hsucceeds, p', hstep, hscans, rfl, rfl⟩ | ⟨⟨piece, hmem, hfails⟩, hstep⟩ := hsteps
      · rw [hstep]
        refine (ih hscans).trans ?_
        constructor
        · rintro ⟨pieces, hrest, hall, rfl⟩
          refine ⟨_, ⟨pieces, hrest, rfl⟩, forall_mem_append.mpr ⟨hsucceeds, hall⟩, ?_⟩
          rw [substitutePieces, substitutePieces, substitutePieces, flatMap_append, append_assoc]
        · rintro ⟨_, ⟨pieces, hrest, rfl⟩, hall, rfl⟩
          refine ⟨pieces, hrest, (forall_mem_append.mp hall).2, ?_⟩
          rw [substitutePieces, substitutePieces, substitutePieces, flatMap_append, append_assoc]
      · refine iff_of_false ?_ ?_
        · obtain ⟨p', hstep, hret⟩ | ⟨p', hstep⟩ := hstep
          · rw [hstep]
            intro h
            have hstopped : p'.loop cb true rest = (p', rest) := by
              cases rest with
              | nil => rfl
              | cons d rest => rw [Parser.loop, if_neg (by rw [hret]; exact Bool.false_ne_true)]
            dsimp only at h
            rw [hstopped, hret] at h
            exact Bool.false_ne_true h.1
          · rw [hstep]
            exact fun h => cons_ne_nil _ _ h.2.1
        · rintro ⟨_, ⟨pieces, -, rfl⟩, hall, -⟩
          exact hfails (hall piece (mem_append_left _ hmem))

variable {s' : Scan}

theorem scan_cons (h : scanStep level num c s = some (pieces, s', level', num')) (rest : List Char)
    :
    scan s level num (c :: rest) = (scan s' level' num' rest).map (pieces ++ ·) := by
  rw [scan, h]
  rfl

theorem scan_cons_open (h : scanStep level num c s = some ([], s', level', num')) (rest : List Char)
    :
    scan s level num (c :: rest) = scan s' level' num' rest := by
  rw [scan_cons h]
  exact map_id_apply

theorem scan_unquoted_append (h : ∀ c ∈ text, isPlain c = true) (rest : List Char) :
    scan (.unquoted u) level num (text ++ rest) = scan (.unquoted (u ++ text)) level num rest := by
  induction text generalizing u with
  | nil => rw [append_nil, nil_append]
  | cons c text ih =>
    obtain ⟨hc, htext⟩ := forall_mem_cons.mp h
    obtain ⟨hcomma, hclose⟩ := not_sep_of_isPlain hc
    have hstep : scanStep level num c (.unquoted u) = some ([], .unquoted (u ++ [c]), level, num) := by
      rw [scanStep, if_neg (by simp [hcomma, hclose])]
    rw [cons_append, scan_cons_open hstep, ih htext, append_assoc, singleton_append]

theorem scan_plain (h : PlainText text) (hne : text ≠ []) (rest : List Char) :
    scan .new level num (text ++ rest) = scan (.unquoted text) level num rest := by
  cases text with
  | nil => exact absurd rfl hne
  | cons c text =>
    obtain ⟨hc, htext⟩ := forall_mem_cons.mp h.plain
    obtain ⟨hcomma, hclose⟩ := not_sep_of_isPlain hc
    obtain ⟨hspace, hquote, hopen⟩ := h.head c rfl
    have hstep : scanStep level num c .new = some ([], .unquoted [c], level, num) := by
      rw [scanStep, if_neg hspace, if_neg hcomma, if_neg hopen, if_neg hclose, if_neg hquote]
    rw [cons_append, scan_cons_open hstep, scan_unquoted_append htext, singleton_append]

theorem scan_quotable {last : Char} (h : Quotable last body) (hlast : u.getLast? = some last)
    (rest : List Char) :
    scan (.quoted u) level num (body ++ '"' :: rest) =
      (scan .ended level num rest).map (.param level num true (u ++ (body ++ ['"'])) :: ·) := by
  induction body generalizing u last with
  | nil =>
    have hstep : scanStep level num '"' (.quoted u) =
        some ([.param level num true (u ++ ['"'])], .ended, level, num) := by
      rw [scanStep, if_pos]
      refine ⟨rfl, fun hback => h ?_⟩
      rw [hlast] at hback
      exact Option.some.inj hback
    exact scan_cons hstep rest
  | cons c body ih =>
    have hstep : scanStep level num c (.quoted u) = some ([], .quoted (u ++ [c]), level, num) := by
      rw [scanStep, if_neg]
      rintro ⟨hquote, hback⟩
      exact hback (by rw [hlast, h.1 hquote])
    rw [cons_append, scan_cons_open hstep, ih h.2 getLast?_concat, append_assoc,
      singleton_append, cons_append]

theorem scan_quoted (h : Quotable '"' body) (rest : List Char) :
    scan .new level num ('"' :: (body ++ ['"']) ++ rest) =
      (scan .ended level num rest).map (.param level num true ('"' :: (body ++ ['"'])) :: ·) := by
  rw [List.cons_append, List.append_assoc, List.singleton_append,
    scan_cons_open (show scanStep level num '"' .new = some ([], .quoted ['"'], level, num) from rfl)]
  exact scan_quotable h rfl rest

theorem scan_unquoted_sep (hc : c = ',' ∨ c = ']') (rest : List Char) :
    scan (.unquoted u) level num (c :: rest) =
      (scan .ended level num (c :: rest)).map (.param level num false u :: ·) := by
  rw [scan, scan, scanStep, scanStep, if_pos hc.symm]
  cases scanEnded level num c with
  | none => rfl
  | some next =>
    simp only [map_some, bind_some, Option.map_map]
    rfl

theorem scan_new_sep (hlevel : level ≠ 0) (hc : c = ',' ∨ c = ']') (rest : List Char) :
    scan .new level num (c :: rest) =
      (scan .ended level num (c :: rest)).map (.param level num false [] :: ·) := by
  obtain rfl | rfl := hc
  · rw [scan_cons (s := .new) rfl, scan_cons (s := .ended) rfl, Option.map_map]
    rfl
  · have hstep : scanStep level num ']' .ended =
        some ([.delimiter ']'], .ended, level - 1, num) := by
      rw [scanStep, scanEnded, if_neg (by decide), if_neg (by decide), if_pos ⟨rfl, hlevel⟩]
      rfl
    rw [scan_cons (s := .new) rfl, scan_cons hstep, Option.map_map]
    rfl

theorem scan_unquoted_head (h : scan (.unquoted u) level num rest = some pieces) :
    ∃ more pieces', pieces = .param level num false (u ++ more) :: pieces' := by
  induction rest generalizing u with
  | nil =>
    rw [scan, Scan.finish] at h
    split_ifs at h
    exact ⟨[], [], by rw [append_nil, Option.some.inj h]⟩
  | cons c rest ih =>
    by_cases hc : c = ',' ∨ c = ']'
    · rw [scan_unquoted_sep hc] at h
      obtain ⟨pieces', -, rfl⟩ := map_eq_some_iff.mp h
      exact ⟨[], pieces', by rw [append_nil]⟩
    · have hstep : scanStep level num c (.unquoted u) =
          some ([], .unquoted (u ++ [c]), level, num) := by
        rw [scanStep, if_neg (fun h => hc h.symm)]
      rw [scan_cons_open hstep] at h
      obtain ⟨more, pieces', rfl⟩ := ih h
      exact ⟨c :: more, pieces', by rw [append_assoc, singleton_append]⟩

theorem scan_quoteKeyParam {forced : ℕ} {v q : List Char} (h : zbxQuoteKeyParam forced v = some q)
    (num : ℤ) (hlevel : level ≠ 0) (hc : c = ',' ∨ c = ']') (rest : List Char) :
    ∃ isQuoted, scan .new level num (q ++ c :: rest) =
      (scan .ended level num (c :: rest)).map (.param level num isQuoted q :: ·) := by
  obtain ⟨rfl, hplain⟩ | ⟨rfl, hlast⟩ := zbxQuoteKeyParam_cases h
  · refine ⟨false, ?_⟩
    by_cases hne : q = []
    · rw [hne]
      exact scan_new_sep hlevel hc rest
    · rw [scan_plain hplain hne, scan_unquoted_sep hc]
  · exact ⟨true, scan_quoted (quotable_escapeQuotes (fun _ => by decide) hlast) _⟩

end Zabbix.Expr
