import Zabbix.Expr.KeyScan

/-!
# Substituted parameters

With quoted values in place of parameters a key is cut into the same pieces, but for a quoted
parameter with a space behind it that gets a value without quotes.
-/

namespace Zabbix.Expr

open Option List

variable {cb : SubstFunc} {s : Scan} {text rest : List Char} {c : Char} {level num : ℤ}
  {pieces : List Piece}
variable {level' num' : ℤ} {text' key : List Char} {forced : ℕ}

def QuotesValues (cb : SubstFunc) (values : List Char → ℤ → ℤ → Bool → List Char) : Prop :=
  ∀ text level num isQuoted param, (cb text level num isQuoted).2 = some param →
    ∃ forced, zbxQuoteKeyParam forced (values text level num isQuoted) = some param

def Piece.Becomes (cb : SubstFunc) (values : List Char → ℤ → ℤ → Bool → List Char) :
    Piece → Piece → Prop
  | .delimiter c, piece => piece = .delimiter c
  | .param level num isQuoted text, piece =>
    if level = 0 ∨ (cb text level num isQuoted).2 = none then
      piece = .param level num isQuoted text
    else ∃ isQuoted' text', piece = .param level num isQuoted' text' ∧
      zbxUnquoteKeyParam text' = some (values text level num isQuoted)

def Piece.notSpace : Piece → Bool
  | .delimiter c => c ≠ ' '
  | .param .. => true

def structureFrom (s : Scan) (level num : ℤ) (text : List Char) : Option (List Piece) :=
  (scan s level num text).map (·.filter Piece.notSpace)

def Piece.LosesQuotes (cb : SubstFunc) : Piece → Prop
  | .param level num true text => level ≠ 0 ∧
      ∃ param, (cb text level num true).2 = some param ∧ param ≠ [] ∧ charAt param ≠ '"'
  | _ => False

def SwallowsSpace (cb : SubstFunc) (pieces : List Piece) : Prop :=
  ∃ before piece after, pieces = before ++ piece :: .delimiter ' ' :: after ∧ piece.LosesQuotes cb

variable {values : List Char → ℤ → ℤ → Bool → List Char} {piece piece' : Piece}

theorem swallowsSpace_cons : SwallowsSpace cb (piece :: pieces) ↔
    (piece.LosesQuotes cb ∧ ∃ after, pieces = .delimiter ' ' :: after) ∨
      SwallowsSpace cb pieces := by
  constructor
  · rintro ⟨before, other, after, heq, hloses⟩
    cases before with
    | nil =>
      obtain ⟨rfl, rfl⟩ := List.cons.inj heq
      exact .inl ⟨hloses, after, rfl⟩
    | cons first before =>
      obtain ⟨-, rfl⟩ := List.cons.inj heq
      exact .inr ⟨before, other, after, rfl, hloses⟩
  · rintro (⟨hloses, after, rfl⟩ | ⟨before, other, after, rfl, hloses⟩)
    · exact ⟨[], piece, after, rfl, hloses⟩
    · exact ⟨piece :: before, other, after, rfl, hloses⟩

theorem swallowsSpace_cons_of_not (h : ¬ piece.LosesQuotes cb) :
    SwallowsSpace cb (piece :: pieces) ↔ SwallowsSpace cb pieces :=
  swallowsSpace_cons.trans (or_iff_right fun h' => h h'.1)

theorem becomes_self (h : match piece with
    | .delimiter _ => True
    | .param level num isQuoted text => level = 0 ∨ (cb text level num isQuoted).2 = none) :
    piece.Becomes cb values piece := by
  cases piece with
  | delimiter c => rfl
  | param level num isQuoted text => exact (if_pos h).mpr rfl

def Keeps (cb : SubstFunc) (values : List Char → ℤ → ℤ → Bool → List Char) (s : Scan)
    (level num : ℤ) (pieces : List Piece) (text : List Char) : Prop :=
  ∃ pieces', structureFrom s level num text = some pieces' ∧
    List.Forall₂ (Piece.Becomes cb values) (pieces.filter Piece.notSpace) pieces'

variable {s' : Scan}

theorem keeps_cons (h : structureFrom s level num text =
      (structureFrom s' level' num' text').map (piece' :: ·)) (hpiece : piece.notSpace = true)
    (hbecomes : piece.Becomes cb values piece') :
    Keeps cb values s level num (piece :: pieces) text ↔
      Keeps cb values s' level' num' pieces text' := by
  unfold Keeps
  rw [h, List.filter_cons_of_pos hpiece]
  constructor
  · rintro ⟨_, heq, hforall⟩
    obtain ⟨pieces', hrest, rfl⟩ := Option.map_eq_some_iff.mp heq
    exact ⟨pieces', hrest, (List.forall₂_cons.mp hforall).2⟩
  · rintro ⟨pieces', hrest, hforall⟩
    exact ⟨piece' :: pieces', by rw [hrest]; rfl, .cons hbecomes hforall⟩

theorem structureFrom_map (h : scan s level num text = (scan s' level' num' text').map (piece :: ·))
    (hpiece : piece.notSpace = true) :
    structureFrom s level num text = (structureFrom s' level' num' text').map (piece :: ·) := by
  rw [structureFrom, structureFrom, h, Option.map_map, Option.map_map]
  exact congrArg (Option.map · _) (funext fun pieces => List.filter_cons_of_pos hpiece)

theorem keeps_delimiter (h : scanStep level num c s = some ([.delimiter c], s', level', num')) :
    Keeps cb values s level num (.delimiter c :: pieces) (c :: text) ↔
      Keeps cb values s' level' num' pieces text := by
  have hscan := scan_cons h text
  by_cases hc : c = ' '
  · have hspace : (Piece.delimiter c).notSpace ≠ true := by
      rw [hc]
      decide
    unfold Keeps
    rw [List.filter_cons_of_neg hspace, structureFrom, structureFrom, hscan, Option.map_map]
    rw [show (List.filter Piece.notSpace ∘ ([Piece.delimiter c] ++ ·)) =
      List.filter Piece.notSpace from funext fun pieces => List.filter_cons_of_neg hspace]
  · have hdelimiter : (Piece.delimiter c).notSpace = true := decide_eq_true hc
    exact keeps_cons (structureFrom_map hscan hdelimiter) hdelimiter rfl

theorem substitute_cases (hcb : QuotesValues cb values) (level num : ℤ) (isQuoted : Bool)
    (text : List Char) :
    ((level = 0 ∨ (cb text level num isQuoted).2 = none) ∧
      (Piece.param level num isQuoted text).substitute cb = text) ∨
    (level ≠ 0 ∧ ∃ param, (cb text level num isQuoted).2 = some param ∧
      (Piece.param level num isQuoted text).substitute cb = param ∧
      ∃ forced, zbxQuoteKeyParam forced (values text level num isQuoted) = some param) := by
  by_cases hlevel : level = 0
  · exact .inl ⟨.inl hlevel, if_pos hlevel⟩
  cases hparam : (cb text level num isQuoted).2 with
  | none =>
    refine .inl ⟨.inr rfl, ?_⟩
    rw [Piece.substitute, if_neg hlevel, hparam]
    rfl
  | some param =>
    refine .inr ⟨hlevel, param, rfl, ?_, hcb _ _ _ _ _ hparam⟩
    rw [Piece.substitute, if_neg hlevel, hparam]
    rfl

theorem becomes_param {param : List Char} {isQuoted : Bool} (isQuoted' : Bool) (hlevel : level ≠ 0)
    (hparam : (cb text level num isQuoted).2 = some param)
    (hquote : zbxQuoteKeyParam forced (values text level num isQuoted) = some param) :
    (Piece.param level num isQuoted text).Becomes cb values
      (.param level num isQuoted' param) := by
  rw [Piece.Becomes, if_neg]
  · exact ⟨isQuoted', param, rfl, unquote_of_quote hquote⟩
  · rw [hparam]
    exact not_or_intro hlevel (Option.some_ne_none _)

theorem keeps_param (hcb : QuotesValues cb values) (hc : c = ',' ∨ c = ']')
    (hended : level ≠ 0 → scanEnded level num c = some (s', level', num'))
    (hkeep : ∀ rest, scan .new level num (text ++ c :: rest) =
      (scan s' level' num' rest).map ([.param level num false text, .delimiter c] ++ ·)) :
    Keeps cb values .new level num (.param level num false text :: .delimiter c :: pieces)
        ((Piece.param level num false text).substitute cb ++ c :: rest) ↔
      Keeps cb values s' level' num' pieces rest := by
  have hspace : (Piece.delimiter c).notSpace = true := by
    obtain rfl | rfl := hc
    · rfl
    · rfl
  obtain ⟨hsame, hsubstitute⟩ | ⟨hlevel, param, hparam, hsubstitute, forced, hquote⟩ :=
    substitute_cases hcb level num false text
  · rw [hsubstitute]
    have hscan : structureFrom .new level num (text ++ c :: rest) =
        ((structureFrom s' level' num' rest).map (Piece.delimiter c :: ·)).map
          (Piece.param level num false text :: ·) := by
      rw [structureFrom, structureFrom, hkeep, Option.map_map, Option.map_map, Option.map_map]
      exact congrArg (Option.map · _) (funext fun pieces =>
        (List.filter_cons_of_pos rfl).trans
          (congrArg (Piece.param level num false text :: ·) (List.filter_cons_of_pos hspace)))
    unfold Keeps
    rw [hscan, List.filter_cons_of_pos rfl, List.filter_cons_of_pos hspace]
    constructor
    · rintro ⟨_, heq, hforall⟩
      obtain ⟨_, hinner, rfl⟩ := Option.map_eq_some_iff.mp heq
      obtain ⟨pieces', hrest, rfl⟩ := Option.map_eq_some_iff.mp hinner
      exact ⟨pieces', hrest, (List.forall₂_cons.mp (List.forall₂_cons.mp hforall).2).2⟩
    · rintro ⟨pieces', hrest, hforall⟩
      exact ⟨_, by rw [hrest]; rfl, .cons (becomes_self hsame) (.cons rfl hforall)⟩
  · obtain ⟨isQuoted, hscan⟩ := scan_quoteKeyParam hquote num hlevel hc rest
    have hstep : scanStep level num c .ended = some ([.delimiter c], s', level', num') := by
      rw [scanStep, hended hlevel]
      rfl
    rw [hsubstitute]
    refine (keeps_cons (structureFrom_map hscan rfl) rfl
      (becomes_param isQuoted hlevel hparam hquote)).trans ?_
    exact keeps_delimiter hstep

theorem structureFrom_empty (hlevel : level ≠ 0)
    (hscan : scan .ended level num rest = some pieces) :
    structureFrom .new level num (substitutePieces cb pieces) =
      (structureFrom .ended level num (substitutePieces cb pieces)).map
        (.param level num false [] :: ·) := by
  induction rest generalizing pieces with
  | nil =>
    rw [scan, Scan.finish, if_neg hlevel] at hscan
    cases hscan
  | cons c rest ih =>
    by_cases hspace : c = ' '
    · subst hspace
      rw [scan_cons (s := .ended) rfl] at hscan
      obtain ⟨pieces', hrest, rfl⟩ := Option.map_eq_some_iff.mp hscan
      have hdrop (s : Scan) (h : scanStep level num ' ' s = some ([.delimiter ' '], s, level, num)) :
          structureFrom s level num (substitutePieces cb ([.delimiter ' '] ++ pieces')) =
            structureFrom s level num (substitutePieces cb pieces') := by
        rw [structureFrom, structureFrom]
        change (scan s level num (' ' :: substitutePieces cb pieces')).map _ = _
        rw [scan_cons h, Option.map_map]
        rfl
      rw [hdrop .new rfl, hdrop .ended rfl]
      exact ih hrest
    · cases hended : scanEnded level num c with
      | none =>
        rw [scan, scanStep, hended] at hscan
        cases hscan
      | some next =>
        have hc : c = ',' ∨ c = ']' := by
          unfold scanEnded at hended
          rw [if_neg hspace] at hended
          split_ifs at hended with hcomma hclose
          · exact .inl hcomma
          · exact .inr hclose.1
        rw [scan, scanStep, hended] at hscan
        obtain ⟨pieces', hrest, rfl⟩ := Option.map_eq_some_iff.mp hscan
        exact structureFrom_map (scan_new_sep hlevel hc _) rfl

theorem ended_cases (hlevel : level ≠ 0) (hscan : scan .ended level num rest = some pieces) :
    ∃ c pieces', pieces = .delimiter c :: pieces' ∧ (c = ' ' ∨ c = ',' ∨ c = ']') := by
  cases rest with
  | nil =>
    rw [scan, Scan.finish, if_neg hlevel] at hscan
    cases hscan
  | cons c rest =>
    cases hended : scanEnded level num c with
    | none =>
      rw [scan, scanStep, hended] at hscan
      cases hscan
    | some next =>
      rw [scan, scanStep, hended] at hscan
      obtain ⟨pieces', -, rfl⟩ := Option.map_eq_some_iff.mp hscan
      refine ⟨c, pieces', rfl, ?_⟩
      unfold scanEnded at hended
      split_ifs at hended with hspace hcomma hclose
      · exact .inl hspace
      · exact .inr (.inl hcomma)
      · exact .inr (.inr hclose.1)

theorem not_keeps_swallowed {param : List Char} (hlevel : level ≠ 0)
    (hparam : (cb text level num true).2 = some param)
    (hquote : zbxQuoteKeyParam forced (values text level num true) = some param)
    (hplain : PlainText param) (hne : param ≠ []) (hhead : charAt param ≠ '"') :
    ¬ Keeps cb values .new level num (.param level num true text :: pieces)
      (param ++ ' ' :: rest) := by
  rintro ⟨pieces', hstructure, hforall⟩
  obtain ⟨all, hscan, rfl⟩ := map_eq_some_iff.mp hstructure
  have hstep : scanStep level num ' ' (.unquoted param) =
      some ([], .unquoted (param ++ [' ']), level, num) := rfl
  rw [scan_plain hplain hne, scan_cons_open hstep] at hscan
  obtain ⟨more, others, rfl⟩ := scan_unquoted_head hscan
  rw [filter_cons_of_pos rfl, filter_cons_of_pos rfl] at hforall
  have hbecomes := (forall₂_cons.mp hforall).1
  rw [Piece.Becomes, if_neg (by rw [hparam]; exact not_or_intro hlevel (some_ne_none _))]
    at hbecomes
  obtain ⟨isQuoted, text', heq, hunquote⟩ := hbecomes
  obtain ⟨-, -, -, rfl⟩ := Piece.param.inj heq
  have hread := unquote_of_quote hquote
  have hsame : charAt (param ++ [' '] ++ more) = charAt param := by
    cases param with
    | nil => exact absurd rfl hne
    | cons c param => rfl
  rw [zbxUnquoteKeyParam, if_pos hhead] at hread
  rw [zbxUnquoteKeyParam, hsame, if_pos hhead, ← hread] at hunquote
  have hlength := congrArg List.length (Option.some.inj hunquote)
  simp only [length_append, length_singleton] at hlength
  omega

theorem keeps_quoted (hcb : QuotesValues cb values)
    (hkeep : ∀ rest, scan .new level num (text ++ rest) =
      (scan .ended level num rest).map (.param level num true text :: ·))
    (hscan : scan .ended level num rest = some pieces)
    (ih : Keeps cb values .ended level num pieces (substitutePieces cb pieces) ↔
      ¬ SwallowsSpace cb pieces) :
    Keeps cb values .new level num (.param level num true text :: pieces)
        ((Piece.param level num true text).substitute cb ++ substitutePieces cb pieces) ↔
      ¬ SwallowsSpace cb (.param level num true text :: pieces) := by
  have hof (hloses : ¬ (Piece.param level num true text).LosesQuotes cb) {param : List Char}
      {isQuoted : Bool} (hstructure : structureFrom .new level num
          (param ++ substitutePieces cb pieces) =
        (structureFrom .ended level num (substitutePieces cb pieces)).map
          (.param level num isQuoted param :: ·))
      (hbecomes : (Piece.param level num true text).Becomes cb values
        (.param level num isQuoted param)) :
      Keeps cb values .new level num (.param level num true text :: pieces)
          (param ++ substitutePieces cb pieces) ↔
        ¬ SwallowsSpace cb (.param level num true text :: pieces) := by
    rw [keeps_cons hstructure rfl hbecomes, ih, swallowsSpace_cons_of_not hloses]
  obtain ⟨hsame, hsubstitute⟩ | ⟨hlevel, param, hparam, hsubstitute, forced, hquote⟩ :=
    substitute_cases hcb level num true text
  · rw [hsubstitute]
    refine hof ?_ (structureFrom_map (hkeep _) rfl) (becomes_self hsame)
    rintro ⟨hlevel, param, hparam, -⟩
    obtain hzero | hnone := hsame
    · exact hlevel hzero
    · rw [hnone] at hparam
      cases hparam
  rw [hsubstitute]
  have hbecomes (isQuoted : Bool) := becomes_param isQuoted hlevel hparam hquote
  have hloses : (Piece.param level num true text).LosesQuotes cb ↔
      param ≠ [] ∧ charAt param ≠ '"' := by
    constructor
    · rintro ⟨-, param', hparam', h⟩
      rw [hparam] at hparam'
      rwa [Option.some.inj hparam']
    · exact fun h => ⟨hlevel, param, hparam, h⟩
  obtain ⟨hvalue, hplain⟩ | ⟨hvalue, hlast⟩ := zbxQuoteKeyParam_cases hquote
  · by_cases hne : param = []
    · refine hof (fun h => (hloses.mp h).1 hne) ?_ (hbecomes false)
      rw [hne]
      exact structureFrom_empty hlevel hscan
    rw [← hvalue] at hplain
    have hhead : charAt param ≠ '"' := by
      cases param with
      | nil => exact absurd rfl hne
      | cons c param => exact (hplain.head c rfl).2.1
    obtain ⟨c, pieces', rfl, hspace | hc⟩ := ended_cases hlevel hscan
    · refine iff_of_false ?_ (not_not.mpr ?_)
      · rw [hspace]
        exact not_keeps_swallowed hlevel hparam hquote hplain hne hhead
      · refine swallowsSpace_cons.mpr (.inl ⟨hloses.mpr ⟨hne, hhead⟩, pieces', ?_⟩)
        rw [hspace]
    · have hstructure : structureFrom .new level num
          (param ++ substitutePieces cb (.delimiter c :: pieces')) = _ :=
        structureFrom_map
          ((scan_plain hplain hne _).trans (scan_unquoted_sep hc (substitutePieces cb pieces'))) rfl
      have hother : ¬ ∃ after, Piece.delimiter c :: pieces' = .delimiter ' ' :: after := by
        rintro ⟨after, heq⟩
        obtain rfl := Piece.delimiter.inj (List.cons.inj heq).1
        exact absurd hc (by decide)
      rw [keeps_cons hstructure rfl (hbecomes false), swallowsSpace_cons]
      exact ih.trans (not_congr (or_iff_right fun h => hother h.2).symm)
  · refine hof (fun h => (hloses.mp h).2 ?_) ?_ (hbecomes true)
    · rw [hvalue]
      rfl
    · refine structureFrom_map ?_ rfl
      rw [hvalue]
      exact scan_quoted (quotable_escapeQuotes (fun _ => by decide) hlast) _

def Scan.start : Scan → Scan
  | .new | .unquoted _ | .quoted _ => .new
  | .ended => .ended

theorem keeps_finish (hfinish : s.finish level num = some pieces)
    (hpending : scan s.start level num s.text = scan s level num []) :
    Keeps cb values s.start level num pieces (substitutePieces cb pieces) ↔
      ¬ SwallowsSpace cb pieces := by
  have hlevel : level = 0 := by
    have hsome := finish_isSome s level num
    rw [hfinish] at hsome
    exact of_decide_eq_true hsome.symm
  subst hlevel
  refine iff_of_true ⟨pieces.filter Piece.notSpace, ?_, ?_⟩ ?_
  · rw [(finish_pieces cb hfinish).2, structureFrom, hpending, scan, hfinish]
    rfl
  · cases s with
    | new | ended =>
      obtain rfl := Option.some.inj hfinish
      exact .nil
    | unquoted text | quoted text =>
      obtain rfl := Option.some.inj hfinish
      exact .cons (becomes_self (.inl rfl)) .nil
  · rintro ⟨before, piece, after, rfl, -⟩
    have hlength : (before ++ piece :: .delimiter ' ' :: after).length ≤ 1 := by
      cases s with
      | new | ended =>
        rw [← Option.some.inj hfinish]
        exact Nat.zero_le _
      | unquoted text | quoted text =>
        rw [← Option.some.inj hfinish]
        exact Nat.le_refl _
    simp only [length_append, length_cons] at hlength
    omega

theorem scanEnded_start (h : scanEnded level num c = some (s', level', num')) :
    s'.start = s' ∧ s'.text = [] := by
  unfold scanEnded at h
  split_ifs at h <;> cases h <;> exact ⟨rfl, rfl⟩

theorem scanStep_cases (h : scanStep level num c s = some (pieces, s', level', num')) :
    (pieces = [.delimiter c] ∧ s.start = s ∧ s'.start = s' ∧ s'.text = []) ∨
    (pieces = [.param level num false s.text, .delimiter c] ∧ (c = ',' ∨ c = ']') ∧
      s.start = .new ∧ (level ≠ 0 → scanEnded level num c = some (s', level', num')) ∧
      s'.start = s' ∧ s'.text = []) ∨
    (pieces = [.param level num true (s.text ++ [c])] ∧ s.start = .new ∧ s' = .ended ∧
      level' = level ∧ num' = num) ∨
    (pieces = [] ∧ s.start = .new ∧ s'.start = .new ∧ s'.text = s.text ++ [c] ∧
      level' = level ∧ num' = num) := by
  cases s with
  | new =>
    rw [scanStep] at h
    split_ifs at h with hspace hcomma hopen hlevel hclose hquote <;> cases h
    · exact .inl ⟨rfl, rfl, rfl, rfl⟩
    · subst hcomma
      exact .inr (.inl ⟨rfl, .inl rfl, rfl, fun _ => rfl, rfl, rfl⟩)
    · exact .inl ⟨rfl, rfl, rfl, rfl⟩
    · subst hclose
      refine .inr (.inl ⟨rfl, .inr rfl, rfl, fun hlevel => ?_, rfl, rfl⟩)
      rw [scanEnded, if_neg (by decide), if_neg (by decide), if_pos ⟨rfl, hlevel⟩]
    · exact .inr (.inr (.inr ⟨rfl, rfl, rfl, rfl, rfl, rfl⟩))
    · exact .inr (.inr (.inr ⟨rfl, rfl, rfl, rfl, rfl, rfl⟩))
  | ended =>
    obtain ⟨next, hended, heq⟩ := map_eq_some_iff.mp h
    cases heq
    obtain ⟨hstart, htext⟩ := scanEnded_start hended
    exact .inl ⟨rfl, rfl, hstart, htext⟩
  | unquoted text =>
    rw [scanStep] at h
    split_ifs at h with hc
    · obtain ⟨next, hended, heq⟩ := map_eq_some_iff.mp h
      cases heq
      obtain ⟨hstart, htext⟩ := scanEnded_start hended
      exact .inr (.inl ⟨rfl, hc.symm, rfl, fun _ => hended, hstart, htext⟩)
    · cases h
      exact .inr (.inr (.inr ⟨rfl, rfl, rfl, rfl, rfl, rfl⟩))
  | quoted text =>
    rw [scanStep] at h
    split_ifs at h <;> cases h
    · exact .inr (.inr (.inl ⟨rfl, rfl, rfl, rfl, rfl⟩))
    · exact .inr (.inr (.inr ⟨rfl, rfl, rfl, rfl, rfl, rfl⟩))

/-- Pieces with quoted forms as parameters are found again, but where a space is swallowed. The
invariant: the open parameter was scanned from its start. -/
theorem keeps_iff (hcb : QuotesValues cb values) (hscan : scan s level num rest = some pieces)
    (hpending : ∀ more, scan s.start level num (s.text ++ more) = scan s level num more) :
    Keeps cb values s.start level num pieces (substitutePieces cb pieces) ↔
      ¬ SwallowsSpace cb pieces := by
  induction rest generalizing s level num pieces with
  | nil => exact keeps_finish hscan (by rw [← hpending, append_nil])
  | cons c rest ih =>
    cases hstep : scanStep level num c s with
    | none =>
      rw [scan, hstep] at hscan
      cases hscan
    | some next =>
      obtain ⟨done, s', level', num'⟩ := next
      rw [scan_cons hstep] at hscan
      obtain ⟨pieces', hrest, rfl⟩ := map_eq_some_iff.mp hscan
      have hpending' (more : List Char) : scan s.start level num (s.text ++ c :: more) =
          (scan s' level' num' more).map (done ++ ·) := by rw [hpending, scan_cons hstep]
      obtain ⟨rfl, hstart, hstart', htext'⟩ | ⟨rfl, hc, hstart, hended, hstart', htext'⟩ |
        ⟨rfl, hstart, rfl, rfl, rfl⟩ | ⟨rfl, hstart, hstart', htext', rfl, rfl⟩ :=
          scanStep_cases hstep
      · have hih := ih hrest (by rw [htext', hstart']; exact fun _ => rfl)
        rw [hstart'] at hih
        rw [hstart]
        refine (keeps_delimiter hstep).trans (hih.trans (not_congr ?_))
        exact (swallowsSpace_cons_of_not id).symm
      · have hih := ih hrest (by rw [htext', hstart']; exact fun _ => rfl)
        rw [hstart'] at hih
        rw [hstart] at hpending' ⊢
        refine (keeps_param hcb hc hended hpending').trans (hih.trans (not_congr ?_))
        exact ((swallowsSpace_cons_of_not id).trans (swallowsSpace_cons_of_not id)).symm
      · rw [hstart] at hpending' ⊢
        refine keeps_quoted hcb (fun more => ?_) hrest (ih hrest fun _ => rfl)
        rw [append_assoc]
        exact hpending' more
      · have hih := ih hrest fun more => by
          rw [hstart', htext', append_assoc, ← hstart]
          exact (hpending' more).trans map_id_apply
        rw [hstart'] at hih
        rw [hstart]
        exact hih

def keyPieces (s : List Char) : List Piece :=
  (scan .new 0 0 (s.dropWhile zbxIsKeyChar)).getD []

def keyStructure (s : List Char) : List Piece := (keyPieces s).filter Piece.notSpace

def HasParams (s : List Char) : Prop :=
  s.takeWhile zbxIsKeyChar ≠ [] ∧ ∀ c ∈ (s.dropWhile zbxIsKeyChar).head?, c = '['

theorem start_scans (name : List Char) : (Parser.start name).Scans .new name :=
  ⟨rfl, (append_nil name).symm, rfl⟩

theorem substitute_eq_of_hasParams (h : HasParams key) :
    zbxSubstituteItemKeyParams cb key =
      ((Parser.start (key.takeWhile zbxIsKeyChar)).loop cb true
        (key.dropWhile zbxIsKeyChar)).1.finish
      ((Parser.start (key.takeWhile zbxIsKeyChar)).loop cb true
        (key.dropWhile zbxIsKeyChar)).2 := by
  obtain ⟨hname, hhead⟩ := h
  unfold zbxSubstituteItemKeyParams
  dsimp only
  have hfront : (Parser.start (key.takeWhile zbxIsKeyChar)).front ≠ [] := hname
  split
  · rw [if_neg hfront]
    rfl
  · rw [if_neg hfront]
    rfl
  · next hnil hopen =>
    cases hrest : key.dropWhile zbxIsKeyChar with
    | nil => exact absurd hrest hnil
    | cons c rest =>
      rw [hrest] at hhead
      obtain rfl := hhead c rfl
      exact absurd hrest (hopen rest)

theorem hasParams_of_ret (h : (zbxSubstituteItemKeyParams cb key).ret = true) : HasParams key := by
  unfold zbxSubstituteItemKeyParams at h
  dsimp only at h
  split at h
  · next hrest =>
    split_ifs at h with hname
    · exact absurd hname ((finish_ret _ _).mp h).1
    · exact ⟨hname, by rw [hrest]; nofun⟩
  · next params hrest =>
    split_ifs at h with hname
    · exact absurd hname ((finish_ret _ _).mp h).1
    · refine ⟨hname, fun c hc => ?_⟩
      rw [hrest] at hc
      exact (Option.some.inj hc).symm
  · next hnil hopen => exact absurd ((finish_ret _ _).mp h).2.1 hnil

theorem substitute_iff (h : HasParams key) (data : List Char) :
    ((zbxSubstituteItemKeyParams cb key).ret = true ∧
        (zbxSubstituteItemKeyParams cb key).data = data) ↔
      ∃ pieces, scan .new 0 0 (key.dropWhile zbxIsKeyChar) = some pieces ∧
        (∀ piece ∈ pieces, piece.Succeeds cb) ∧
          data = key.takeWhile zbxIsKeyChar ++ substitutePieces cb pieces := by
  have hloop := loop_scan cb (key.dropWhile zbxIsKeyChar)
    (start_scans (key.takeWhile zbxIsKeyChar)) data
  rw [substitute_eq_of_hasParams h, finish_ret, finish_data]
  refine Iff.trans ?_ hloop
  constructor
  · rintro ⟨⟨-, hrest, hlevel, hret⟩, rfl⟩
    exact ⟨hret, hrest, hlevel, by rw [hrest, append_nil]⟩
  · intro hall
    obtain ⟨pieces, -, -, hdata⟩ := hloop.mp hall
    obtain ⟨hret, hrest, hlevel, rfl⟩ := hall
    refine ⟨⟨fun hnil => ?_, hrest, hlevel, hret⟩, by rw [hrest, append_nil]⟩
    rw [hnil] at hdata
    exact h.1 (append_eq_nil_iff.mp hdata.symm).1

/-- The key is accepted again, with the same parameters but for the replaced ones, and those
unquote to their values. -/
structure KeepsParams (cb : SubstFunc) (values : List Char → ℤ → ℤ → Bool → List Char)
    (key result : List Char) : Prop where
  accepted : (zbxSubstituteItemKeyParams keepParam result).ret = true
  name : result.takeWhile zbxIsKeyChar = key.takeWhile zbxIsKeyChar
  params : List.Forall₂ (Piece.Becomes cb values) (keyStructure key) (keyStructure result)

theorem span_result (cb : SubstFunc) {name rest : List Char} (hname : ∀ c ∈ name, zbxIsKeyChar c = true)
    (hhead : ∀ c ∈ rest.head?, c = '[') (hscan : scan .new 0 0 rest = some pieces) :
    (name ++ substitutePieces cb pieces).takeWhile zbxIsKeyChar = name ∧
      (name ++ substitutePieces cb pieces).dropWhile zbxIsKeyChar = substitutePieces cb pieces ∧
      ∀ c ∈ (substitutePieces cb pieces).head?, c = '[' := by
  cases rest with
  | nil =>
    obtain rfl := Option.some.inj hscan
    refine ⟨?_, ?_, nofun⟩
    · rw [takeWhile_append_of_pos hname]
      exact append_nil name
    · rw [dropWhile_append_of_pos hname]
      rfl
  | cons c rest =>
    obtain rfl := hhead c rfl
    rw [scan_cons (s := .new) rfl] at hscan
    obtain ⟨pieces', -, rfl⟩ := map_eq_some_iff.mp hscan
    obtain ⟨htake, hdrop⟩ := @span_name name (substitutePieces cb pieces') hname
    exact ⟨htake, hdrop, fun c hc => (Option.some.inj hc).symm⟩

/-- An accepted key with quoted forms in place of parameters keeps its parameters if and only if
no quoted parameter with a space behind it gets a text without quotes. -/
theorem substitute_keepsParams {key : List Char} (hcb : QuotesValues cb values)
    (haccepted : (zbxSubstituteItemKeyParams cb key).ret = true) :
    KeepsParams cb values key (zbxSubstituteItemKeyParams cb key).data ↔
      ¬ SwallowsSpace cb (keyPieces key) := by
  have hkey := hasParams_of_ret haccepted
  obtain ⟨pieces, hscan, -, hdata⟩ := (substitute_iff hkey _).mp ⟨haccepted, rfl⟩
  have hpieces : keyPieces key = pieces := by
    rw [keyPieces, hscan]
    rfl
  obtain ⟨htake, hdrop, hhead⟩ := span_result cb
    (List.all_eq_true.mp all_takeWhile) hkey.2 hscan
  have hstructure : structureFrom .new 0 0 (substitutePieces cb pieces) =
      (scan .new 0 0 (substitutePieces cb pieces)).map (·.filter Piece.notSpace) := rfl
  rw [hdata, hpieces, ← keeps_iff hcb hscan fun _ => rfl]
  constructor
  · intro h
    have hresult := hasParams_of_ret h.accepted
    obtain ⟨pieces', hscan', -, -⟩ := (substitute_iff hresult _).mp ⟨h.accepted, rfl⟩
    rw [hdrop] at hscan'
    refine ⟨pieces'.filter Piece.notSpace, by rw [Scan.start, hstructure, hscan']; rfl, ?_⟩
    have hparams := h.params
    rwa [keyStructure, keyStructure, hpieces, keyPieces, hdrop, hscan'] at hparams
  · rintro ⟨structure', heq, hforall⟩
    rw [Scan.start, hstructure] at heq
    obtain ⟨pieces', hscan', rfl⟩ := map_eq_some_iff.mp heq
    have hresult : HasParams (key.takeWhile zbxIsKeyChar ++ substitutePieces cb pieces) :=
      ⟨by rw [htake]; exact hkey.1, by rw [hdrop]; exact hhead⟩
    refine ⟨((substitute_iff hresult _).mpr ⟨pieces', by rw [hdrop]; exact hscan', ?_, rfl⟩).1,
      htake, ?_⟩
    · rintro (c | ⟨level, num, isQuoted, text⟩) -
      · trivial
      · exact .inr rfl
    · rw [keyStructure, keyStructure, hpieces, keyPieces, hdrop, hscan']
      exact hforall

def quoteValue (forced : ℕ) (value : List Char) : SubstFunc := fun _ _ _ _ =>
  (true, zbxQuoteKeyParam forced value)

theorem quotesValues_quoteValue (forced : ℕ) (value : List Char) :
    QuotesValues (quoteValue forced value) fun _ _ _ _ => value :=
  fun _ _ _ _ _ h => ⟨forced, h⟩

theorem substitute_keepsParams_comma :
    KeepsParams (quoteValue 0 ['b', ',', 'c']) (fun _ _ _ _ => ['b', ',', 'c'])
        ['k', '[', 'a', ']']
        (zbxSubstituteItemKeyParams (quoteValue 0 ['b', ',', 'c']) ['k', '[', 'a', ']']).data ↔
      ¬ SwallowsSpace (quoteValue 0 ['b', ',', 'c']) (keyPieces ['k', '[', 'a', ']']) :=
  substitute_keepsParams (quotesValues_quoteValue _ _) (by decide)

/-- A value that ends with a backslash is not put into quotes, and then the space belongs to it. -/
theorem substitute_swallows_space :
    QuotesValues (quoteValue 1 ['a', '\\']) (fun _ _ _ _ => ['a', '\\']) ∧
      (zbxSubstituteItemKeyParams (quoteValue 1 ['a', '\\'])
        ['k', '[', '"', 'x', '"', ' ', ']']).ret = true ∧
      ¬ KeepsParams (quoteValue 1 ['a', '\\']) (fun _ _ _ _ => ['a', '\\'])
        ['k', '[', '"', 'x', '"', ' ', ']']
        (zbxSubstituteItemKeyParams (quoteValue 1 ['a', '\\'])
          ['k', '[', '"', 'x', '"', ' ', ']']).data := by
  refine ⟨quotesValues_quoteValue _ _, by decide, fun h => ?_⟩
  have hparams := h.params
  have hresult : (zbxSubstituteItemKeyParams (quoteValue 1 ['a', '\\'])
      ['k', '[', '"', 'x', '"', ' ', ']']).data = ['k', '[', 'a', '\\', ' ', ']'] := by decide
  rw [hresult] at hparams
  have hkey : keyStructure ['k', '[', '"', 'x', '"', ' ', ']'] =
      [.delimiter '[', .param 1 1 true ['"', 'x', '"'], .delimiter ']'] := rfl
  have hstructure : keyStructure ['k', '[', 'a', '\\', ' ', ']'] =
      [.delimiter '[', .param 1 1 false ['a', '\\', ' '], .delimiter ']'] := rfl
  rw [hkey, hstructure] at hparams
  obtain ⟨isQuoted, text, heq, hunquote⟩ := (forall₂_cons.mp (forall₂_cons.mp hparams).2).1
  obtain ⟨-, -, -, rfl⟩ := Piece.param.inj heq
  revert hunquote
  decide

end Zabbix.Expr
