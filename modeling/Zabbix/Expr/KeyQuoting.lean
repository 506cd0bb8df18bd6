import Mathlib.Data.List.Forall2
import Zabbix.Expr.ItemGrammar

/-!
# Quoted parameters

What `zbx_quote_key_param` makes of a text is read back by the readers of parameter lists and by
`zbx_unquote_key_param`.
-/

namespace Zabbix.Expr

open List

variable {v q rest : List Char} {forced : ℕ}

theorem charAt_cons (c : Char) (text : List Char) : charAt (c :: text) = c := rfl

theorem escapeQuotes_cons (c : Char) (v : List Char) :
    escapeQuotes (c :: v) = (if c = '"' then ['\\', '"'] else [c]) ++ escapeQuotes v :=
  flatMap_cons

theorem charAt_escapeQuotes (v : List Char) : charAt (escapeQuotes v) ≠ '"' := by
  cases v with
  | nil => decide
  | cons c v =>
    rw [escapeQuotes_cons]
    by_cases hc : c = '"'
    · rw [if_pos hc]
      exact (by decide : '\\' ≠ '"')
    · rw [if_neg hc]
      exact hc

theorem unquoteKeyLoop_cons {c : Char} (h : c ≠ '\\' ∨ charAt rest ≠ '"') :
    unquoteKeyLoop (c :: rest) = c :: unquoteKeyLoop rest := by
  rw [unquoteKeyLoop, if_neg]
  rintro ⟨hc, hrest⟩
  exact h.elim (fun hne => hne hc) (fun hne => hne hrest)

theorem charAt_escapeQuotes_append (hv : v ≠ []) (rest : List Char) :
    charAt (escapeQuotes v ++ rest) ≠ '"' := by
  have hhead := charAt_escapeQuotes v
  obtain ⟨c, v, rfl⟩ := List.exists_cons_of_ne_nil hv
  rw [escapeQuotes_cons] at hhead ⊢
  by_cases hc : c = '"'
  · rw [if_pos hc] at hhead ⊢
    exact hhead
  · rw [if_neg hc] at hhead ⊢
    exact hhead

theorem escapeQuotes_induction {motive : List Char → Prop} (nil : motive [])
    (quote : ∀ v, motive v → motive ('"' :: v))
    (other : ∀ c v, c ≠ '"' → (∀ rest, c ≠ '\\' ∨ charAt (escapeQuotes v ++ rest) ≠ '"') →
      motive v → motive (c :: v))
    (h : v.getLast? ≠ some '\\') : motive v := by
  induction v with
  | nil => exact nil
  | cons c v ih =>
    have hlast : v.getLast? ≠ some '\\' := by
      intro heq
      apply h
      rw [List.getLast?_cons, heq]
      rfl
    by_cases hc : c = '"'
    · rw [hc]
      exact quote v (ih hlast)
    · refine other c v hc (fun rest => ?_) (ih hlast)
      by_cases hback : c = '\\'
      · right
        refine charAt_escapeQuotes_append ?_ rest
        rintro rfl
        exact h (congrArg some hback)
      · exact .inl hback

theorem escapeQuotes_quote (v : List Char) : escapeQuotes ('"' :: v) = '\\' :: '"' :: escapeQuotes v :=
  rfl

theorem escapeQuotes_other {c : Char} (hc : c ≠ '"') (v : List Char) :
    escapeQuotes (c :: v) = c :: escapeQuotes v := by
  rw [escapeQuotes_cons, if_neg hc, List.singleton_append]

theorem unquoteKeyLoop_escapeQuotes (h : v.getLast? ≠ some '\\') (rest : List Char) :
    unquoteKeyLoop (escapeQuotes v ++ rest) = v ++ unquoteKeyLoop rest := by
  refine escapeQuotes_induction
    (motive := fun v => unquoteKeyLoop (escapeQuotes v ++ rest) = v ++ unquoteKeyLoop rest)
    rfl (fun v ih => ?_) (fun c v hc hback ih => ?_) h
  · rw [escapeQuotes_quote, List.cons_append, List.cons_append, unquoteKeyLoop, if_pos ⟨rfl, rfl⟩,
      unquoteKeyLoop_cons (Or.inl (by decide)), ih, List.cons_append]
  · rw [escapeQuotes_other hc, List.cons_append, unquoteKeyLoop_cons (hback rest), ih,
      List.cons_append]

theorem unescape_eq (body : List Char) : unescape body = unquoteKeyLoop body := by
  induction body using unescape.induct with
  | case1 body ih =>
    rw [unescape, unquoteKeyLoop, if_pos ⟨rfl, rfl⟩, unquoteKeyLoop_cons (Or.inl (by decide)), ih]
  | case2 c body hne ih =>
    rw [unescape, unquoteKeyLoop_cons, ih]
    · by_cases hc : c = '\\'
      · right
        intro hquote
        cases body with
        | nil => exact absurd hquote (by decide)
        | cons d body => exact hne body hc (congrArg (· :: body) hquote)
      · exact Or.inl hc
    · exact hne
  | case3 => rfl

theorem quotable_escapeQuotes {last : Char} (hend : v = [] → last ≠ '\\')
    (h : v.getLast? ≠ some '\\') : Quotable last (escapeQuotes v) := by
  induction v generalizing last with
  | nil => exact hend rfl
  | cons c v ih =>
    have hlast : v.getLast? ≠ some '\\' := by
      intro heq
      apply h
      rw [List.getLast?_cons, heq]
      rfl
    rw [escapeQuotes_cons]
    by_cases hc : c = '"'
    · rw [if_pos hc]
      exact ⟨fun h => absurd h (by decide), fun _ => rfl, ih (fun _ => by decide) hlast⟩
    · rw [if_neg hc]
      refine ⟨fun h => absurd h hc, ih ?_ hlast⟩
      rintro rfl rfl
      exact h rfl

variable (h : zbxQuoteKeyParam forced v = some q)

include h

theorem zbxQuoteKeyParam_cases :
    (q = v ∧ PlainText v) ∨ (q = '"' :: (escapeQuotes v ++ ['"']) ∧ v.getLast? ≠ some '\\') := by
  have hplain (hreq : ¬(charAt v = '"' ∨ charAt v = ' ' ∨ charAt v = '[' ∨ ',' ∈ v ∨ ']' ∈ v)) :
      PlainText v := by
    obtain ⟨hquote, hspace, hopen, hcomma, hclose⟩ := by simpa only [not_or] using hreq
    constructor
    · intro c hc
      rw [isPlain, Bool.and_eq_true, decide_eq_true_eq, decide_eq_true_eq]
      exact ⟨fun heq => hcomma (heq ▸ hc), fun heq => hclose (heq ▸ hc)⟩
    · intro c hc
      have hhead : charAt v = c := by
        rw [charAt, List.headD_eq_head?_getD, Option.mem_def.mp hc]
        rfl
      rw [← hhead]
      exact ⟨hspace, hquote, hopen⟩
  unfold zbxQuoteKeyParam at h
  dsimp only at h
  split_ifs at h with hkeep hback hforced
  · exact Or.inl ⟨(Option.some.inj h).symm, hplain hkeep.1⟩
  · exact Or.inl ⟨(Option.some.inj h).symm, hplain hforced.1⟩
  · exact Or.inr ⟨(Option.some.inj h).symm, hback⟩

theorem unquote_of_quote : zbxUnquoteKeyParam q = some v := by
  obtain ⟨rfl, hplain⟩ | ⟨rfl, hlast⟩ := zbxQuoteKeyParam_cases h
  · rw [zbxUnquoteKeyParam, if_pos]
    cases q with
    | nil => decide
    | cons c q => exact (hplain.head c rfl).2.1
  · have hquote : ¬charAt ('"' :: (escapeQuotes v ++ ['"'])) ≠ '"' := not_not.mpr rfl
    rw [zbxUnquoteKeyParam, if_neg hquote, if_neg]
    · rw [tail_cons, unquoteKeyLoop_escapeQuotes hlast]
      exact congrArg some dropLast_concat
    · exact append_ne_nil_of_right_ne_nil _ (cons_ne_nil _ _)

theorem exists_element : ∃ e : Element, e.text = q ∧ e.value = v := by
  obtain ⟨rfl, hplain⟩ | ⟨rfl, hlast⟩ := zbxQuoteKeyParam_cases h
  · exact ⟨.plain 0 q hplain, rfl, rfl⟩
  · refine ⟨.quoted 0 (escapeQuotes v) 0 (quotable_escapeQuotes (fun _ => by decide) hlast), rfl, ?_⟩
    have hread := unquoteKeyLoop_escapeQuotes hlast []
    rw [append_nil] at hread
    rw [Element.value, unescape_eq, hread]
    exact append_nil v

omit h

def Getter.measure (g : Getter) : Measurer := ⟨g.state, g.array, g.idx, g.buf.length⟩

/-- A step that goes well in one buffer goes well in every buffer that what it leaves fits, and
`get_param_len` counts what it adds. -/
structure Bounded (g : Getter) (step : ℕ → Option Getter) (g' : Getter) (measured : Measurer) :
    Prop where
  le : g.buf.length ≤ g'.buf.length
  fits : ∀ m, g'.buf.length ≤ m → step m = some g'
  measure : measured = g'.measure

variable {n m : ℕ} {g g' : Getter} {c : Char}

theorem assign_bounded (h : g.assign n m c = some g') :
    Bounded g (fun m => g.assign n m c) g' (g.measure.count n) := by
  unfold Getter.assign at h
  split_ifs at h with hidx hfull
  · obtain rfl := Option.some.inj h
    have hlength : (g.buf ++ [c]).length = g.buf.length + 1 := length_append
    refine ⟨by dsimp only; omega, fun m hm => ?_, ?_⟩
    · dsimp only at hm
      rw [Getter.assign, if_pos hidx, if_neg (by omega)]
    · rw [Measurer.count, if_pos (show g.measure.idx = n from hidx)]
      unfold Getter.measure
      rw [hlength]
  · obtain rfl := Option.some.inj h
    refine ⟨Nat.le_refl _, fun m _ => ?_, ?_⟩
    · rw [Getter.assign, if_neg hidx]
    · rw [Measurer.count, if_neg (show g.measure.idx ≠ n from hidx)]

theorem assignInArray_bounded (h : g.assignInArray n m c = some g') :
    Bounded g (fun m => g.assignInArray n m c) g' (g.measure.countInArray n) := by
  unfold Getter.assignInArray at h ⊢
  unfold Measurer.countInArray
  by_cases harray : g.array = 0
  · rw [if_pos harray] at h
    obtain rfl := Option.some.inj h
    refine ⟨Nat.le_refl _, fun m _ => if_pos harray, if_pos harray⟩
  · rw [if_neg harray] at h
    rw [if_neg (show g.measure.array ≠ 0 from harray)]
    simp only [if_neg harray]
    exact assign_bounded h

theorem setType_frame (n : ℕ) (g : Getter) (type : ParamType) :
    (g.setType n type).buf = g.buf ∧ (g.setType n type).measure = g.measure := by
  unfold Getter.setType
  split_ifs
  · exact ⟨rfl, rfl⟩
  · exact ⟨rfl, rfl⟩

theorem Bounded.of_frame {g₀ : Getter} {step : ℕ → Option Getter} {measured measured' : Measurer}
    (h : Bounded g step g' measured) (hbuf : g.buf = g₀.buf) (hmeasured : measured = measured') :
    Bounded g₀ step g' measured' :=
  ⟨hbuf ▸ h.le, h.fits, hmeasured ▸ h.measure⟩

theorem init_bounded (h : g.init n m c = some g') :
    Bounded g (fun m => g.init n m c) g' (g.measure.init n c) := by
  unfold Getter.init at h ⊢
  unfold Measurer.init
  by_cases hcomma : c = ','
  · simp only [if_pos hcomma] at h ⊢
    by_cases harray : g.array = 0
    · rw [if_pos harray] at h
      simp only [if_pos harray, if_pos (show g.measure.array = 0 from harray)]
      obtain rfl := Option.some.inj h
      exact ⟨Nat.le_refl _, fun _ _ => rfl, rfl⟩
    · rw [if_neg harray] at h
      simp only [if_neg harray, if_neg (show g.measure.array ≠ 0 from harray)]
      exact (assign_bounded h).of_frame rfl rfl
  simp only [if_neg hcomma] at h ⊢
  by_cases hquote : c = '"'
  · simp only [if_pos hquote] at h ⊢
    obtain ⟨hbuf, hmeasure⟩ := setType_frame n { g with state := .quoted } .string
    exact (assignInArray_bounded h).of_frame hbuf (congrArg (·.countInArray n) hmeasure)
  simp only [if_neg hquote] at h ⊢
  by_cases hopen : c = '['
  · simp only [if_pos hopen] at h ⊢
    obtain ⟨hbuf, hmeasure⟩ := setType_frame n { g with state := .init } .array
    obtain ⟨g₁, hassign, rfl⟩ := Option.map_eq_some_iff.mp h
    have hbounded := assignInArray_bounded hassign
    refine ⟨(congrArg List.length hbuf).symm.trans_le hbounded.le, fun m hm => ?_, ?_⟩
    · rw [hbounded.fits m hm]
      rfl
    · have hmeasured := hbounded.measure
      rw [hmeasure] at hmeasured
      exact congrArg (fun g : Measurer => { g with array := g.array + 1 }) hmeasured
  simp only [if_neg hopen] at h ⊢
  by_cases hclose : c = ']' ∧ g.array ≠ 0
  · rw [if_pos hclose] at h
    simp only [if_pos hclose, if_pos (show c = ']' ∧ g.measure.array ≠ 0 from hclose)]
    exact (assignInArray_bounded h).of_frame rfl rfl
  rw [if_neg hclose] at h
  simp only [if_neg hclose, if_neg (show ¬(c = ']' ∧ g.measure.array ≠ 0) from hclose)]
  by_cases hspace : c = ' '
  · rw [if_pos hspace] at h
    simp only [if_pos hspace]
    obtain rfl := Option.some.inj h
    exact ⟨Nat.le_refl _, fun _ _ => rfl, rfl⟩
  · rw [if_neg hspace] at h
    simp only [if_neg hspace]
    obtain ⟨hbuf, hmeasure⟩ := setType_frame n { g with state := .unquoted } .string
    exact (assign_bounded h).of_frame hbuf (congrArg (·.count n) hmeasure)

theorem quoted_bounded (h : g.quoted n m c = some g') :
    Bounded g (fun m => g.quoted n m c) g' (g.measure.quoted n c) := by
  unfold Getter.quoted at h ⊢
  unfold Measurer.quoted
  by_cases hquote : c = '"'
  · simp only [if_pos hquote] at h ⊢
    exact (assignInArray_bounded h).of_frame rfl rfl
  simp only [if_neg hquote] at h ⊢
  by_cases hback : c = '\\'
  · simp only [if_pos hback] at h ⊢
    obtain rfl := Option.some.inj h
    exact ⟨Nat.le_refl _, fun _ _ => rfl, rfl⟩
  · simp only [if_neg hback] at h ⊢
    exact (assign_bounded h).of_frame rfl rfl

theorem Bounded.andThen {g₁ : Getter} {first : ℕ → Option Getter} {measured measured' : Measurer}
    (second : ℕ → Getter → Option Getter) (hfirst : Bounded g first g₁ measured)
    (hsecond : Bounded g₁ (fun m => second m g₁) g' measured') :
    Bounded g (fun m => (first m).bind (second m)) g' measured' := by
  refine ⟨hfirst.le.trans hsecond.le, fun m hm => ?_, hsecond.measure⟩
  rw [hfirst.fits m (hsecond.le.trans hm), Option.bind_some]
  exact hsecond.fits m hm

theorem step_bounded (h : g.step n m c = some g') :
    ∃ measured, g.measure.step n c = some measured ∧ Bounded g (fun m => g.step n m c) g' measured := by
  unfold Getter.step at h ⊢
  unfold Measurer.step
  cases hstate : g.state with
  | init =>
    simp only [hstate, show g.measure.state = .init from hstate] at h ⊢
    exact ⟨_, rfl, init_bounded h⟩
  | quoted =>
    simp only [hstate, show g.measure.state = .quoted from hstate] at h ⊢
    exact ⟨_, rfl, quoted_bounded h⟩
  | backslash =>
    simp only [hstate, show g.measure.state = .backslash from hstate] at h ⊢
    by_cases hquote : c = '"'
    · simp only [if_pos hquote] at h ⊢
      obtain ⟨g₁, hfirst, hsecond⟩ := Option.bind_eq_some_iff.mp h
      have hbounded := assignInArray_bounded hfirst
      have hbounded' := assign_bounded hsecond
      rw [← hbounded.measure] at hbounded'
      exact ⟨_, rfl, (hbounded.andThen (fun m g => g.assign n m c) hbounded').of_frame rfl rfl⟩
    · simp only [if_neg hquote] at h ⊢
      obtain ⟨g₁, hfirst, hsecond⟩ := Option.bind_eq_some_iff.mp h
      have hbounded := assign_bounded hfirst
      have hbounded' := quoted_bounded hsecond
      rw [← hbounded.measure] at hbounded'
      exact ⟨_, rfl, hbounded.andThen (fun m g => g.quoted n m c) hbounded'⟩
  | quoteClosed | arrayClosed =>
    simp only [hstate, show g.measure.state = _ from hstate] at h ⊢
    by_cases hspace : c = ' '
    · simp only [if_pos hspace] at h ⊢
      obtain rfl := Option.some.inj h
      exact ⟨_, rfl, Nat.le_refl _, fun _ _ => rfl, rfl⟩
    simp only [if_neg hspace] at h ⊢
    by_cases hsep : c = ',' ∨ c = ']' ∧ g.array ≠ 0
    · simp only [if_pos hsep, if_pos (show c = ',' ∨ c = ']' ∧ g.measure.array ≠ 0 from hsep)] at h ⊢
      exact ⟨_, rfl, init_bounded h⟩
    · simp only [if_neg hsep] at h
      cases h
  | unquoted =>
    simp only [hstate, show g.measure.state = .unquoted from hstate] at h ⊢
    by_cases hsep : c = ',' ∨ c = ']' ∧ g.array ≠ 0
    · simp only [if_pos hsep, if_pos (show c = ',' ∨ c = ']' ∧ g.measure.array ≠ 0 from hsep)] at h ⊢
      exact ⟨_, rfl, init_bounded h⟩
    · simp only [if_neg hsep,
        if_neg (show ¬(c = ',' ∨ c = ']' ∧ g.measure.array ≠ 0) from hsep)] at h ⊢
      exact ⟨_, rfl, assign_bounded h⟩

theorem loop_bounded {p : List Char} (h : g.loop n m p = some g') :
    ∃ measured, g.measure.loop n p = some measured ∧
      Bounded g (fun m => g.loop n m p) g' measured := by
  induction p generalizing g with
  | nil =>
    obtain rfl := Option.some.inj h
    exact ⟨_, rfl, Nat.le_refl _, fun _ _ => rfl, rfl⟩
  | cons c p ih =>
    simp only [Getter.loop, Measurer.loop] at h ⊢
    by_cases hbehind : n < g.idx
    · simp only [if_pos hbehind, if_pos (show n < g.measure.idx from hbehind)] at h ⊢
      obtain rfl := Option.some.inj h
      exact ⟨_, rfl, Nat.le_refl _, fun _ _ => rfl, rfl⟩
    · simp only [if_neg hbehind, if_neg (show ¬n < g.measure.idx from hbehind)] at h ⊢
      obtain ⟨g₁, hstep, hloop⟩ := Option.bind_eq_some_iff.mp h
      obtain ⟨measured₁, hmeasured, hbounded⟩ := step_bounded hstep
      obtain ⟨measured, hmeasured', hbounded'⟩ := ih hloop
      rw [← hbounded.measure] at hmeasured'
      rw [hmeasured, Option.bind_some, hmeasured']
      exact ⟨_, rfl, hbounded.andThen (fun m g => g.loop n m p) hbounded'⟩

theorem zbxGetParam_bounded {maxLen : ℕ} {p text : List Char} {type : ParamType}
    (h : zbxGetParam n maxLen p = some (text, type)) : getParamLen n p = some text.length ∧
      ∀ maxLen, text.length < maxLen → zbxGetParam n maxLen p = some (text, type) := by
  unfold zbxGetParam at h
  split_ifs at h
  obtain ⟨g, hloop, hfinish⟩ := Option.bind_eq_some_iff.mp h
  obtain ⟨measured, hmeasured, hbounded⟩ := loop_bounded hloop
  obtain rfl := hbounded.measure
  unfold Getter.finish at hfinish
  split_ifs at hfinish with hend
  obtain ⟨rfl, rfl⟩ := Prod.mk.inj (Option.some.inj hfinish)
  constructor
  · have hlen : Measurer.loop n ⟨.init, 0, 1, 0⟩ p = some g.measure := hmeasured
    rw [getParamLen, hlen, Option.bind_some]
    exact if_neg hend
  · intro maxLen hroom
    have hagain := hbounded.fits (maxLen - 1) (by omega)
    rw [zbxGetParam, if_neg (by omega), hagain, Option.bind_some, Getter.finish, if_neg hend]

theorem exists_params {strings quoted : List (List Char)} (hne : strings ≠ [])
    (h : List.Forall₂ (fun s q => ∃ forced, zbxQuoteKeyParam forced s = some q) strings quoted) :
    ∃ p ps, [','].intercalate quoted = paramsText p ps ∧ (p :: ps).map ItemParam.value = strings := by
  induction h with
  | nil => exact absurd rfl hne
  | @cons s q strings quoted hquote hquotes ih =>
    obtain ⟨forced, hquote⟩ := hquote
    obtain ⟨e, rfl, rfl⟩ := exists_element hquote
    cases hquotes with
    | nil =>
      refine ⟨.element e, [], ?_, rfl⟩
      rw [List.intercalate_singleton]
      exact (List.append_nil _).symm
    | cons hnext hrest =>
      obtain ⟨p, ps, htext, hvalues⟩ := ih (List.cons_ne_nil _ _)
      refine ⟨.element e, p :: ps, ?_, congrArg (e.value :: ·) hvalues⟩
      rw [List.intercalate_cons_cons, htext]
      rw [paramsText, paramsText, moreParams_cons, ItemParam.text]
      exact List.append_assoc _ _ _

/-- Quoted texts joined with commas are a list of as many parameters; each is read back with room
for it and by `zbx_get_param_dyn`, and unquoted to itself. -/
theorem quotedParams_roundTrip {strings quoted : List (List Char)} (hne : strings ≠ [])
    (h : List.Forall₂ (fun s q => ∃ forced, zbxQuoteKeyParam forced s = some q) strings quoted) :
    zbxNumParam ([','].intercalate quoted) = strings.length ∧
      (∀ i s, strings[i]? = some s → ∀ maxLen, s.length < maxLen →
        (zbxGetParam (i + 1) maxLen ([','].intercalate quoted)).map Prod.fst = some s) ∧
      (∀ i s, strings[i]? = some s →
        (zbxGetParamDyn (i + 1) ([','].intercalate quoted)).map Prod.fst = some s) ∧
      List.Forall₂ (fun s q => zbxUnquoteKeyParam q = some s) strings quoted := by
  obtain ⟨p, ps, htext, hvalues⟩ := exists_params hne h
  rw [htext]
  have hread (i : ℕ) (s : List Char) (hs : strings[i]? = some s) : ∃ type,
      getParamLen (i + 1) (paramsText p ps) = some s.length ∧ ∀ maxLen, s.length < maxLen →
        zbxGetParam (i + 1) maxLen (paramsText p ps) = some (s, type) := by
    have hget := zbxGetParam_params p ps i _ (Nat.lt_succ_self (paramsText p ps).length)
    rw [← List.getElem?_map, hvalues, hs] at hget
    obtain ⟨⟨text, type⟩, hfound, rfl⟩ := Option.map_eq_some_iff.mp hget
    exact ⟨type, zbxGetParam_bounded hfound⟩
  refine ⟨?_, ?_, ?_, ?_⟩
  · rw [zbxNumParam_params, ← hvalues, List.length_map]
  · intro i s hs maxLen hroom
    obtain ⟨type, -, hfound⟩ := hread i s hs
    rw [hfound maxLen hroom]
    rfl
  · intro i s hs
    obtain ⟨type, hlen, hfound⟩ := hread i s hs
    rw [zbxGetParamDyn, hlen, Option.bind_some, hfound _ (Nat.lt_succ_self _)]
    rfl
  · exact h.imp fun s q ⟨forced, hquote⟩ => unquote_of_quote hquote

theorem quotedParams_roundTrip_comma :
    zbxNumParam ([','].intercalate [['a'], ['"', 'b', ',', '"']]) = 2 ∧
      (∀ i s, [['a'], ['b', ',']][i]? = some s → ∀ maxLen, s.length < maxLen →
        (zbxGetParam (i + 1) maxLen ([','].intercalate [['a'], ['"', 'b', ',', '"']])).map Prod.fst =
          some s) ∧
      (∀ i s, [['a'], ['b', ',']][i]? = some s →
        (zbxGetParamDyn (i + 1) ([','].intercalate [['a'], ['"', 'b', ',', '"']])).map Prod.fst =
          some s) ∧
      List.Forall₂ (fun s q => zbxUnquoteKeyParam q = some s) [['a'], ['b', ',']]
        [['a'], ['"', 'b', ',', '"']] :=
  quotedParams_roundTrip (cons_ne_nil _ _)
    (.cons ⟨0, by decide⟩ (.cons ⟨0, by decide⟩ .nil))

end Zabbix.Expr
