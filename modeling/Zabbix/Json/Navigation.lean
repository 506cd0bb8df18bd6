import Zabbix.Json.Names

/-!
# Going through a JSON text

`__zbx_json_rbracket`, `zbx_json_next` and `zbx_json_pair_next` keep track of strings, escapes
and brackets by themselves.
-/

namespace Zabbix.Json

open Option List Zabbix.Expr Zabbix.JsonGrammar Computability

variable {jp : JsonParse} {object' : Bool} {q : Option (List Char)} {size : ℕ}

def zbxJsonObjectIsEmpty (jp : JsonParse) : Bool := !decide (jp.start.length - jp.last.length > 1)

def countLoop (jp : JsonParse) : ℕ → Option (List Char) → ℕ → ℕ
  | 0, _, num => num
  | fuel + 1, p, num =>
    match zbxJsonNext jp p with
    | none => num
    | some p => countLoop jp fuel (some p) (num + 1)

def zbxJsonCount (jp : JsonParse) : ℕ := countLoop jp (jp.start.length + 1) none 0

def isPlain (c : Char) : Bool := c ∉ ['"', '[', '\x7b', ']', '\x7d', ',']

structure Skipper (stop base : ℕ) (F : ℕ → Bool → List Char → Option (List Char)) : Prop
    extends Scanner stop base F where
  plain : ∀ level c p, stop ≤ p.length → isPlain c → F level false (c :: p) = F level false p

theorem isPlain_ne {c : Char} (hc : isPlain c) :
    c ≠ '"' ∧ c ≠ '[' ∧ c ≠ '\x7b' ∧ c ≠ ']' ∧ c ≠ '\x7d' ∧ c ≠ ',' := by
  simpa [isPlain] using hc

theorem skipper_nextScan (stop : ℕ) : Skipper stop 0 (nextScan stop) where
  toScanner := scanner_nextScan stop
  plain level c p h hc := by
    rw [nextScan.eq_def]
    simp [show ¬p.length + 1 < stop by omega, isPlain_ne hc]

theorem skipper_rbracketScan (rbracket : Char) : Skipper 0 1 (rbracketScan rbracket) where
  toScanner := scanner_rbracketScan rbracket
  plain level c p _ hc := by
    rw [rbracketScan.eq_def]
    simp [isPlain_ne hc]

variable {G V : Language Char} {w rest p : List Char} {n : ℕ}

theorem isPlain_of {q : Char → Bool}
    (hq : ['"', '[', '\x7b', ']', '\x7d', ','].all (fun d => !q d) = true) {c : Char} (hc : q c) :
    isPlain c := by
  apply decide_eq_true
  intro hmem
  have hnot := List.all_eq_true.mp hq c hmem
  rw [hc] at hnot
  contradiction

theorem number_le_plain (hG : G ≤ digits) : number (pairedSurrogates G) ≤ (oneOf isPlain)∗ := by
  have hdigit : ∀ c, isDigit c → isPlain c := fun c hc => isPlain_of (by decide) hc
  apply number_le
  · intro c hc
    obtain hc | hc := hc
    · exact hdigit c hc
    · have hplain : ['-', '+', '.', 'e', 'E'].all isPlain = true := by decide
      exact List.all_eq_true.mp hplain c hc
  · intro w hw
    apply mem_kstar_oneOf.mpr
    intro c hc
    exact hdigit c (mem_kstar_oneOf.mp (hG hw) c hc)

theorem plain_ws (hw : w ∈ ws) : ∀ c ∈ w, isPlain c := by
  intro c hc
  exact isPlain_of (by decide) (mem_kstar_oneOf.mp hw c hc)

section Skipping

variable {stop base level : ℕ} {F : ℕ → Bool → List Char → Option (List Char)}

variable (hF : Skipper stop base F)

include hF

theorem Skipper.plains (hw : ∀ c ∈ w, isPlain c) (hrest : stop ≤ rest.length)
    : F level false (w ++ rest) = F level false rest := by
  induction w with
  | nil => rfl
  | cons c w ih =>
    obtain ⟨hc, hw⟩ := List.forall_mem_cons.mp hw
    refine (hF.plain level c (w ++ rest) ?_ hc).trans (ih hw)
    rw [List.length_append]
    omega

theorem Skipper.insides (hw : ∀ c ∈ w, c ≠ '"' ∧ c ≠ '\\') (hrest : stop ≤ rest.length)
    : F level true (w ++ rest) = F level true rest := by
  induction w with
  | nil => rfl
  | cons c w ih =>
    obtain ⟨⟨hquote, hslash⟩, hw⟩ := forall_mem_cons.mp hw
    refine (hF.inside level c (w ++ rest) ?_ hquote hslash).trans (ih hw)
    rw [length_append]
    omega

theorem Skipper.hex4 (hw : w ∈ hex4) (hrest : stop ≤ rest.length) :
    F level true (w ++ rest) = F level true rest := by
  apply hF.insides ?_ hrest
  have hhex : ∀ d, isHex d → d ≠ '"' ∧ d ≠ '\\' := by
    intro d hd
    have hquote : ¬ isHex '"' := by decide
    have hslash : ¬ isHex '\\' := by decide
    exact ⟨fun h => hquote (h ▸ hd), fun h => hslash (h ▸ hd)⟩
  obtain ⟨a, b, c, d, ha, hb, hc, hd, rfl⟩ := mem_hex4.mp hw
  intro x hx
  simp only [mem_cons, not_mem_nil, or_false] at hx
  obtain rfl | rfl | rfl | rfl := hx
  · exact hhex _ ha
  · exact hhex _ hb
  · exact hhex _ hc
  · exact hhex _ hd

theorem Skipper.char (hw : w ∈ char (pairedSurrogates G)) (hrest : stop ≤ rest.length)
    : F level true (w ++ rest) = F level true rest := by
  obtain ⟨c, hc, rfl⟩ | ⟨_, rfl, _, ⟨e, he, rfl⟩ | ⟨_, rfl, code, hcode, rfl⟩, rfl⟩ := hw
  · obtain ⟨-, hquote, hslash⟩ := isUnescaped_iff.mp hc
    exact hF.inside level c rest hrest hquote hslash
  · exact hF.escape level e rest hrest
  · have hlong : stop ≤ (code ++ rest).length := by
      rw [length_append]
      omega
    refine (hF.escape level 'u' (code ++ rest) hlong).trans ?_
    obtain ⟨hhex, -⟩ | ⟨_, ⟨_, ⟨high, ⟨hhigh, -⟩, _, rfl, rfl⟩, _, rfl, rfl⟩, low, ⟨hlow, -⟩, rfl⟩ :=
      hcode
    · exact hF.hex4 hhex hrest
    · have hlong : stop ≤ ('\\' :: 'u' :: (low ++ rest)).length := by
        rw [length_cons, length_cons, length_append]
        omega
      have htext : high ++ ['\\'] ++ ['u'] ++ low ++ rest = high ++ '\\' :: 'u' :: (low ++ rest) := by
        simp
      rw [htext, hF.hex4 hhigh hlong]
      refine (hF.escape level 'u' (low ++ rest) ?_).trans (hF.hex4 hlow hrest)
      rw [length_append]
      omega

theorem Skipper.token {chars : List (List Char)}
    (hchars : ∀ x ∈ chars, x ∈ JsonGrammar.char (pairedSurrogates G)) (hrest : stop ≤ rest.length) :
    F level false ('"' :: (chars.flatten ++ ['"']) ++ rest) = F level false rest := by
  have hinside : F level true (chars.flatten ++ '"' :: rest) = F level true ('"' :: rest) := by
    induction chars with
    | nil => rfl
    | cons x chars ih =>
      obtain ⟨hx, hchars⟩ := forall_mem_cons.mp hchars
      rw [flatten_cons, append_assoc, hF.char hx ?_, ih hchars]
      rw [length_append, length_cons]
      omega
  have htext : '"' :: (chars.flatten ++ ['"']) ++ rest = '"' :: (chars.flatten ++ '"' :: rest) := by
    simp
  rw [htext, hF.quote level false _ ?_]
  · exact hinside.trans (hF.quote level true rest hrest)
  · rw [length_append, length_cons]
    omega

omit hF

def Skips (stop base : ℕ) (F : ℕ → Bool → List Char → Option (List Char)) (V : Language Char) :
    Prop :=
  ∀ w ∈ V, ∀ level rest, base ≤ level → stop ≤ rest.length →
    F level false (w ++ rest) = F level false rest

variable {object : Bool} {e : Element} {elements : List Element} {c : Container}

variable (hF : Skipper stop base F)

include hF

theorem Skipper.front (he : e.Formed G V object) (hrest : stop ≤ rest.length)
    : F level false (e.front ++ rest) = F level false rest := by
  cases hname : e.name with
  | none => rw [Element.front, hname, Option.elim, nil_append]
  | some m =>
    have hm := he.name m hname
    have htext : e.front ++ rest = m.token ++ (m.before ++ ':' :: (m.behind ++ rest)) := by
      simp [Element.front, hname, Name.text]
    have hbehind : stop ≤ (m.behind ++ rest).length := by
      rw [length_append]
      omega
    have hbefore : stop ≤ (m.before ++ ':' :: (m.behind ++ rest)).length := by
      rw [length_append, length_cons]
      omega
    rw [htext, Name.token, hF.token hm.chars hbefore, hF.plains (plain_ws hm.before) ?_]
    · refine (hF.plain level ':' (m.behind ++ rest) hbehind (by decide)).trans ?_
      exact hF.plains (plain_ws hm.behind) hrest
    · rw [length_cons]
      omega

variable (hV : Skips stop base F V)

include hV

theorem Skipper.element (he : e.Formed G V object) (hlevel : base ≤ level)
    (hrest : stop ≤ rest.length) :
    F level false (e.text ++ rest) = F level false rest := by
  have htrail : stop ≤ (e.trail ++ rest).length := by
    rw [length_append]
    omega
  have hvalue : stop ≤ (e.value ++ (e.trail ++ rest)).length := by
    rw [length_append]
    omega
  have hfront : stop ≤ (e.front ++ (e.value ++ (e.trail ++ rest))).length := by
    rw [length_append]
    omega
  have htext : e.text ++ rest = e.lead ++ (e.front ++ (e.value ++ (e.trail ++ rest))) := by
    simp only [Element.text, append_assoc]
  rw [htext, hF.plains (plain_ws he.lead) hfront, hF.front he hvalue,
    hV e.value he.value level _ hlevel htrail, hF.plains (plain_ws he.trail) hrest]

theorem Skipper.moreText (helements : ∀ e ∈ elements, Element.Formed G V object e)
    (hlevel : base ≤ level + 1) (hrest : stop ≤ rest.length) :
    F (level + 1) false (moreText elements ++ rest) = F (level + 1) false rest := by
  induction elements with
  | nil => rfl
  | cons e elements ih =>
    obtain ⟨he, helements⟩ := forall_mem_cons.mp helements
    have hmore : stop ≤ (Json.moreText elements ++ rest).length := by
      rw [length_append]
      omega
    have hlong : stop ≤ (e.text ++ (Json.moreText elements ++ rest)).length := by
      rw [length_append]
      omega
    have htext : Json.moreText (e :: elements) ++ rest =
        ',' :: (e.text ++ (Json.moreText elements ++ rest)) := by
      rw [moreText_cons, elementsText, cons_append, append_assoc]
    rw [htext, hF.comma level _ hlong, hF.element hV he hlevel hmore, ih helements]

theorem Skipper.bracket (hc : c.Formed G V) (hlevel : base ≤ level + 1)
    (hrest : stop ≤ (closeText c.object ++ rest).length) :
    F level false (c.text ++ rest) = F (level + 1) false (closeText c.object ++ rest) := by
  have hbody : stop ≤ (elementsText c.elements ++ (closeText c.object ++ rest)).length := by
    rw [length_append]
    omega
  have hpad : stop ≤ (c.pad ++ (elementsText c.elements ++ (closeText c.object ++ rest))).length := by
    rw [length_append]
    omega
  have htext : c.text ++ rest = openText c.object ++
      (c.pad ++ (elementsText c.elements ++ (closeText c.object ++ rest))) := by
    simp only [Container.text, append_assoc]
  rw [htext, hF.opens level c.object _ hpad, hF.plains (plain_ws hc.pad) hbody]
  cases helements : c.elements with
  | nil => rfl
  | cons e elements =>
    have hformed := hc.elements
    rw [helements] at hformed
    obtain ⟨he, hmore⟩ := forall_mem_cons.mp hformed
    rw [elementsText, append_assoc, hF.element hV he hlevel ?_, hF.moreText hV hmore hlevel hrest]
    rw [length_append]
    omega

omit hV

theorem Skipper.value (hG : G ≤ digits) (n : ℕ) :
    Skips stop base F (value (pairedSurrogates G) n) := by
  induction n with
  | zero => exact fun w hw => absurd hw (Language.notMem_zero w)
  | succ n ih =>
    intro w hw level rest hlevel hrest
    obtain ((hstring | hnumber) | hliteral) | hcontainer := hw
    · obtain ⟨chars, hchars, rfl⟩ := mem_string_iff.mp hstring
      exact hF.token hchars hrest
    · exact hF.plains (mem_kstar_oneOf.mp (number_le_plain hG hnumber)) hrest
    · have hplain : ∀ v ∈ literals, ∀ c ∈ v, isPlain c := by
        intro v hv
        obtain rfl | rfl | rfl := hv <;> exact List.all_eq_true.mp (by decide)
      exact hF.plains (hplain w hliteral) hrest
    · obtain ⟨c, hc, rfl⟩ := mem_container_iff.mp hcontainer
      have hlong : stop ≤ (closeText c.object ++ rest).length := by
        rw [length_append]
        omega
      rw [hF.bracket ih hc (Nat.le_succ_of_le hlevel) hlong]
      exact hF.closes level c.object rest hlevel hrest

omit hF

end Skipping

def Container.opened (c : Container) (rest : List Char) : JsonParse where
  start := c.text ++ rest
  last := closeText c.object ++ rest

def elementStarts (ending : List Char) : List Element → List (List Char)
  | [] => []
  | e :: more =>
    (e.front ++ (e.value ++ (e.trail ++ (moreText more ++ ending)))) :: elementStarts ending more

inductive Visits (jp : JsonParse) : Option (List Char) → List (List Char) → Prop
  | stop {p : Option (List Char)} (h : zbxJsonNext jp p = none) : Visits jp p []
  | next {p : Option (List Char)} {q : List Char} {visited : List (List Char)}
      (h : zbxJsonNext jp p = some q) (hrest : Visits jp (some q) visited) : Visits jp p (q :: visited)

variable {object : Bool} {e : Element} {more elements : List Element} {c : Container}
  {ending : List Char}

theorem zbxJsonRbracket_container (hG : G ≤ digits) (hc : c.Formed G (value (pairedSurrogates G) n))
    (rest : List Char) :
    zbxJsonRbracket (c.text ++ rest) = some (closeText c.object ++ rest) := by
  have hskip := skipper_rbracketScan (if c.object then '\x7d' else ']')
  have hscan : rbracketScan (if c.object then '\x7d' else ']') 0 false (c.text ++ rest) =
      rbracketScan (if c.object then '\x7d' else ']') 1 false (closeText c.object ++ rest) :=
    hskip.bracket (hskip.value hG n) hc (Nat.le_refl 1) (Nat.zero_le _)
  have hclose : rbracketScan (if c.object then '\x7d' else ']') 1 false (closeText c.object ++ rest) =
      some (closeText c.object ++ rest) := by
    rw [rbracketScan.eq_def]
    cases c.object <;> simp [closeText]
  have hchar : charAt (c.text ++ rest) = if c.object then '\x7b' else '[' := by
    rw [Container.text, append_assoc, append_assoc]
    exact charAt_openText c.object _
  rw [zbxJsonRbracket, hchar]
  cases hobject : c.object with
  | false | true =>
    rw [hobject] at hscan hclose
    exact hscan.trans hclose

theorem charAt_front (he : e.Formed G (value (pairedSurrogates G) n) object) (rest : List Char) :
    isWs (charAt (e.front ++ (e.value ++ rest))) = false := by
  cases hname : e.name with
  | none =>
    rw [Element.front, hname]
    exact (opens_value n e.value he.value rest).1
  | some m =>
    rw [Element.front, hname]
    rfl

theorem skipWhitespace_elements (he : e.Formed G (value (pairedSurrogates G) n) object)
    (more : List Element) (ending : List Char) :
    skipWhitespace (elementsText (e :: more) ++ ending) =
      e.front ++ (e.value ++ (e.trail ++ (moreText more ++ ending))) := by
  have htext : elementsText (e :: more) ++ ending =
      e.lead ++ (e.front ++ (e.value ++ (e.trail ++ (moreText more ++ ending)))) := by
    simp only [elementsText, Element.text, append_assoc]
  rw [htext, skipWhitespace_append he.lead (charAt_front he _)]

theorem nextScan_close (object : Bool) (rest : List Char) :
    nextScan (closeText object ++ rest).length 0 false (closeText object ++ rest) = none := by
  rw [nextScan.eq_def]
  cases object <;> simp [closeText]

variable (hG : G ≤ digits)

include hG

theorem nextScan_value (he : e.Formed G (value (pairedSurrogates G) n) object)
    (hmore : ∀ x ∈ more, Element.Formed G (value (pairedSurrogates G) n) object x) (object' : Bool)
    (rest : List Char) :
    nextScan (closeText object' ++ rest).length 0 false
        (e.value ++ (e.trail ++ (moreText more ++ (closeText object' ++ rest)))) =
      (elementStarts (closeText object' ++ rest) more).head? := by
  have hskip := skipper_nextScan (closeText object' ++ rest).length
  have hending : (closeText object' ++ rest).length ≤
      (moreText more ++ (closeText object' ++ rest)).length := by
    simp only [length_append]
    omega
  have htrail : (closeText object' ++ rest).length ≤
      (e.trail ++ (moreText more ++ (closeText object' ++ rest))).length := by
    simp only [length_append]
    omega
  rw [hskip.value hG n e.value he.value 0 _ (Nat.zero_le 0) htrail,
    hskip.plains (plain_ws he.trail) hending]
  cases more with
  | nil => exact nextScan_close object' rest
  | cons e' more =>
    have he' := hmore e' mem_cons_self
    have hlong : ¬ (',' :: (elementsText (e' :: more) ++ (closeText object' ++ rest))).length <
        (closeText object' ++ rest).length := by
      rw [length_cons, length_append]
      omega
    rw [moreText_cons, cons_append, nextScan.eq_def]
    simp only [if_neg hlong]
    rw [if_neg (by decide), if_neg (by decide), if_neg (by decide), if_neg (by decide),
      if_pos (by decide), skipWhitespace_elements he' more]
    rfl

variable (hlong : jp.start.length - jp.last.length ≠ 1)

include hlong

theorem zbxJsonNext_value {rest : List Char} (hlast : jp.last = closeText object' ++ rest)
    (he : e.Formed G (value (pairedSurrogates G) n) object)
    (hmore : ∀ x ∈ more, Element.Formed G (value (pairedSurrogates G) n) object x) :
    zbxJsonNext jp (some (e.value ++ (e.trail ++ (moreText more ++ jp.last)))) =
      (elementStarts jp.last more).head? := by
  rw [zbxJsonNext, if_neg hlong, hlast]
  exact nextScan_value hG he hmore object' rest

theorem zbxJsonNext_front {rest : List Char} (hlast : jp.last = closeText object' ++ rest)
    (he : e.Formed G (value (pairedSurrogates G) n) object)
    (hmore : ∀ x ∈ more, Element.Formed G (value (pairedSurrogates G) n) object x) :
    zbxJsonNext jp (some (e.front ++ (e.value ++ (e.trail ++ (moreText more ++ jp.last))))) =
      (elementStarts jp.last more).head? := by
  have hvalue : jp.last.length ≤ (e.value ++ (e.trail ++ (moreText more ++ jp.last))).length := by
    simp only [length_append]
    omega
  rw [zbxJsonNext, if_neg hlong]
  refine ((skipper_nextScan jp.last.length).front he hvalue).trans ?_
  rw [hlast]
  exact nextScan_value hG he hmore object' rest

theorem visits_elements {rest : List Char} (hlast : jp.last = closeText object' ++ rest)
    (helements : ∀ x ∈ elements, Element.Formed G (value (pairedSurrogates G) n) object x)
    {p : Option (List Char)} (hp : zbxJsonNext jp p = (elementStarts jp.last elements).head?) :
    Visits jp p (elementStarts jp.last elements) := by
  induction elements generalizing p with
  | nil => exact .stop hp
  | cons e elements ih =>
    obtain ⟨he, hmore⟩ := forall_mem_cons.mp helements
    exact .next hp (ih hmore (zbxJsonNext_front hG hlong hlast he hmore))

omit hlong

omit hG

theorem opened_length (c : Container) (rest : List Char) :
    (c.opened rest).start.length - (c.opened rest).last.length =
      1 + c.pad.length + (elementsText c.elements).length := by
  have hopen : (openText c.object).length = 1 := by cases c.object <;> rfl
  simp only [Container.opened, Container.text, length_append, hopen]
  omega

theorem length_elementsText (he : e.Formed G (value (pairedSurrogates G) n) object)
    (more : List Element) : 0 < (elementsText (e :: more)).length := by
  have hvalue : e.value ≠ [] := by
    intro hnil
    have hopens := opens_value n e.value he.value [']']
    rw [hnil] at hopens
    exact hopens.2 rfl
  have hpos := length_pos_iff.mpr hvalue
  simp only [elementsText, Element.text, length_append]
  omega

theorem zbxJsonNext_first (hc : c.Formed G (value (pairedSurrogates G) n)) (rest : List Char)
    (hblank : c.pad = []) : zbxJsonNext (c.opened rest) none =
      (elementStarts (c.opened rest).last c.elements).head? := by
  have hlength := opened_length c rest
  rw [hblank] at hlength
  rw [zbxJsonNext]
  cases helements : c.elements with
  | nil =>
    rw [helements] at hlength
    exact if_pos hlength
  | cons e more =>
    have he : e.Formed G (value (pairedSurrogates G) n) c.object :=
      hc.elements e (by rw [helements]; exact mem_cons_self)
    have hpos := length_elementsText he more
    rw [helements, length_nil] at hlength
    have htail : (c.opened rest).start.tail = elementsText (e :: more) ++ (c.opened rest).last := by
      rw [Container.opened, Container.text, hblank, helements]
      cases c.object <;> simp [openText]
    rw [if_neg (by omega)]
    refine congrArg some ?_
    rw [htail, skipWhitespace_elements he more]

def Element.decoded (e : Element) : List Char := e.name.elim [] Name.decoded

def memberStarts (ending : List Char) : List Element → List (List Char × List Char)
  | [] => []
  | e :: more =>
    (e.value ++ (e.trail ++ (moreText more ++ ending)), e.decoded) :: memberStarts ending more

inductive PairVisits (jp : JsonParse) (size : ℕ) :
    Option (List Char) → List (List Char × List Char) → Prop
  | stop {p : Option (List Char)} (h : zbxJsonPairNext jp p size = none) : PairVisits jp size p []
  | next {p : Option (List Char)} {q name : List Char} {visited : List (List Char × List Char)}
      (h : zbxJsonPairNext jp p size = some (q, name)) (hrest : PairVisits jp size (some q) visited) :
      PairVisits jp size p ((q, name) :: visited)

theorem zbxJsonPairNext_member (he : e.Formed G (value (pairedSurrogates G) n) true)
    {tail : List Char} (hnext : zbxJsonNext jp q = some (e.front ++ (e.value ++ tail))) :
    zbxJsonPairNext jp q size =
      if e.decoded.length < size then some (e.value ++ tail, e.decoded) else none := by
  obtain ⟨m, hname⟩ := isSome_iff_exists.mp he.named
  have hm := he.name m hname
  have hfront : e.front ++ (e.value ++ tail) =
      m.token ++ (m.before ++ ':' :: (m.behind ++ (e.value ++ tail))) := by
    simp [Element.front, hname, Name.text]
  have hdecoded : e.decoded = m.decoded := by
    rw [Element.decoded, hname]
    rfl
  have htype : zbxJsonType (m.token ++ (m.before ++ ':' :: (m.behind ++ (e.value ++ tail)))) =
      .string := rfl
  have hcolon : skipWhitespace (m.before ++ ':' :: (m.behind ++ (e.value ++ tail))) =
      ':' :: (m.behind ++ (e.value ++ tail)) :=
    skipWhitespace_append hm.before rfl
  have hvalue : skipWhitespace (m.behind ++ (e.value ++ tail)) = e.value ++ tail :=
    skipWhitespace_append hm.behind (opens_value n e.value he.value tail).1
  rw [zbxJsonPairNext, hnext, bind_some, hfront, htype, if_neg (by decide),
    jsonCopyString_token hm, hdecoded]
  by_cases hfits : m.decoded.length < size
  · rw [if_pos hfits, if_pos hfits, bind_some]
    simp only [hcolon, tail_cons, hvalue]
    rfl
  · rw [if_neg hfits, if_neg hfits, bind_none]

theorem pairVisits_elements (hG : G ≤ digits) (hlong : jp.start.length - jp.last.length ≠ 1)
    {rest : List Char} (hlast : jp.last = closeText object' ++ rest)
    (helements : ∀ x ∈ elements, Element.Formed G (value (pairedSurrogates G) n) true x)
    (hsize : ∀ x ∈ elements, x.decoded.length < size)
    (hq : zbxJsonNext jp q = (elementStarts jp.last elements).head?) :
    PairVisits jp size q (memberStarts jp.last elements) := by
  induction elements generalizing q with
  | nil =>
    apply PairVisits.stop
    rw [zbxJsonPairNext, hq]
    rfl
  | cons e elements ih =>
    obtain ⟨he, hmore⟩ := forall_mem_cons.mp helements
    obtain ⟨hfits, hsize⟩ := forall_mem_cons.mp hsize
    refine .next ?_ (ih hmore hsize (zbxJsonNext_value hG hlong hlast he hmore))
    rw [zbxJsonPairNext_member he hq, if_pos hfits]

structure Navigates (c : Container) (rest : List Char) : Prop where
  rbracket : zbxJsonRbracket (c.text ++ rest) = some (closeText c.object ++ rest)
  next : Visits (c.opened rest) none (elementStarts (closeText c.object ++ rest) c.elements)
  pairNext : c.object = true → ∀ size, (∀ e ∈ c.elements, e.decoded.length < size) →
    PairVisits (c.opened rest) size none (memberStarts (closeText c.object ++ rest) c.elements)
  count : zbxJsonCount (c.opened rest) = c.elements.length
  isEmpty : zbxJsonObjectIsEmpty (c.opened rest) ↔ c.elements = []

def Container.Blank (c : Container) : Prop := c.elements = [] ∧ c.pad ≠ []

theorem countLoop_visits {visited : List (List Char)} (hvisits : Visits jp q visited) {fuel : ℕ}
    (hfuel : visited.length < fuel) (num : ℕ) :
    countLoop jp fuel q num = num + visited.length := by
  induction hvisits generalizing fuel num with
  | stop h =>
    obtain ⟨fuel, rfl⟩ := Nat.exists_eq_succ_of_ne_zero (Nat.ne_zero_of_lt hfuel)
    rw [countLoop, h]
    rfl
  | next h hrest ih =>
    rw [length_cons] at hfuel
    obtain ⟨fuel, rfl⟩ := Nat.exists_eq_succ_of_ne_zero (Nat.ne_zero_of_lt hfuel)
    rw [countLoop, h, length_cons]
    change countLoop jp fuel _ (num + 1) = _
    rw [ih (Nat.lt_of_succ_lt_succ hfuel)]
    omega

theorem length_elementStarts (ending : List Char) (elements : List Element) :
    (elementStarts ending elements).length = elements.length := by
  induction elements with
  | nil => rfl
  | cons e elements ih => rw [elementStarts, length_cons, length_cons, ih]

theorem length_le_elementsText (elements : List Element) :
    elements.length ≤ (elementsText elements).length + 1 := by
  have hmore : ∀ elements : List Element, elements.length ≤ (moreText elements).length := by
    intro elements
    induction elements with
    | nil => exact Nat.le_refl 0
    | cons e elements ih =>
      rw [moreText_cons, elementsText, length_cons, length_cons, length_append]
      omega
  cases elements with
  | nil => exact Nat.zero_le _
  | cons e elements =>
    have := hmore elements
    rw [elementsText, length_cons, length_append]
    omega

theorem navigates_iff (hG : G ≤ digits) (hc : c.Formed G (value (pairedSurrogates G) n))
    (rest : List Char) : Navigates c rest ↔ ¬ c.Blank := by
  have hlength := opened_length c rest
  constructor
  · intro hnav hblank
    have hempty := hnav.isEmpty.mpr hblank.1
    have hpad := length_pos_iff.mpr hblank.2
    rw [zbxJsonObjectIsEmpty, hlength, Bool.not_eq_true', decide_eq_false_iff_not] at hempty
    omega
  · intro hblank
    have hpad : c.pad = [] := by
      by_contra hne
      by_cases helements : c.elements = []
      · exact hblank ⟨helements, hne⟩
      · exact hne (hc.empty helements)
    have hfirst := zbxJsonNext_first hc rest hpad
    have hnone : ∀ size, c.elements = [] →
        PairVisits (c.opened rest) size none (memberStarts (c.opened rest).last c.elements) := by
      intro size helements
      rw [helements] at hfirst ⊢
      apply PairVisits.stop
      rw [zbxJsonPairNext, hfirst]
      rfl
    have hlong : c.elements ≠ [] → (c.opened rest).start.length - (c.opened rest).last.length ≠ 1 := by
      intro hne
      obtain ⟨e, more, helements⟩ := exists_cons_of_ne_nil hne
      have he := hc.elements
      rw [helements] at he hlength
      have hpos := length_elementsText (he e mem_cons_self) more
      omega
    have hvisits : Visits (c.opened rest) none (elementStarts (c.opened rest).last c.elements) := by
      by_cases helements : c.elements = []
      · rw [helements] at hfirst ⊢
        exact .stop hfirst
      · exact visits_elements hG (hlong helements) rfl hc.elements hfirst
    refine ⟨zbxJsonRbracket_container hG hc rest, hvisits, ?_, ?_, ?_⟩
    · intro hobject size hsize
      by_cases helements : c.elements = []
      · exact hnone size helements
      · have hformed := hc.elements
        rw [hobject] at hformed
        exact pairVisits_elements hG (hlong helements) rfl hformed hsize hfirst
    · have hcount := length_elementStarts (c.opened rest).last c.elements
      have hle := length_le_elementsText c.elements
      rw [zbxJsonCount, countLoop_visits hvisits (by omega), Nat.zero_add, hcount]
    · rw [zbxJsonObjectIsEmpty, hlength, Bool.not_eq_true', decide_eq_false_iff_not, hpad]
      constructor
      · intro hshort
        by_contra hne
        have := hlong hne
        rw [hlength, hpad] at this
        exact this (by omega)
      · intro helements
        rw [helements]
        exact Nat.lt_irrefl 1

inductive Within (top : JsonParse) : Container → List Char → Prop
  | top {c : Container} {rest : List Char} {n : ℕ} (hc : c.Formed digits (value lenient n))
      (htop : top = c.opened rest) : Within top c rest
  | inner {c c' : Container} {rest : List Char} {before more : List Element} {e : Element} {n : ℕ}
      (hin : Within top c rest) (helements : c.elements = before ++ e :: more)
      (hc : c'.Formed digits (value lenient n)) (hvalue : e.value = c'.text) :
      Within top c' (e.trail ++ (moreText more ++ (closeText c.object ++ rest)))

theorem opened_container (c : Container) (rest : List Char) :
    opened c.text rest = c.opened rest := by
  have hsplit : c.text = openText c.object ++ (c.pad ++ elementsText c.elements) ++
      closeText c.object := rfl
  have hclose : (closeText c.object).length = 1 := by cases c.object <;> rfl
  have hlength : c.text.length - 1 =
      (openText c.object ++ (c.pad ++ elementsText c.elements)).length := by
    rw [hsplit, length_append, hclose, Nat.add_sub_cancel]
  rw [opened, hlength, Container.opened]
  congr 1
  rw [hsplit, append_assoc (openText c.object ++ (c.pad ++ elementsText c.elements)), drop_left]

theorem zbxJsonOpen_container {text : List Char} (htext : '\x00' ∉ text) {top : JsonParse}
    (hopen : zbxJsonOpen text = .ok top) :
    ∃ c : Container, ∃ s ∈ ws, ∃ rest ∈ ws, text = s ++ (c.text ++ rest) ∧ top = c.opened rest ∧
      c.Formed digits (value lenient (zbxMaxJsonDepth + 1)) := by
  obtain ⟨s, w, s', rfl, ⟨hs, hw, hs'⟩, -, rfl⟩ := zbxJsonOpen_lenient htext hopen
  obtain ⟨c, hc, rfl⟩ := mem_container_iff.mp hw
  exact ⟨c, s, hs, s', hs', append_assoc _ _ _, opened_container c s', hc⟩

/-- In an accepted text the functions find their way through all objects and arrays but the empty ones
with white space in them. -/
theorem zbxJsonOpen_navigates {text : List Char} (htext : '\x00' ∉ text) {top : JsonParse}
    (hopen : zbxJsonOpen text = .ok top) :
    (∃ c rest, top = c.opened rest ∧ Within top c rest) ∧
      ∀ c rest, Within top c rest → (Navigates c rest ↔ ¬ c.Blank) := by
  constructor
  · obtain ⟨c, -, -, rest, -, -, htop, hc⟩ := zbxJsonOpen_container htext hopen
    exact ⟨c, rest, htop, .top hc htop⟩
  · intro c rest hin
    cases hin with
    | top hc _ => exact navigates_iff le_rfl hc rest
    | inner _ _ hc _ => exact navigates_iff le_rfl hc _

theorem zbxJsonOpen_navigates_array :
    (∃ c rest, JsonParse.mk ['[', '1', ']'] [']'] = c.opened rest ∧
        Within (JsonParse.mk ['[', '1', ']'] [']']) c rest) ∧
      ∀ c rest, Within (JsonParse.mk ['[', '1', ']'] [']']) c rest →
        (Navigates c rest ↔ ¬ c.Blank) :=
  zbxJsonOpen_navigates (by decide : '\x00' ∉ ['[', '1', ']']) rfl

/-- An empty array with a blank in it has one element for `zbx_json_count`. -/
theorem zbxJsonCount_blank :
    ¬ ∀ (text : List Char) (top : JsonParse) (c : Container) (rest : List Char),
      zbxJsonOpen text = .ok top → Within top c rest →
        zbxJsonCount (c.opened rest) = c.elements.length := by
  intro h
  have hpad : [' '] ∈ ws := mem_kstar_oneOf.mpr (List.all_eq_true.mp (by decide))
  have hc : (Container.mk false [' '] []).Formed digits (value lenient 1) :=
    ⟨hpad, fun hne => absurd rfl hne, nofun⟩
  have hcount := h ['[', ' ', ']'] _ ⟨false, [' '], []⟩ [] rfl (.top hc rfl)
  exact absurd hcount (by decide)

end Zabbix.Json
