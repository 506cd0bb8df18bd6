import Zabbix.Json.Building

/-!
# Building and reading back

The builder keeps the text of the tree that is left when everything open is closed; reading such
a text gives the tree.
-/

namespace Zabbix.Json

open Zabbix.Expr Zabbix.JsonGrammar Computability

variable {rest p : List Char}
variable {t child : Tree} {more : List (Option (List Char) × Tree)} {size : ℕ} {jp : JsonParse}
  {cursor : Option (List Char)} {read : List Char → Option Tree} {w : List Char}

theorem outside_ne {c : Char} (hc : isdigit c ∨ c = ':') :
    c ≠ '"' ∧ c ≠ '\\' ∧ c ≠ '[' ∧ c ≠ '\x7b' ∧ c ≠ ']' ∧ c ≠ '\x7d' ∧ c ≠ ',' := by
  refine ⟨?_, ?_, ?_, ?_, ?_, ?_, ?_⟩ <;> rintro rfl <;> exact absurd hc (by decide)

theorem scanner_nextScan (stop : ℕ) : Scanner stop 0 (nextScan stop) where
  quote level inString p h := by
    rw [nextScan.eq_def]
    simp [show ¬p.length + 1 < stop by omega]
  escape level c p h := by
    rw [nextScan.eq_def]
    simp [show ¬p.length + 1 + 1 < stop by omega]
  inside level c p h hquote hslash := by
    rw [nextScan.eq_def]
    simp [show ¬p.length + 1 < stop by omega, hquote, hslash]
  opens level object p h := by
    rw [nextScan.eq_def]
    cases object <;> simp [openText, show ¬p.length + 1 < stop by omega]
  closes level object p _ h := by
    rw [nextScan.eq_def]
    cases object <;> simp [closeText, show ¬p.length + 1 < stop by omega]
  comma level p h := by
    rw [nextScan.eq_def]
    simp [show ¬p.length + 1 < stop by omega]
  outside level c p h hc := by
    rw [nextScan.eq_def]
    simp [show ¬p.length + 1 < stop by omega, outside_ne hc]

theorem scanner_rbracketScan (rbracket : Char) : Scanner 0 1 (rbracketScan rbracket) where
  quote level inString p _ := by
    rw [rbracketScan.eq_def]
    simp
  escape level c p _ := by
    rw [rbracketScan.eq_def]
    simp
  inside level c p _ hquote hslash := by
    rw [rbracketScan.eq_def]
    simp [hquote, hslash]
  opens level object p _ := by
    rw [rbracketScan.eq_def]
    cases object <;> simp [openText]
  closes level object p hlevel _ := by
    rw [rbracketScan.eq_def]
    cases object <;> simp [closeText, show level ≠ 0 by omega]
  comma level p _ := by
    rw [rbracketScan.eq_def]
    simp
  outside level c p _ hc := by
    rw [rbracketScan.eq_def]
    simp [outside_ne hc]

variable {object : Bool} {n : ℕ} {children : List (Option (List Char) × Tree)}

def nodeOpened (object : Bool) (children : List (Option (List Char) × Tree)) (rest : List Char) :
    JsonParse where
  start := (Tree.node object children).render ++ rest
  last := closeText object ++ rest

theorem charAt_openText (object : Bool) (rest : List Char) :
    charAt (openText object ++ rest) = if object then '\x7b' else '[' := by
  cases object <;> rfl

theorem zbxJsonBracketsOpen_node (h : ValidChildren object n children) (rest : List Char) :
    zbxJsonBracketsOpen ((Tree.node object children).render ++ rest) =
      some (nodeOpened object children rest) := by
  have hscan := scanner_rbracketScan (if object then '\x7d' else ']')
  have hchildren : rbracketScan (if object then '\x7d' else ']') (0 + 1) false
      (renderChildren false children ++ (closeText object ++ rest)) =
        rbracketScan (if object then '\x7d' else ']') (0 + 1) false (closeText object ++ rest) :=
    hscan.children children h (by omega) (by omega) false
  have hopen := hscan.opens 0 object (renderChildren false children ++ (closeText object ++ rest))
    (by omega)
  have htext : (Tree.node object children).render ++ rest =
      openText object ++ (renderChildren false children ++ (closeText object ++ rest)) := by
    simp [Tree.render]
  have hclose : rbracketScan (if object then '\x7d' else ']') 1 false (closeText object ++ rest) =
      some (closeText object ++ rest) := by
    rw [rbracketScan.eq_def]
    cases object <;> simp [closeText]
  have hscan := (hopen.trans hchildren).trans hclose
  have hspace : skipWhitespace ((Tree.node object children).render ++ rest) =
      (Tree.node object children).render ++ rest := by
    rw [htext]
    cases object <;> rfl
  rw [zbxJsonBracketsOpen, hspace, zbxJsonRbracket, nodeOpened, htext, charAt_openText]
  cases object with
  | false | true => exact congrArg (Option.map _) hscan

def childrenText (object : Bool) (children : List (Option (List Char) × Tree)) (rest : List Char) :
    List Char :=
  renderChildren false children ++ (closeText object ++ rest)

theorem charAt_childrenText (h : ValidChildren object n children) (hne : children ≠ [])
    (rest : List Char) : isWhitespace (charAt (childrenText object children rest)) = false := by
  obtain ⟨⟨name, child⟩, children, rfl⟩ := List.exists_cons_of_ne_nil hne
  cases name with
  | some s => simp [childrenText, renderChildren, nameText, quoted, charAt, isWhitespace]
  | none =>
    have hopens := opens_value n _ (child.render_mem_value h.2.2.1)
      (renderChildren true children ++ (closeText object ++ rest))
    simpa [childrenText, renderChildren, nameText, isWs, isWhitespace] using hopens.1

theorem skipWhitespace_eq_self (h : isWhitespace (charAt p) = false) : skipWhitespace p = p := by
  cases p with
  | nil => rfl
  | cons c p => exact List.dropWhile_cons_of_neg (by simpa [charAt] using h)

theorem nodeOpened_empty (object : Bool) (children : List (Option (List Char) × Tree))
    (rest : List Char) : (nodeOpened object children rest).start.length -
      (nodeOpened object children rest).last.length = 1 ↔ renderChildren false children = [] := by
  rw [← List.length_eq_zero_iff]
  cases object <;>
    simp only [nodeOpened, Tree.render, openText, closeText, if_true, if_false, Bool.false_eq_true,
      List.length_append, List.length_singleton] <;> omega

theorem render_length_pos (h : t.Valid n) : 0 < t.render.length := by
  cases t with
  | string s =>
    have hlen := length_le_quoted s
    rw [Tree.render]
    omega
  | number digits => exact List.length_pos_iff.mpr (int_digits h.2).2.1
  | node object children => cases object <;> simp [Tree.render, openText]

theorem length_le_renderChildren (h : ValidChildren object n children) (comma : Bool) :
    children.length ≤ (renderChildren comma children).length := by
  induction children generalizing comma with
  | nil => simp
  | cons first children ih =>
    have hpos := render_length_pos h.2.2.1
    have htail := ih h.2.2.2 true
    simp only [renderChildren, List.length_append, List.length_cons]
    omega

theorem zbxJsonNext_child (hchildren : ValidChildren object n children) (hne : children ≠ [])
    (hchild : child.Valid n) (hmore : ValidChildren object n more) (rest : List Char) :
    zbxJsonNext (nodeOpened object children rest)
        (some (child.render ++ (renderChildren true more ++ (closeText object ++ rest)))) =
      if more = [] then none else some (childrenText object more rest) := by
  have hlong : renderChildren false children ≠ [] := by
    have hlen := length_le_renderChildren hchildren false
    have hpos := List.length_pos_iff.mpr hne
    exact List.length_pos_iff.mp (by omega)
  have hscan : nextScan (closeText object ++ rest).length 0 false
      (child.render ++ (renderChildren true more ++ (closeText object ++ rest))) =
        nextScan (closeText object ++ rest).length 0 false
          (renderChildren true more ++ (closeText object ++ rest)) :=
    (scanner_nextScan _).tree child hchild (by omega) (by simp)
  rw [zbxJsonNext, if_neg (mt (nodeOpened_empty object children rest).mp hlong)]
  refine hscan.trans ?_
  split_ifs with hlast
  · subst hlast
    rw [renderChildren, List.nil_append, nextScan.eq_def]
    cases object <;> simp [closeText]
  · have hspace := skipWhitespace_eq_self (charAt_childrenText hmore hlast rest)
    have hstop : (closeText object).length + rest.length ≤ (renderChildren false more).length +
        ((closeText object).length + rest.length) + 1 := by omega
    rw [renderChildren_comma hlast, List.cons_append, nextScan.eq_def]
    simpa [childrenText, hstop] using hspace

theorem zbxJsonNext_none (h : ValidChildren object n children) (rest : List Char) :
    zbxJsonNext (nodeOpened object children rest) none =
      if children = [] then none else some (childrenText object children rest) := by
  rw [zbxJsonNext]
  by_cases hne : children = []
  · subst hne
    rw [if_pos ((nodeOpened_empty object [] rest).mpr rfl), if_pos rfl]
  · have hlong : renderChildren false children ≠ [] := by
      have hlen := length_le_renderChildren h false
      have hpos := List.length_pos_iff.mpr hne
      exact List.length_pos_iff.mp (by omega)
    have hspace := skipWhitespace_eq_self (charAt_childrenText h hne rest)
    rw [if_neg (mt (nodeOpened_empty object children rest).mp hlong), if_neg hne]
    refine congrArg some (Eq.trans ?_ hspace)
    cases object <;> simp [nodeOpened, Tree.render, openText, childrenText]

def nextChild (size : ℕ) (object : Bool) (jp : JsonParse) (p : Option (List Char)) :
    Option (List Char × Option (List Char)) :=
  if object then (zbxJsonPairNext jp p size).map fun (p, name) => (p, some name)
  else (zbxJsonNext jp p).map fun p => (p, none)

theorem nextChild_cons {name : Option (List Char)}
    (h : ValidChildren object n ((name, child) :: more)) (rest : List Char)
    (hsize : (renderChildren false ((name, child) :: more)).length < size)
    (hnext : zbxJsonNext jp cursor = some (childrenText object ((name, child) :: more) rest)) :
    nextChild size object jp cursor =
      some (child.render ++ (renderChildren true more ++ (closeText object ++ rest)), name) := by
  cases name with
  | none =>
    obtain rfl : false = object := h.1
    simp [nextChild, hnext, childrenText, renderChildren, nameText]
  | some s =>
    obtain rfl : true = object := h.1
    have hs : '\x00' ∉ s := h.2.1 s rfl
    have hlen := length_le_quoted s
    simp only [renderChildren, nameText, Option.elim, List.length_append] at hsize
    have hopens := opens_value n _ (child.render_mem_value h.2.2.1)
      (renderChildren true more ++ (closeText true ++ rest))
    have htext : childrenText true ((some s, child) :: more) rest = quoted s ++
        ':' :: (child.render ++ (renderChildren true more ++ (closeText true ++ rest))) := by
      simp [childrenText, renderChildren, nameText]
    have hcopy := jsonCopyString_quoted hs (show s.length < size by omega)
      (':' :: (child.render ++ (renderChildren true more ++ (closeText true ++ rest))))
    have hspace := skipWhitespace_eq_self hopens.1
    have hcolon : ∀ p, skipWhitespace (':' :: p) = ':' :: p := fun _ => rfl
    have htype : ∀ p, zbxJsonType (quoted s ++ p) = .string := fun _ => rfl
    rw [nextChild, if_pos rfl, zbxJsonPairNext, hnext, htext]
    simp [htype, hcopy, hcolon, charAt, hspace]

theorem nextChild_none (size : ℕ) (object : Bool) (hnext : zbxJsonNext jp cursor = none) :
    nextChild size object jp cursor = none := by
  cases object <;> simp [nextChild, zbxJsonPairNext, hnext]

theorem ends_renderChildren (object : Bool) (more : List (Option (List Char) × Tree))
    (rest : List Char) : Ends (renderChildren true more ++ (closeText object ++ rest)) := by
  cases more with
  | nil =>
    cases object
    · exact (ends_cons (.inr (.inl rfl)) rest).1
    · exact (ends_cons (.inr (.inr rfl)) rest).1
  | cons first more =>
    rw [renderChildren_comma (List.cons_ne_nil first more)]
    exact (ends_cons (.inl rfl) _).1

theorem readChildren_eq {fuel : ℕ} (hmore : ValidChildren object n more)
    (hsize : (renderChildren false more).length < size) (hfuel : more.length < fuel)
    (hread : ∀ (child : Tree) rest, child.Valid n → child.render.length < size → Ends rest →
      read (child.render ++ rest) = some child)
    (hnext : ∀ (child : Tree) more, child.Valid n → ValidChildren object n more →
      zbxJsonNext jp (some (child.render ++ (renderChildren true more ++
        (closeText object ++ rest)))) =
        if more = [] then none else some (childrenText object more rest))
    (hcursor : zbxJsonNext jp cursor =
      if more = [] then none else some (childrenText object more rest)) :
    readChildren read size object jp fuel cursor = some more := by
  induction more generalizing fuel cursor with
  | nil =>
    obtain ⟨fuel, rfl⟩ := Nat.exists_eq_succ_of_ne_zero (by omega : fuel ≠ 0)
    have hnone := nextChild_none size object hcursor
    rw [nextChild] at hnone
    rw [readChildren, hnone]
  | cons first more ih =>
    obtain ⟨fuel, rfl⟩ := Nat.exists_eq_succ_of_ne_zero (by omega : fuel ≠ 0)
    obtain ⟨name, child⟩ := first
    have hsome := nextChild_cons hmore rest hsize hcursor
    rw [nextChild] at hsome
    simp only [renderChildren, List.length_append, List.length_cons] at hsize hfuel
    have hchild := hread child _ hmore.2.2.1 (by omega) (ends_renderChildren object more rest)
    have hshort : (renderChildren false more).length < size := by
      cases more with
      | nil =>
        rw [renderChildren, List.length_nil]
        omega
      | cons second more =>
        rw [renderChildren_comma (List.cons_ne_nil second more), List.length_cons] at hsize
        omega
    have hfuel : more.length < fuel := by omega
    have htail := ih hmore.2.2.2 hshort hfuel (hnext child more hmore.2.2.1 hmore.2.2.2)
    simp only [readChildren, hsome, hchild, htail]
    rfl

theorem readOpened_node (h : ValidChildren object n children) (rest : List Char)
    (hsize : (renderChildren false children).length < size)
    (hread : ∀ (child : Tree) rest, child.Valid n → child.render.length < size → Ends rest →
      read (child.render ++ rest) = some child) :
    readOpened read size (nodeOpened object children rest) = some (.node object children) := by
  have hobject : decide (charAt (nodeOpened object children rest).start = '\x7b') = object := by
    cases object <;> rfl
  have hlen := length_le_renderChildren h false
  have hfuel : children.length < (nodeOpened object children rest).start.length + 1 := by
    simp only [nodeOpened, Tree.render, List.length_append]
    omega
  have hchildren : readChildren read size object (nodeOpened object children rest)
      ((nodeOpened object children rest).start.length + 1) none = some children := by
    by_cases hne : children = []
    · subst hne
      have hnone := nextChild_none size object (zbxJsonNext_none h rest)
      rw [nextChild] at hnone
      rw [readChildren, hnone]
    · exact readChildren_eq h hsize hfuel hread
        (fun child more hchild hmore => zbxJsonNext_child h hne hchild hmore rest)
        (zbxJsonNext_none h rest)
  rw [readOpened]
  simp only [hobject, hchildren]
  rfl

theorem zbxJsonDecodevalue_string {s : List Char} (hs : '\x00' ∉ s)
    (hsize : (quoted s).length < size) (hrest : Ends rest) :
    zbxJsonDecodevalue (quoted s ++ rest) size = some (s, rest, .string) := by
  have hlen := length_le_quoted s
  have hparse : jsonParseValue (quoted s ++ rest) 0 = .ok (quoted s).length :=
    parseValueAt_complete digits1_le (zbxMaxJsonDepth + 1) _
      ⟨[], Language.nil_mem_kstar _, _, .inl (.inl (.inl (quoted_mem_string s))), rfl⟩ rest hrest
  have htype : zbxJsonType (quoted s ++ rest) = .string := rfl
  rw [zbxJsonDecodevalue, htype]
  simp [hparse, jsonCopyString_quoted hs (show s.length < size by omega)]

theorem zbxJsonType_number (hw : w ∈ int) (rest : List Char) : zbxJsonType (w ++ rest) = .int := by
  have hchar := charAt_number (mem_number_of_int (D := paired) hw) rest
  rw [zbxJsonType, if_neg ?_, if_pos hchar]
  intro hquote
  rw [hquote] at hchar
  exact absurd hchar (by decide)

theorem zbxJsonDecodevalue_number (hw : w ∈ int) (hsize : w.length < size) (hrest : Ends rest) :
    zbxJsonDecodevalue (w ++ rest) size = some (w, rest, .int) := by
  have hnumber : w ∈ number paired := mem_number_of_int hw
  have hparse : jsonParseValue (w ++ rest) 0 = .ok w.length :=
    parseValueAt_complete digits1_le (zbxMaxJsonDepth + 1) _
      ⟨[], Language.nil_mem_kstar _, _, .inl (.inl (.inr hnumber)), rfl⟩ rest hrest
  rw [zbxJsonDecodevalue, zbxJsonType_number hw rest]
  simp [hparse, show ¬size < w.length + 1 by omega]

theorem readValue_render (h : t.Valid n) (hsize : t.render.length < size) (hrest : Ends rest) :
    readValue size n (t.render ++ rest) = some t := by
  induction n generalizing t rest with
  | zero => cases t <;> exact absurd h.1 (by omega)
  | succ n ih =>
    cases t with
    | string s =>
      have hdecode := zbxJsonDecodevalue_string h.2 hsize hrest
      have htype : zbxJsonType (quoted s ++ rest) = .string := rfl
      rw [Tree.render, readValue, htype]
      simp [hdecode]
    | number w =>
      have hdecode := zbxJsonDecodevalue_number h.2 hsize hrest
      rw [Tree.render, readValue, zbxJsonType_number h.2 rest]
      simp [hdecode]
    | node object children =>
      have hopen := zbxJsonBracketsOpen_node h.2 rest
      have hlen : (renderChildren false children).length < size := by
        simp only [Tree.render, List.length_append] at hsize
        omega
      have hread := readOpened_node h.2 rest hlen fun child rest hchild hsize hrest =>
        ih hchild hsize hrest
      have htype : zbxJsonType ((Tree.node object children).render ++ rest) =
          if object then .object else .array := by
        cases object <;> rfl
      rw [readValue, htype, hopen]
      cases object <;> exact hread

theorem node_mem_container (h : ValidChildren object n children) :
    (Tree.node object children).render ∈ container paired (value paired n) := by
  cases children with
  | nil => exact mem_container (.inl (Language.nil_mem_kstar _))
  | cons first children => exact mem_container (.inr (renderChildren_mem first children h))

theorem zbxJsonOpen_node (h : ValidChildren object (zbxMaxJsonDepth + 1) children) :
    zbxJsonOpen (Tree.node object children).render = .ok (nodeOpened object children []) := by
  have hdoc : Document paired [] (Tree.node object children).render [] :=
    ⟨Language.nil_mem_kstar _, node_mem_container h, Language.nil_mem_kstar _⟩
  have hopen := (zbxJsonOpen_document digits1_le hdoc).2
  have hone : (closeText object).length = 1 := by cases object <;> rfl
  have hlast : (Tree.node object children).render.drop
      ((Tree.node object children).render.length - 1) = closeText object := by
    rw [Tree.render, List.drop_left']
    simp [hone]
  rw [List.nil_append, List.append_nil, opened, List.append_nil, hlast] at hopen
  rw [hopen, nodeOpened, List.append_nil, List.append_nil]

theorem json_round_trip (ops : List Op) (hproper : ProperRun Opened.init ops) (size : ℕ)
    (hsize : (build ops).buffer.length < size) :
    ∃ jp, zbxJsonOpen (build ops).buffer = .ok jp ∧ readBack size jp = some (built ops) := by
  obtain ⟨children, htree, hvalid⟩ := built_valid hproper
  rw [build_buffer hproper, htree] at hsize ⊢
  refine ⟨nodeOpened true children [], zbxJsonOpen_node hvalid, ?_⟩
  refine readOpened_node hvalid [] ?_ fun child rest hchild hlen hrest =>
    readValue_render hchild hlen hrest
  simp only [Tree.render, List.length_append] at hsize
  omega

theorem json_round_trip_array :
    ∃ jp, zbxJsonOpen (build [.addarray (some ['a', '"']), .adduint64 none 7]).buffer = .ok jp ∧
      readBack 100 jp =
        some (.node true [(some ['a', '"'], .node false [(none, .number ['7'])])]) :=
  json_round_trip [.addarray (some ['a', '"']), .adduint64 none 7]
    ⟨⟨rfl, by simp, by decide⟩, ⟨rfl, by simp, by decide⟩, trivial⟩ 100 (by decide)

/-- The builder does not look at names: an element with a name makes the text no JSON. -/
theorem named_element_refused :
    ¬∃ jp, zbxJsonOpen (build [.addarray (some ['a']), .addstring (some ['b']) ['c']]).buffer =
      .ok jp := by
  rintro ⟨jp, hjp⟩
  cases hjp

end Zabbix.Json
