import Mathlib
import Zabbix.Json.Clone
import Zabbix.Json.Navigation

/-!
# Reopening a JSON document

`zbx_json_init_with` takes the last byte of a text for its closing bracket, and goes back over
blanks only to see whether the object has members.
-/

namespace Zabbix.Json

open List Zabbix.Expr Zabbix.JsonGrammar Computability

variable {F G V : Language Char} {n : ℕ} {c x : Char} {src front w rest : List Char}

theorem split_last {α : Type*} (p : α → Prop) (l : List α) :
    (∀ a ∈ l, p a) ∨ ∃ front a back, l = front ++ a :: back ∧ ¬ p a ∧ ∀ b ∈ back, p b := by
  induction l with
  | nil => exact .inl nofun
  | cons a l ih =>
    obtain hall | ⟨front, b, back, rfl, hb, hback⟩ := ih
    · by_cases ha : p a
      · exact .inl (forall_mem_cons.mpr ⟨ha, hall⟩)
      · exact .inr ⟨[], a, l, rfl, ha, hall⟩
    · exact .inr ⟨a :: front, b, back, rfl, hb, hback⟩

theorem skipBack_blanks (front : List Char) (hc : c ≠ ' ') {blanks : List Char}
    (hblanks : ∀ b ∈ blanks, b = ' ') {k : ℕ} (hk : k ≤ blanks.length) :
    charAt ((front ++ c :: (blanks ++ rest)).drop
      (skipBack (front ++ c :: (blanks ++ rest)) (front.length + k))) = c := by
  have hstart : charAt ((front ++ c :: (blanks ++ rest)).drop front.length) = c := by
    rw [drop_left]
    rfl
  induction k with
  | zero =>
    rw [Nat.add_zero]
    cases front with
    | nil => rfl
    | cons a front =>
      rw [length_cons] at hstart ⊢
      rw [skipBack, hstart, if_neg hc, hstart]
  | succ k ih =>
    have hblank : charAt ((front ++ c :: (blanks ++ rest)).drop (front.length + k + 1)) = ' ' := by
      rw [Nat.add_assoc, ← drop_drop, drop_left, drop_succ_cons,
        drop_append_of_le_length (Nat.le_of_lt hk), drop_eq_getElem_cons hk]
      exact hblanks _ (getElem_mem hk)
    rw [← Nat.add_assoc, skipBack, if_pos hblank]
    exact ih (Nat.le_of_lt hk)

theorem initWithStatus_eq (front : List Char) (hc : c ≠ ' ') {blanks : List Char}
    (hblanks : ∀ b ∈ blanks, b = ' ') (x : Char) :
    initWithStatus (front ++ c :: (blanks ++ [x])) = if c = '\x7b' then .empty else .comma := by
  have hlength : (front ++ c :: (blanks ++ [x])).length - 2 = front.length + blanks.length := by
    simp only [length_append, length_cons, length_nil]
    omega
  rw [initWithStatus, hlength, skipBack_blanks front hc hblanks (Nat.le_refl _)]

theorem ne_bracket_of_ws {w : List Char} (hw : w ∈ ws) {c : Char} (hc : c ∈ w) : c ≠ '\x7b' := by
  intro heq
  have hws := mem_kstar_oneOf.mp hw c hc
  rw [heq] at hws
  exact absurd hws (by decide)

theorem initWithStatus_comma (front : List Char) (hblank : c ≠ ' ') (hbracket : c ≠ '\x7b')
    (hw : w ∈ ws) (x : Char) : initWithStatus (front ++ c :: (w ++ [x])) = .comma := by
  obtain hall | ⟨w, d, blanks, rfl, hd, hblanks⟩ := split_last (· = ' ') w
  · rw [initWithStatus_eq front hblank hall, if_neg hbracket]
  · have hmem : d ∈ w ++ d :: blanks := mem_append_right w mem_cons_self
    have htext : front ++ c :: (w ++ d :: blanks ++ [x]) =
        (front ++ c :: w) ++ d :: (blanks ++ [x]) := by
      simp
    rw [htext, initWithStatus_eq _ hd hblanks, if_neg (ne_bracket_of_ws hw hmem)]

theorem value_last (hG : G ≤ digits) (hw : w ∈ value (pairedSurrogates G) n) :
    ∃ front c, w = front ++ [c] ∧ c ≠ ' ' ∧ c ≠ '\x7b' := by
  cases n with
  | zero => exact absurd hw (Language.notMem_zero w)
  | succ n =>
    obtain ((hstring | hnumber) | rfl | rfl | rfl) | hcontainer := hw
    · obtain ⟨chars, -, rfl⟩ := mem_string_iff.mp hstring
      exact ⟨'"' :: chars.flatten, '"', rfl, by decide, by decide⟩
    · have hclass : number (pairedSurrogates G) ≤ (oneOf fun c => c ≠ ' ' && c ≠ '\x7b')∗ := by
        have hdigit : ∀ c, isDigit c → (c ≠ ' ' && c ≠ '\x7b') = true := by
          intro c hc
          rw [Bool.and_eq_true, decide_eq_true_iff, decide_eq_true_iff]
          constructor
          · rintro rfl
            exact absurd hc (by decide)
          · rintro rfl
            exact absurd hc (by decide)
        apply number_le
        · intro c hc
          obtain hc | hc := hc
          · exact hdigit c hc
          · have hlisted :
                ['-', '+', '.', 'e', 'E'].all (fun d => d ≠ ' ' && d ≠ '\x7b') = true := by
              decide
            exact all_eq_true.mp hlisted c hc
        · intro w hw
          apply mem_kstar_oneOf.mpr
          intro c hc
          exact hdigit c (mem_kstar_oneOf.mp (hG hw) c hc)
      have hne : w ≠ [] := by
        intro hnil
        have hstart := charAt_number hnumber []
        rw [hnil] at hstart
        exact absurd hstart (by decide)
      have hlast := mem_kstar_oneOf.mp (hclass hnumber) _ (getLast_mem hne)
      rw [Bool.and_eq_true, decide_eq_true_iff, decide_eq_true_iff] at hlast
      exact ⟨w.dropLast, w.getLast hne, (dropLast_append_getLast hne).symm, hlast⟩
    · exact ⟨['t', 'r', 'u'], 'e', rfl, by decide, by decide⟩
    · exact ⟨['f', 'a', 'l', 's'], 'e', rfl, by decide, by decide⟩
    · exact ⟨['n', 'u', 'l'], 'l', rfl, by decide, by decide⟩
    · obtain ⟨c, -, rfl⟩ := mem_container_iff.mp hcontainer
      rw [Container.text]
      cases c.object with
      | false => exact ⟨_, ']', rfl, by decide, by decide⟩
      | true => exact ⟨_, '\x7d', rfl, by decide, by decide⟩

theorem elements_last (hG : G ≤ digits) {object : Bool} {elements : List Element}
    (helements : ∀ e ∈ elements, Element.Formed G (value (pairedSurrogates G) n) object e)
    (hne : elements ≠ []) : ∃ front c trail, elementsText elements = front ++ c :: trail ∧
      c ≠ ' ' ∧ c ≠ '\x7b' ∧ trail ∈ ws := by
  induction elements with
  | nil => exact absurd rfl hne
  | cons e more ih =>
    obtain ⟨he, hmore⟩ := forall_mem_cons.mp helements
    cases more with
    | nil =>
      obtain ⟨front, c, hvalue, hblank, hbracket⟩ := value_last hG he.value
      refine ⟨e.lead ++ (e.front ++ front), c, e.trail, ?_, hblank, hbracket, he.trail⟩
      simp [elementsText, Element.text, moreText, hvalue]
    | cons e' more =>
      obtain ⟨front, c, trail, htext, hblank, hbracket, htrail⟩ := ih hmore (cons_ne_nil e' more)
      refine ⟨e.text ++ ',' :: front, c, trail, ?_, hblank, hbracket, htrail⟩
      rw [elementsText, moreText_cons, htext]
      simp

/-- The two builders have the same text around the offset, behind `front` and `front'`, with the
brackets of what is open; the last bytes are `x` and `x'`. -/
def Shifted (front front' : List Char) (x x' : Char) (j j' : ZbxJson) : Prop :=
  ∃ added brackets, j.buffer = front ++ added ++ (brackets ++ [x]) ∧
    j.bufferOffset = (front ++ added).length ∧ j'.buffer = front' ++ added ++ (brackets ++ [x']) ∧
    j'.bufferOffset = (front' ++ added).length ∧ j.status = j'.status ∧ j.level = j'.level ∧
    j'.level = brackets.length + 1

variable {front' : List Char} {x' : Char} {j j' : ZbxJson} {o : Opened} {ops : List Op}

variable (h : Shifted front front' x x' j j')

include h

theorem Shifted.insert (text : List Char) {step : ℕ} (status : JsonStatus) {levels : ℕ}
    (hstep : step + levels = text.length) :
    Shifted front front' x x' (j.insert text step status levels) (j'.insert text step status levels) := by
  obtain ⟨added, brackets, hbuffer, hoffset, hbuffer', hoffset', -, hlevel, hlevel'⟩ := h
  have htake : (text.take step).length = step := by
    rw [length_take]
    omega
  have htext : text.take step ++ text.drop step = text := take_append_drop step text
  refine ⟨added ++ text.take step, text.drop step ++ brackets, ?_, ?_, ?_, ?_, rfl, ?_, ?_⟩
  · rw [ZbxJson.insert, hbuffer, hoffset, take_left, drop_left]
    nth_rewrite 1 [← htext]
    simp only [append_assoc]
  · rw [ZbxJson.insert, hoffset]
    simp only [length_append, htake]
    omega
  · rw [ZbxJson.insert, hbuffer', hoffset', take_left, drop_left]
    nth_rewrite 1 [← htext]
    simp only [append_assoc]
  · rw [ZbxJson.insert, hoffset']
    simp only [length_append, htake]
    omega
  · change j.level + levels = j'.level + levels
    rw [hlevel]
  · change j'.level + levels = _
    rw [hlevel', length_append, length_drop]
    omega

theorem Shifted.within : j.bufferOffset ≤ j.buffer.length ∧ j'.bufferOffset ≤ j'.buffer.length := by
  obtain ⟨added, brackets, hbuffer, hoffset, hbuffer', hoffset', -⟩ := h
  rw [hbuffer, hoffset, hbuffer', hoffset']
  constructor
  · exact (prefix_append (front ++ added) _).length_le
  · exact (prefix_append (front' ++ added) _).length_le

theorem Shifted.apply (op : Op) : Shifted front front' x x' (op.apply j) (op.apply j') := by
  obtain ⟨hj, hj'⟩ := h.within
  have hstatus : j.status = j'.status := by
    obtain ⟨added, brackets, -, -, -, -, hstatus, -⟩ := h
    exact hstatus
  have hcontainer : ∀ name object, Shifted front front' x x' (addContainer j name object)
      (addContainer j' name object) := by
    intro name object
    rw [addContainer_eq hj, addContainer_eq hj', startText_status hstatus]
    apply h.insert
    rw [length_append, length_brackets]
    omega
  have hstring : ∀ name string type, Shifted front front' x x' (zbxJsonAddstring j name string type)
      (zbxJsonAddstring j' name string type) := by
    intro name string type
    rw [zbxJsonAddstring_eq hj, zbxJsonAddstring_eq hj', startText_status hstatus]
    exact h.insert _ _ (Nat.add_zero _)
  cases op with
  | addobject name => exact hcontainer name true
  | addarray name => exact hcontainer name false
  | addstring name string => exact hstring name (some string) .string
  | adduint64 name value => exact hstring name _ .int
  | close =>
    obtain ⟨added, brackets, hbuffer, hoffset, hbuffer', hoffset', -, hlevel, hlevel'⟩ := h
    rw [Op.apply, Op.apply, zbxJsonClose, zbxJsonClose, hlevel]
    split
    · exact ⟨added, brackets, hbuffer, hoffset, hbuffer', hoffset', hstatus, hlevel, hlevel'⟩
    · next hopen =>
      -- the innermost closing bracket is passed
      cases brackets with
      | nil => exact absurd hlevel' hopen
      | cons b brackets =>
        refine ⟨added ++ [b], brackets, ?_, ?_, ?_, ?_, rfl, rfl, ?_⟩
        · change j.buffer = _
          rw [hbuffer]
          simp
        · change j.bufferOffset + 1 = _
          rw [hoffset]
          simp only [length_append, length_singleton, Nat.add_assoc]
        · change j'.buffer = _
          rw [hbuffer']
          simp
        · change j'.bufferOffset + 1 = _
          rw [hoffset']
          simp only [length_append, length_singleton, Nat.add_assoc]
        · change j'.level - 1 = brackets.length + 1
          rw [hlevel', length_cons]
          omega

theorem Shifted.run (ops : List Op) :
    Shifted front front' x x' (ops.foldl Op.apply j) (ops.foldl Op.apply j') := by
  induction ops generalizing j j' with
  | nil => exact h
  | cons op ops ih => exact ih (h.apply op)

omit h

def underFrames (first : List (Option (List Char) × Tree)) (top : Frame) : List Frame → Opened
  | [] => { top := { top with children := first ++ top.children }, outer := [] }
  | f :: outer =>
    let o := underFrames first f outer
    { top := top, outer := o.top :: o.outer }

def Opened.under (first : List (Option (List Char) × Tree)) (o : Opened) : Opened :=
  underFrames first o.top o.outer

variable {first : List (Option (List Char) × Tree)} {name : Option (List Char)}

theorem underFrames_add (first : List (Option (List Char) × Tree)) (top : Frame) (outer : List Frame)
    (child : Option (List Char) × Tree) :
    underFrames first (top.add child) outer = (underFrames first top outer).add child := by
  cases outer with
  | nil =>
    change Opened.mk { top with children := first ++ (top.children ++ [child]) } [] =
      Opened.mk { top with children := first ++ top.children ++ [child] } []
    rw [append_assoc]
  | cons f outer => rfl

theorem underFrames_shape (first : List (Option (List Char) × Tree)) (top : Frame)
    (outer : List Frame) : (underFrames first top outer).top.object = top.object ∧
      (underFrames first top outer).outer.length = outer.length := by
  induction outer generalizing top with
  | nil => exact ⟨rfl, rfl⟩
  | cons f outer ih => exact ⟨rfl, congrArg (· + 1) (ih f).2⟩

theorem under_step (first : List (Option (List Char) × Tree)) (o : Opened) (op : Op) :
    (o.under first).step op = (o.step op).under first := by
  obtain ⟨top, outer⟩ := o
  cases op with
  | addobject name => rfl
  | addarray name => rfl
  | addstring name string | adduint64 name value => exact (underFrames_add first top outer _).symm
  | close =>
    cases outer with
    | nil => rfl
    | cons f outer => exact (underFrames_add first f outer top.close).symm

theorem under_run (first : List (Option (List Char) × Tree)) (o : Opened) (ops : List Op) :
    ops.foldl Opened.step (o.under first) = (ops.foldl Opened.step o).under first := by
  induction ops generalizing o with
  | nil => rfl
  | cons op ops ih => rw [foldl_cons, foldl_cons, under_step, ih]

theorem properRun_under (first : List (Option (List Char) × Tree)) (hproper : ProperRun o ops) :
    ProperRun (o.under first) ops := by
  induction ops generalizing o with
  | nil => trivial
  | cons op ops ih =>
    obtain ⟨hop, hops⟩ := hproper
    obtain ⟨hobject, hlength⟩ := underFrames_shape first o.top o.outer
    have hadmits : ∀ name, o.Admits name → (o.under first).Admits name := by
      intro name hname
      refine ⟨?_, hname.2.1, ?_⟩
      · rw [Opened.under, hobject]
        exact hname.1
      · rw [Opened.under, hlength]
        exact hname.2.2
    refine ⟨?_, ?_⟩
    · cases op with
      | addobject name => exact hadmits name hop
      | addarray name => exact hadmits name hop
      | addstring name string => exact ⟨hadmits name hop.1, hop.2⟩
      | adduint64 name value => exact hadmits name hop
      | close => trivial
    · rw [under_step]
      exact ih hops

theorem renderChildren_under (comma : Bool) (first children : List (Option (List Char) × Tree)) :
    renderChildren comma (first ++ children) =
      renderChildren comma first ++ renderChildren (comma || !first.isEmpty) children := by
  induction first generalizing comma with
  | nil => rw [nil_append, renderChildren, isEmpty_nil, Bool.not_true, Bool.or_false]; rfl
  | cons child first ih =>
    obtain ⟨name, child⟩ := child
    rw [cons_append, renderChildren, renderChildren, ih, isEmpty_cons, Bool.not_false,
      Bool.or_true, Bool.true_or]
    simp only [append_assoc]

theorem initWith_run (hj : zbxJsonInitWith (front ++ [x]) = some j)
    (hproper : ProperRun Opened.init ops)
    (htop : (ops.foldl Opened.step Opened.init).outer = []) :
    (ops.foldl Op.apply j).buffer = front ++
      renderChildren (decide (initWithStatus (front ++ [x]) = .comma))
        (ops.foldl Opened.step Opened.init).top.children ++ [x] := by
  generalize hcomma : decide (initWithStatus (front ++ [x]) = .comma) = comma
  -- a builder that has a first member where the text is taken for one with members
  let first : List (Option (List Char) × Tree) := if comma then [(some [], .string [])] else []
  let front' := '\x7b' :: renderChildren false first
  let j' : ZbxJson :=
    { buffer := front' ++ ['\x7d']
      bufferOffset := front'.length
      status := if comma then .comma else .empty
      level := 1 }
  have hholds : Holds j' (Opened.init.under first) := by
    cases comma with
    | false => constructor <;> rfl
    | true => constructor <;> rfl
  have hstart : Shifted front front' x '\x7d' j j' := by
    rw [zbxJsonInitWith] at hj
    split at hj
    · cases hj
    · rw [← Option.some_inj.mp hj]
      refine ⟨[], [], ?_, ?_, ?_, ?_, ?_, rfl, rfl⟩
      · rw [append_nil, nil_append]
      · change (front ++ [x]).length - 1 = (front ++ []).length
        rw [length_append, append_nil, length_singleton, Nat.add_sub_cancel]
      · rw [append_nil, nil_append]
      · rw [append_nil]
      · change initWithStatus (front ++ [x]) = if comma then .comma else .empty
        rw [← hcomma]
        cases hstatus : initWithStatus (front ++ [x]) <;> rfl
  have hrun := hholds.run (properRun_under first hproper)
  rw [under_run] at hrun
  generalize hend : ops.foldl Opened.step Opened.init = o at hrun htop
  obtain ⟨⟨object, name, children⟩, outer⟩ := o
  obtain rfl : outer = [] := htop
  obtain ⟨added, brackets, hbuffer, -, hbuffer', -, -, -, hlevel⟩ := hstart.run ops
  have hnil : brackets = [] := by
    have hone := hrun.level
    rw [hlevel] at hone
    exact eq_nil_of_length_eq_zero (Nat.succ_inj.mp hone)
  have hfirst : (false || !first.isEmpty) = comma := by
    cases comma with
    | false => rfl
    | true => rfl
  have htext : front' ++ added ++ ['\x7d'] =
      openText object ++ (renderChildren false first ++ renderChildren comma children) ++
        closeText object := by
    have hsame := hbuffer'.symm.trans hrun.buffer
    rw [hnil] at hsame
    change front' ++ added ++ ['\x7d'] =
      openText object ++ renderChildren false (first ++ children) ++ closeText object at hsame
    rw [hsame, renderChildren_under, hfirst]
  cases object with
  | false => cases (cons_eq_cons.mp htext).1
  | true =>
    have hadded : added = renderChildren comma children := by
      have hinner := append_cancel_right (cons_eq_cons.mp htext).2
      exact append_cancel_left hinner
    rw [hbuffer, hadded, hnil, nil_append]

def addedElement (lead : List Char) (child : Option (List Char) × Tree) : Element where
  lead := lead
  name := child.1.map fun name => ⟨name.map insChar, [], []⟩
  value := child.2.render
  trail := []

/-- The object with children behind its own elements; the first element of an empty object stands behind
its white space. -/
def Container.extend (c : Container) (children : List (Option (List Char) × Tree)) : Container :=
  match c.elements, children with
  | [], child :: children =>
    { c with pad := [], elements := addedElement c.pad child :: children.map (addedElement []) }
  | elements, children => { c with elements := elements ++ children.map (addedElement []) }

def Container.members (c : Container) : List (List Char × List Char) :=
  c.elements.map fun e => (e.decoded, e.value)

def addedMember (child : Option (List Char) × Tree) : List Char × List Char :=
  (child.1.getD [], child.2.render)

variable {children : List (Option (List Char) × Tree)} {child : Option (List Char) × Tree}
  {object : Bool} {d : Container}

theorem addedElement_text (lead : List Char) (child : Option (List Char) × Tree) :
    (addedElement lead child).text = lead ++ (nameText child.1 ++ child.2.render) := by
  obtain ⟨name, tree⟩ := child
  cases name with
  | none =>
    change lead ++ ([] ++ (tree.render ++ [])) = lead ++ ([] ++ tree.render)
    rw [append_nil]
  | some name =>
    have hquoted : '"' :: ((name.map insChar).flatten ++ ['"']) = quoted name := by
      rw [quoted, flatMap_def]
    change lead ++ ('"' :: ((name.map insChar).flatten ++ ['"']) ++ [] ++ [':'] ++
      (tree.render ++ [])) = lead ++ (quoted name ++ [':'] ++ tree.render)
    rw [hquoted, append_nil, append_nil]

theorem moreText_added (children : List (Option (List Char) × Tree)) :
    moreText (children.map (addedElement [])) = renderChildren true children := by
  induction children with
  | nil => rfl
  | cons child children ih =>
    obtain ⟨name, tree⟩ := child
    rw [map_cons, moreText_cons, elementsText, addedElement_text, ih, renderChildren]
    simp

theorem charBytes_insChar (c : Char) : charBytes (insChar c) = [c] := by
  obtain ⟨c', hc', hone, hbytes⟩ | ⟨escape, hescape, hdecode⟩ :=
    decode_char (insChar_mem_char (F := digits) c)
  · obtain ⟨-, heq⟩ | ⟨e, -, -, heq⟩ | ⟨w, -, -, -, heq⟩ := insChar_cases c
    · rw [hbytes, ← hone, heq]
    · rw [heq] at hone
      cases (cons_eq_cons.mp hone).2
    · rw [heq] at hone
      cases (cons_eq_cons.mp hone).2
  · have hsame := (hdecode []).symm.trans (decodeCharacter_insChar hescape [])
    exact (Prod.ext_iff.mp (Option.some_inj.mp hsame)).1

theorem addedElement_member (lead : List Char) (child : Option (List Char) × Tree) :
    ((addedElement lead child).decoded, (addedElement lead child).value) = addedMember child := by
  obtain ⟨name, tree⟩ := child
  cases name with
  | none => rfl
  | some name =>
    have hname : (name.map insChar).flatMap charBytes = name := by
      rw [flatMap_map]
      simp only [charBytes_insChar]
      exact flatMap_singleton' name
    change ((name.map insChar).flatMap charBytes, tree.render) = (name, tree.render)
    rw [hname]

theorem validChildren_mem (h : ValidChildren object n children) (hmem : child ∈ children) :
    child.1.isSome = object ∧ child.2.Valid n := by
  induction children with
  | nil => exact absurd hmem not_mem_nil
  | cons first children ih =>
    obtain rfl | hmem := mem_cons.mp hmem
    · exact ⟨h.1, h.2.2.1⟩
    · exact ih h.2.2.2 hmem

theorem addedElement_formed {lead : List Char} (hlead : lead ∈ ws)
    (hname : child.1.isSome = object) (hvalid : child.2.Valid n) :
    (addedElement lead child).Formed digits (value lenient n) object := by
  have hnil : [] ∈ ws := Language.nil_mem_kstar _
  refine ⟨hlead, ?_, ?_, ?_, hnil⟩
  · rw [← hname, addedElement, Option.isSome_map]
  · intro m hm
    obtain ⟨name, -, rfl⟩ := Option.map_eq_some_iff.mp hm
    refine ⟨?_, hnil, hnil⟩
    intro w hw
    obtain ⟨c, -, rfl⟩ := mem_map.mp hw
    exact insChar_mem_char c
  · have hunicode : paired.unicode ≤ lenient.unicode := le_rfl
    have hle : value paired n ≤ value lenient n := value_mono hunicode digits1_le n
    exact hle (child.2.render_mem_value hvalid)

theorem extend_formed (hd : d.Formed digits (value lenient n))
    (hchildren : ValidChildren d.object n children) :
    (d.extend children).Formed digits (value lenient n) ∧
      (d.extend children).object = d.object := by
  have hnil : [] ∈ ws := Language.nil_mem_kstar _
  have hadded : ∀ e ∈ children.map (addedElement []), e.Formed digits (value lenient n) d.object := by
    intro e he
    obtain ⟨child, hchild, rfl⟩ := mem_map.mp he
    obtain ⟨hname, hvalid⟩ := validChildren_mem hchildren hchild
    exact addedElement_formed hnil hname hvalid
  obtain ⟨object, pad, elements⟩ := d
  cases elements with
  | nil =>
    cases children with
    | nil => exact ⟨hd, rfl⟩
    | cons child children =>
      obtain ⟨hname, hvalid⟩ := validChildren_mem hchildren mem_cons_self
      have hrest : ∀ e ∈ children.map (addedElement []), e.Formed digits (value lenient n) object :=
        fun e he => hadded e (mem_cons_of_mem _ he)
      exact ⟨⟨hnil, fun _ => rfl, forall_mem_cons.mpr
        ⟨addedElement_formed hd.pad hname hvalid, hrest⟩⟩, rfl⟩
  | cons e elements =>
    refine ⟨⟨hd.pad, fun _ => hd.empty (cons_ne_nil e elements), ?_⟩, rfl⟩
    exact forall_mem_append.mpr ⟨hd.elements, hadded⟩

theorem extend_members (d : Container) (children : List (Option (List Char) × Tree)) :
    (d.extend children).members = d.members ++ children.map addedMember := by
  have hadded : ∀ children : List (Option (List Char) × Tree),
      (children.map (addedElement [])).map (fun e => (e.decoded, e.value)) =
        children.map addedMember := by
    intro children
    rw [map_map]
    exact map_congr_left fun child _ => addedElement_member [] child
  obtain ⟨object, pad, elements⟩ := d
  cases elements with
  | nil =>
    cases children with
    | nil => rfl
    | cons child children =>
      have hfirst := addedElement_member pad child
      change ((addedElement pad child).decoded, (addedElement pad child).value) ::
        (children.map (addedElement [])).map _ = addedMember child :: children.map addedMember
      rw [hfirst, hadded]
  | cons e elements =>
    change ((e :: elements) ++ children.map (addedElement [])).map _ = _
    rw [map_append, hadded]
    rfl

theorem extend_text (d : Container) (children : List (Option (List Char) × Tree)) :
    (d.extend children).text = openText d.object ++ (d.pad ++ elementsText d.elements) ++
      renderChildren (!d.elements.isEmpty) children ++ closeText d.object := by
  obtain ⟨object, pad, elements⟩ := d
  cases elements with
  | nil =>
    cases children with
    | nil =>
      change openText object ++ (pad ++ []) ++ closeText object =
        openText object ++ (pad ++ []) ++ [] ++ closeText object
      rw [append_nil, append_nil]
    | cons child children =>
      obtain ⟨name, tree⟩ := child
      change openText object ++ ([] ++ ((addedElement pad (name, tree)).text ++
        moreText (children.map (addedElement [])))) ++ closeText object =
          openText object ++ (pad ++ []) ++
            renderChildren false ((name, tree) :: children) ++ closeText object
      rw [addedElement_text, moreText_added, renderChildren]
      simp
  | cons e elements =>
    have hmore : ∀ more : List Element, moreText (elements ++ more) =
        moreText elements ++ moreText more := fun more => flatMap_append
    change openText object ++ (pad ++ (e.text ++
      moreText (elements ++ children.map (addedElement [])))) ++ closeText object =
        openText object ++ (pad ++ (e.text ++ moreText elements)) ++
          renderChildren true children ++ closeText object
    rw [hmore, moreText_added]
    simp only [append_assoc]

theorem zbxJsonOpen_unique {text s : List Char} (htext : '\x00' ∉ text) (hs : s ∈ ws)
    (hd : d.Formed digits (value lenient n)) (hlayout : text = s ++ (d.text ++ rest))
    {top : JsonParse} (hopen : zbxJsonOpen text = .ok top) : rest ∈ ws ∧ top = d.opened rest := by
  obtain ⟨d', s', hs', rest', hrest', hlayout', rfl, hd'⟩ := zbxJsonOpen_container htext hopen
  have hstart : ∀ (d : Container) (rest : List Char), isWs (charAt (d.text ++ rest)) = false := by
    intro d rest
    rw [Container.text, append_assoc, append_assoc, charAt_openText]
    cases d.object with
    | false => rfl
    | true => rfl
  have hsame : d.text ++ rest = d'.text ++ rest' := by
    have hskip := congrArg skipWhitespace (hlayout.symm.trans hlayout')
    rwa [skipWhitespace_append hs (hstart d rest), skipWhitespace_append hs' (hstart d' rest')] at hskip
  have hclose : closeText d.object ++ rest = closeText d'.object ++ rest' := by
    have hbracket := zbxJsonRbracket_container le_rfl hd rest
    rw [hsame, zbxJsonRbracket_container le_rfl hd' rest', Option.some_inj] at hbracket
    exact hbracket.symm
  have hrest : rest = rest' := by
    have hclosed : ∀ (object : Bool) (rest : List Char), (closeText object ++ rest).tail = rest := by
      intro object rest
      cases object with
      | false => rfl
      | true => rfl
    have htail := congrArg List.tail hclose
    rwa [hclosed, hclosed] at htail
  refine ⟨hrest ▸ hrest', ?_⟩
  rw [Container.opened, Container.opened, hsame, hclose]

theorem op_formed (hj : Formed j) (op : Op) : Formed (op.apply j) := by
  have hoffset := (Nat.le_add_right _ _).trans hj.offset
  have hstring : ∀ name string type, Formed (zbxJsonAddstring j name string type) := by
    intro name string type
    rw [← zbxJsonAddstringLimit_unlimited]
    exact hj.apply (.addstringLimit name string type 0) (fits_addstring name string type)
  cases op with
  | addobject name | addarray name => exact formed_brackets hj.offset hj.text name
  | addstring name string => exact hstring name (some string) .string
  | adduint64 name value => exact hstring name _ .int
  | close => exact hj.apply .close trivial

theorem ops_formed (hj : Formed j) (ops : List Op) : Formed (ops.foldl Op.apply j) := by
  induction ops generalizing j with
  | nil => exact hj
  | cons op ops ih => exact ih (op_formed hj op)

def Extended (d : Container) (children : List (Option (List Char) × Tree)) (text : List Char) :
    Prop :=
  ∃ (d' : Container) (rest : List Char), zbxJsonOpen text = .ok (d'.opened rest) ∧
    d'.Formed digits (value lenient (zbxMaxJsonDepth + 1)) ∧ d'.object = true ∧
      d'.members = d.members ++ children.map addedMember

theorem validChildren_run (hproper : ProperRun Opened.init ops)
    (htop : (ops.foldl Opened.step Opened.init).outer = []) :
    ValidChildren true (zbxMaxJsonDepth + 1)
      (ops.foldl Opened.step Opened.init).top.children := by
  have hvalid := validFrames_run (o := Opened.init) ⟨trivial, rfl⟩ hproper
  rw [htop] at hvalid
  obtain ⟨hchildren, hobject⟩ := hvalid
  rwa [hobject] at hchildren

section Status

variable {s : List Char}

theorem object_text (hobject : d.object = true) :
    d.text = '\x7b' :: (d.pad ++ elementsText d.elements) ++ ['\x7d'] := by
  rw [Container.text, hobject]
  rfl

theorem status_members (hd : d.Formed digits (value lenient n)) (hobject : d.object = true)
    (hne : d.elements ≠ []) : initWithStatus (s ++ d.text) = .comma := by
  obtain ⟨front, c, trail, htext, hblank, hbracket, htrail⟩ := elements_last le_rfl hd.elements hne
  have hlayout : s ++ d.text = (s ++ '\x7b' :: (d.pad ++ front)) ++ c :: (trail ++ ['\x7d']) := by
    rw [object_text hobject, htext]
    simp
  rw [hlayout]
  exact initWithStatus_comma _ hblank hbracket htrail '\x7d'

theorem status_empty (hd : d.Formed digits (value lenient n)) (hobject : d.object = true)
    (hempty : d.elements = []) : initWithStatus (s ++ d.text) =
      if ∀ b ∈ d.pad, b = ' ' then .empty else .comma := by
  have hlayout : s ++ d.text = s ++ '\x7b' :: (d.pad ++ ['\x7d']) := by
    rw [object_text hobject, hempty, elementsText, append_nil, cons_append]
  rw [hlayout]
  split
  · next hblanks => exact initWithStatus_eq s (by decide) hblanks '\x7d'
  · next hblanks =>
    obtain ⟨front, c, back, hpad, hc, hback⟩ := (split_last (· = ' ') d.pad).resolve_left hblanks
    have hmem : c ∈ d.pad := by
      rw [hpad]
      exact mem_append_right front mem_cons_self
    have htext : s ++ '\x7b' :: (d.pad ++ ['\x7d']) =
        (s ++ '\x7b' :: front) ++ c :: (back ++ ['\x7d']) := by
      rw [hpad]
      simp
    rw [htext, initWithStatus_eq _ hc hback, if_neg (ne_bracket_of_ws hd.pad hmem)]

theorem status_behind (hobject : d.object = true) (hw : w ∈ ws) (x : Char) :
    initWithStatus (s ++ (d.text ++ (w ++ [x]))) = .comma := by
  have hlayout : s ++ (d.text ++ (w ++ [x])) =
      (s ++ '\x7b' :: (d.pad ++ elementsText d.elements)) ++ '\x7d' :: (w ++ [x]) := by
    rw [object_text hobject]
    simp
  rw [hlayout]
  exact initWithStatus_comma _ (by decide) (by decide) hw x

end Status

section Result

variable {s : List Char}

theorem extended_of_clean (hs : s ∈ ws) (hd : d.Formed digits (value lenient (zbxMaxJsonDepth + 1)))
    (hobject : d.object = true) (hclean : d.elements ≠ [] ∨ ∀ b ∈ d.pad, b = ' ')
    (hj : zbxJsonInitWith (s ++ d.text) = some j) (hproper : ProperRun Opened.init ops)
    (htop : (ops.foldl Opened.step Opened.init).outer = []) :
    Extended d (ops.foldl Opened.step Opened.init).top.children (ops.foldl Op.apply j).buffer := by
  have hvalid := validChildren_run hproper htop
  rw [← hobject] at hvalid
  obtain ⟨hformed, hextended⟩ := extend_formed hd hvalid
  have hsplit : s ++ d.text = (s ++ '\x7b' :: (d.pad ++ elementsText d.elements)) ++ ['\x7d'] := by
    rw [object_text hobject, append_assoc]
  have hstatus : decide (initWithStatus (s ++ d.text) = .comma) = !d.elements.isEmpty := by
    cases helements : d.elements with
    | nil =>
      have hblanks := hclean.resolve_left fun hne => hne helements
      rw [status_empty hd hobject helements, if_pos hblanks]
      rfl
    | cons e elements =>
      have hne : d.elements ≠ [] := by
        rw [helements]
        exact cons_ne_nil e elements
      rw [status_members hd hobject hne]
      rfl
  rw [hsplit] at hj hstatus
  have hbuffer : (ops.foldl Op.apply j).buffer =
      s ++ (d.extend (ops.foldl Opened.step Opened.init).top.children).text ++ [] := by
    rw [initWith_run hj hproper htop, hstatus, extend_text, hobject]
    simp [openText, closeText]
  have hdoc : Document lenient s (d.extend (ops.foldl Opened.step Opened.init).top.children).text [] :=
    ⟨hs, mem_container_iff.mpr ⟨_, hformed, rfl⟩, Language.nil_mem_kstar _⟩
  refine ⟨_, [], ?_, hformed, hextended.trans hobject, extend_members d _⟩
  rw [hbuffer, (zbxJsonOpen_document le_rfl hdoc).2, opened_container]

theorem renderChildren_comma_mem (h : children ≠ []) : ',' ∈ renderChildren true children := by
  rw [renderChildren_comma h]
  exact mem_cons_self

theorem comma_not_ws (hw : w ∈ ws) : ',' ∉ w := by
  intro hmem
  exact absurd (mem_kstar_oneOf.mp hw ',' hmem) (by decide)

theorem not_extended_behind (hs : s ∈ ws) (hd : d.Formed digits (value lenient n))
    (hobject : d.object = true) (hw : w ∈ ws)
    (hj : zbxJsonInitWith (s ++ (d.text ++ (w ++ [x]))) = some j) (hformed : Formed j)
    (hproper : ProperRun Opened.init ops)
    (htop : (ops.foldl Opened.step Opened.init).outer = [])
    (hadded : (ops.foldl Opened.step Opened.init).top.children ≠ []) :
    ¬ Extended d (ops.foldl Opened.step Opened.init).top.children
      (ops.foldl Op.apply j).buffer := by
  have hstatus : decide (initWithStatus (s ++ (d.text ++ (w ++ [x]))) = .comma) = true :=
    decide_eq_true (status_behind hobject hw x)
  have hsplit : s ++ (d.text ++ (w ++ [x])) = (s ++ (d.text ++ w)) ++ [x] := by
    simp only [append_assoc]
  rw [hsplit] at hj hstatus
  have hbuffer : (ops.foldl Op.apply j).buffer = s ++ (d.text ++
      (w ++ renderChildren true (ops.foldl Opened.step Opened.init).top.children ++ [x])) := by
    rw [initWith_run hj hproper htop, hstatus]
    simp only [append_assoc]
  rintro ⟨d₀, rest₀, hopen, -⟩
  have hrest := (zbxJsonOpen_unique (ops_formed hformed ops).text hs hd hbuffer hopen).1
  apply comma_not_ws hrest
  exact mem_append_left _ (mem_append_right _ (renderChildren_comma_mem hadded))

theorem not_extended_blank (hs : s ∈ ws) (hd : d.Formed digits (value lenient n))
    (hobject : d.object = true) (hempty : d.elements = []) (hblank : ¬ ∀ b ∈ d.pad, b = ' ')
    (hj : zbxJsonInitWith (s ++ d.text) = some j) (hformed : Formed j)
    (hproper : ProperRun Opened.init ops)
    (htop : (ops.foldl Opened.step Opened.init).outer = [])
    (hadded : (ops.foldl Opened.step Opened.init).top.children ≠ []) :
    ¬ Extended d (ops.foldl Opened.step Opened.init).top.children
      (ops.foldl Op.apply j).buffer := by
  have hstatus : decide (initWithStatus (s ++ d.text) = .comma) = true := by
    rw [status_empty hd hobject hempty, if_neg hblank]
    rfl
  have hsplit : s ++ d.text = (s ++ '\x7b' :: d.pad) ++ ['\x7d'] := by
    rw [object_text hobject, hempty, elementsText, append_nil, append_assoc]
  rw [hsplit] at hj hstatus
  have hbuffer : (ops.foldl Op.apply j).buffer = s ++ '\x7b' :: (d.pad ++ ',' :: (renderChildren false
      (ops.foldl Opened.step Opened.init).top.children ++ ['\x7d'])) := by
    rw [initWith_run hj hproper htop, hstatus, renderChildren_comma hadded]
    simp
  rintro ⟨d₀, rest₀, hopen, -⟩
  obtain ⟨d', s', hs', rest, -, hlayout, -, hd'⟩ :=
    zbxJsonOpen_container (ops_formed hformed ops).text hopen
  have hskip := congrArg skipWhitespace (hbuffer.symm.trans hlayout)
  have hopening : isWs (charAt (d'.text ++ rest)) = false := by
    rw [Container.text, append_assoc, append_assoc, charAt_openText]
    cases d'.object with
    | false => rfl
    | true => rfl
  rw [skipWhitespace_append hs rfl, skipWhitespace_append hs' hopening] at hskip
  have hobject' : d'.object = true := by
    have hchar := congrArg charAt hskip
    rw [Container.text, append_assoc, append_assoc, charAt_openText] at hchar
    cases hcase : d'.object with
    | false =>
      rw [hcase] at hchar
      have hbracket : '\x7b' = '[' := hchar
      exact absurd hbracket (by decide)
    | true => rfl
  have hcomma : ∀ more, skipWhitespace (d.pad ++ ',' :: more) = ',' :: more :=
    fun more => skipWhitespace_append hd.pad rfl
  have hclose : ∀ more, skipWhitespace (d'.pad ++ '\x7d' :: more) = '\x7d' :: more :=
    fun more => skipWhitespace_append hd'.pad rfl
  have htail := congrArg (fun l => skipWhitespace l.tail) hskip
  rw [object_text hobject'] at htail
  simp only [tail_cons, cons_append, hcomma] at htail
  cases helements : d'.elements with
  | nil =>
    rw [helements, elementsText, append_nil, append_assoc, cons_append, hclose] at htail
    cases (cons_eq_cons.mp htail).1
  | cons e elements =>
    have hne : d'.elements ≠ [] := by
      rw [helements]
      exact cons_ne_nil e elements
    have he := hd'.elements e (by rw [helements]; exact mem_cons_self)
    obtain ⟨m, hname⟩ := Option.isSome_iff_exists.mp (he.named.trans hobject')
    rw [hd'.empty hne, nil_append, helements, append_assoc,
      skipWhitespace_elements he elements, Element.front, hname] at htail
    cases (cons_eq_cons.mp htail).1

end Result

/-- An accepted object is extended if something is added to it, if and only if nothing stands behind it
and it has members or no white space other than blanks. -/
theorem zbxJsonInitWith_extends_iff {text : List Char} (htext : '\x00' ∉ text) {top : JsonParse}
    (hopen : zbxJsonOpen text = .ok top) :
    (∃ (s : List Char) (d : Container) (rest : List Char), text = s ++ (d.text ++ rest) ∧ s ∈ ws ∧
      top = d.opened rest ∧ d.Formed digits (value lenient (zbxMaxJsonDepth + 1))) ∧
    ∀ (s : List Char) (d : Container) (rest : List Char), text = s ++ (d.text ++ rest) → s ∈ ws →
      d.Formed digits (value lenient (zbxMaxJsonDepth + 1)) → d.object = true →
      ∀ ops, ProperRun Opened.init ops → (ops.foldl Opened.step Opened.init).outer = [] →
        ∃ j, zbxJsonInitWith text = some j ∧
          (Extended d (ops.foldl Opened.step Opened.init).top.children
              (ops.foldl Op.apply j).buffer ↔
            (ops.foldl Opened.step Opened.init).top.children = [] ∨
              rest = [] ∧ (d.elements ≠ [] ∨ ∀ b ∈ d.pad, b = ' ')) := by
  constructor
  · obtain ⟨d, s, hs, rest, -, hlayout, htop, hd⟩ := zbxJsonOpen_container htext hopen
    exact ⟨s, d, rest, hlayout, hs, htop, hd⟩
  intro s d rest hlayout hs hd hobject ops hproper htop
  obtain ⟨hrest, hbrackets⟩ := zbxJsonOpen_unique htext hs hd hlayout hopen
  have hlong : ¬ text.length < 2 := by
    rw [hlayout, object_text hobject]
    simp only [length_append, length_cons, length_nil]
    omega
  obtain ⟨j, hj⟩ : ∃ j, zbxJsonInitWith text = some j := by
    rw [zbxJsonInitWith, if_neg hlong]
    exact ⟨_, rfl⟩
  have hformed : Formed j := Start.apply_formed (s := .initWith text) htext hj
  refine ⟨j, hj, ?_⟩
  by_cases hadded : (ops.foldl Opened.step Opened.init).top.children = []
  · -- nothing is added, so the text stays as it is
    have hne : text ≠ [] := by
      intro hnil
      rw [hnil] at hlong
      exact hlong (by decide)
    have hsplit := dropLast_append_getLast hne
    have hbuffer : (ops.foldl Op.apply j).buffer = text := by
      rw [← hsplit] at hj
      rw [initWith_run hj hproper htop, hadded, renderChildren, append_nil, hsplit]
    refine iff_of_true ⟨d, rest, ?_, hd, hobject, ?_⟩ (.inl hadded)
    · rw [hbuffer, hopen, hbrackets]
    · rw [hadded, map_nil, append_nil]
  · rw [or_iff_right hadded]
    cases hcase : rest with
    | nil =>
      rw [hcase, append_nil] at hlayout
      rw [hlayout] at hj
      rw [and_iff_right rfl]
      constructor
      · intro hextended
        by_contra hclean
        obtain ⟨hmembers, hblank⟩ := not_or.mp hclean
        exact not_extended_blank hs hd hobject (not_not.mp hmembers) hblank hj hformed hproper htop
          hadded hextended
      · intro hclean
        exact extended_of_clean hs hd hobject hclean hj hproper htop
    | cons b more =>
      have hne : b :: more ≠ [] := cons_ne_nil b more
      have hw : (b :: more).dropLast ∈ ws := by
        rw [hcase] at hrest
        apply mem_kstar_oneOf.mpr
        intro c hc
        exact mem_kstar_oneOf.mp hrest c (mem_of_mem_dropLast hc)
      rw [hcase, ← dropLast_append_getLast hne] at hlayout
      rw [hlayout] at hj
      refine iff_of_false ?_ fun h => hne h.1
      exact not_extended_behind hs hd hobject hw hj hformed hproper htop hadded

theorem zbxJsonInitWith_extends_iff_member :
    ∃ j, zbxJsonInitWith ['\x7b', ' ', '\x7d'] = some j ∧
      Extended ⟨true, [' '], []⟩ [(some ['a'], .string ['b'])]
        (zbxJsonAddstring j (some ['a']) (some ['b']) .string).buffer := by
  have hblank : [' '] ∈ ws := mem_kstar_oneOf.mpr (all_eq_true.mp (by decide))
  have hd : (Container.mk true [' '] []).Formed digits (value lenient (zbxMaxJsonDepth + 1)) :=
    ⟨hblank, fun h => absurd rfl h, nofun⟩
  have hname : ∀ s ∈ some ['a'], '\x00' ∉ s := by
    intro s hs
    rw [← Option.some_inj.mp hs]
    decide
  have hproper : ProperRun Opened.init [.addstring (some ['a']) ['b']] :=
    ⟨⟨⟨rfl, hname, Nat.zero_le _⟩, by decide⟩, trivial⟩
  have hnul : '\x00' ∉ ['\x7b', ' ', '\x7d'] := by decide
  obtain ⟨j, hj, hiff⟩ := (zbxJsonInitWith_extends_iff hnul rfl).2 [] _ [] rfl
    (Language.nil_mem_kstar _) hd rfl _ hproper rfl
  have hpad : ∀ b ∈ [' '], b = ' ' := fun b hb => mem_singleton.mp hb
  exact ⟨j, hj, hiff.mpr (.inr ⟨rfl, .inr hpad⟩)⟩

/-- An empty object with a line break in it. -/
theorem zbxJsonInitWith_newline :
    ¬ ∀ (text : List Char) (top : JsonParse) (j : ZbxJson) (ops : List Op),
      zbxJsonOpen text = .ok top → charAt top.start = '\x7b' → zbxJsonInitWith text = some j →
        ProperRun Opened.init ops → (ops.foldl Opened.step Opened.init).outer = [] →
          ∃ top', zbxJsonOpen (ops.foldl Op.apply j).buffer = .ok top' := by
  intro h
  have hname : ∀ s ∈ some ['a'], '\x00' ∉ s := by
    intro s hs
    rw [← Option.some_inj.mp hs]
    decide
  have hproper : ProperRun Opened.init [.adduint64 (some ['a']) 1] :=
    ⟨⟨rfl, hname, Nat.zero_le _⟩, trivial⟩
  obtain ⟨top, htop⟩ := h ['\x7b', '\n', '\x7d'] _ _ _ rfl rfl rfl hproper rfl
  cases htop

end Zabbix.Json
