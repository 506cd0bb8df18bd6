import Zabbix.Json.Render

/-!
# What the builder builds

The objects and arrays that are open, the innermost first, with their children so far.
-/

namespace Zabbix.Json

open List Zabbix.Expr Zabbix.JsonGrammar Computability

variable {len : ℕ} {text : List Char} {child : Tree} {ops : List Op}

structure Frame where
  object : Bool
  name : Option (List Char)
  children : List (Option (List Char) × Tree)

def Frame.close (f : Frame) : Option (List Char) × Tree := (f.name, .node f.object f.children)

def Frame.add (f : Frame) (child : Option (List Char) × Tree) : Frame :=
  { f with children := f.children ++ [child] }

structure Opened where
  top : Frame
  outer : List Frame

def Opened.add (o : Opened) (child : Option (List Char) × Tree) : Opened :=
  { o with top := o.top.add child }

def Opened.push (o : Opened) (object : Bool) (name : Option (List Char)) : Opened where
  top := { object := object, name := name, children := [] }
  outer := o.top :: o.outer

def Opened.step (o : Opened) : Op → Opened
  | .addobject name => o.push true name
  | .addarray name => o.push false name
  | .addstring name string => o.add (name, .string string)
  | .adduint64 name value => o.add (name, .number (Nat.toDigits 10 value.toNat))
  | .close =>
    match o.outer with
    | [] => o
    | f :: outer => { top := f.add o.top.close, outer := outer }

def Opened.init : Opened where
  top := { object := true, name := none, children := [] }
  outer := []

def closeAll (top : Frame) : List Frame → Tree
  | [] => .node top.object top.children
  | f :: outer => closeAll (f.add top.close) outer

def built (ops : List Op) : Tree :=
  let o := ops.foldl Opened.step Opened.init
  closeAll o.top o.outer

/-- A new child has a name if and only if it is a member of an object, and the parser reads as
many levels. -/
def Opened.Admits (o : Opened) (name : Option (List Char)) : Prop :=
  name.isSome = o.top.object ∧ (∀ s ∈ name, '\x00' ∉ s) ∧ o.outer.length ≤ zbxMaxJsonDepth

def Opened.Proper (o : Opened) : Op → Prop
  | .addobject name | .addarray name | .adduint64 name _ => o.Admits name
  | .addstring name string => o.Admits name ∧ '\x00' ∉ string
  | .close => True

def ProperRun (o : Opened) : List Op → Prop
  | [] => True
  | op :: ops => o.Proper op ∧ ProperRun (o.step op) ops

variable {j : ZbxJson} {o : Opened} {name : Option (List Char)} {object : Bool}

def commaText (f : Frame) : List Char := if f.children = [] then [] else [',']

def before (top : Frame) : List Frame → List Char
  | [] => openText top.object ++ renderChildren false top.children
  | f :: outer =>
    before f outer ++ commaText f ++ nameText top.name ++ openText top.object ++
      renderChildren false top.children

def after (top : Frame) : List Frame → List Char
  | [] => closeText top.object
  | f :: outer => closeText top.object ++ after f outer

theorem renderChildren_append (comma : Bool) (children : List (Option (List Char) × Tree))
    (name : Option (List Char)) (child : Tree) :
    renderChildren comma (children ++ [(name, child)]) = renderChildren comma children ++
      (if comma = true ∨ children ≠ [] then [','] else []) ++ nameText name ++ child.render := by
  induction children generalizing comma with
  | nil => simp [renderChildren]
  | cons first children ih => simp [renderChildren, ih]

theorem before_add (top : Frame) (outer : List Frame) (name : Option (List Char)) (child : Tree) :
    before (top.add (name, child)) outer =
      before top outer ++ commaText top ++ nameText name ++ child.render := by
  cases outer <;> simp [before, Frame.add, renderChildren_append, commaText]

theorem text_closeAll (top : Frame) (outer : List Frame) :
    before top outer ++ after top outer = (closeAll top outer).render := by
  induction outer generalizing top with
  | nil => simp [before, after, closeAll, Tree.render]
  | cons f outer ih =>
    have hafter : after (f.add top.close) outer = after f outer := by cases outer <;> rfl
    rw [closeAll, ← ih, hafter, Frame.close, before_add]
    simp [before, after, Tree.render]

structure Holds (j : ZbxJson) (o : Opened) : Prop where
  buffer : j.buffer = before o.top o.outer ++ after o.top o.outer
  offset : j.bufferOffset = (before o.top o.outer).length
  status : j.status = if o.top.children = [] then .empty else .comma
  level : j.level = o.outer.length + 1

theorem stringsize_eq (s : Option (List Char)) (type : JsonType) :
    zbxJsonStringsize s type = (zbxJsonInsstring s type).length := by
  have hchars : ∀ w : List Char, (w.map charSize).sum = (w.flatMap insChar).length := by
    intro w
    rw [length_flatMap]
    exact congrArg List.sum (map_congr_left fun c _ => charSize_eq c)
  rw [zbxJsonStringsize, zbxJsonInsstring, hchars]
  split_ifs <;> simp

theorem startLen_eq (j : ZbxJson) (name : Option (List Char)) :
    startLen j name = (startText j name).length := by
  cases name <;> simp [startLen, startText, stringsize_eq] <;> split_ifs <;> rfl

theorem Holds.startText_eq (h : Holds j o) (hname : ∀ s ∈ name, '\x00' ∉ s) :
    startText j name = commaText o.top ++ nameText name := by
  cases name with
  | none => simp [startText, h.status, commaText, nameText]
  | some s => simp [startText, h.status, commaText, nameText, zbxJsonInsstring_string (hname s rfl)]

theorem writeAt_moveEnd (hj : j.bufferOffset ≤ j.buffer.length) (hlen : len = text.length) :
    writeAt (moveEnd j len) j.bufferOffset text =
      j.buffer.take j.bufferOffset ++ text ++ j.buffer.drop j.bufferOffset := by
  have hfront : (j.buffer.take j.bufferOffset).length = j.bufferOffset := by
    rw [length_take, Nat.min_eq_left hj]
  have htake : (j.buffer.take j.bufferOffset ++ replicate len '\x00' ++
      j.buffer.drop j.bufferOffset).take j.bufferOffset = j.buffer.take j.bufferOffset := by
    rw [append_assoc, take_left' hfront]
  have hdrop : (j.buffer.take j.bufferOffset ++ replicate len '\x00' ++
      j.buffer.drop j.bufferOffset).drop (j.bufferOffset + text.length) =
        j.buffer.drop j.bufferOffset := by
    apply drop_left'
    rw [length_append, hfront, length_replicate, hlen]
  rw [writeAt, moveEnd, htake, hdrop]

def brackets (object : Bool) : List Char := if object then ['\x7b', '\x7d'] else ['[', ']']

theorem length_brackets (object : Bool) : (brackets object).length = 2 := by cases object <;> rfl

def ZbxJson.insert (j : ZbxJson) (text : List Char) (step : ℕ) (status : JsonStatus)
    (levels : ℕ) : ZbxJson where
  buffer := j.buffer.take j.bufferOffset ++ text ++ j.buffer.drop j.bufferOffset
  bufferOffset := j.bufferOffset + step
  status := status
  level := j.level + levels

theorem addContainer_eq (hj : j.bufferOffset ≤ j.buffer.length) (name : Option (List Char))
    (object : Bool) : addContainer j name object =
      j.insert (startText j name ++ brackets object)
        ((startText j name ++ brackets object).length - 1) .empty 1 := by
  have hlen : 2 + startLen j name = (startText j name ++ brackets object).length := by
    rw [length_append, length_brackets, startLen_eq, Nat.add_comm]
  have hpos : 0 < (startText j name ++ brackets object).length := by omega
  rw [addContainer]
  change ZbxJson.mk (writeAt (moveEnd j (2 + startLen j name)) j.bufferOffset
    (startText j name ++ brackets object)) (j.bufferOffset +
      (startText j name ++ brackets object).length - 1) .empty (j.level + 1) = _
  rw [writeAt_moveEnd hj hlen, Nat.add_sub_assoc hpos]
  rfl

theorem zbxJsonAddstring_eq (hj : j.bufferOffset ≤ j.buffer.length) (name string : Option (List Char))
    (type : JsonType) : zbxJsonAddstring j name string type =
      j.insert (startText j name ++ zbxJsonInsstring string type)
        (startText j name ++ zbxJsonInsstring string type).length .comma 0 := by
  have hlen : startLen j name + zbxJsonStringsize string type =
      (startText j name ++ zbxJsonInsstring string type).length := by
    rw [length_append, startLen_eq, stringsize_eq]
  rw [zbxJsonAddstring, writeAt_moveEnd hj hlen]
  rfl

theorem Holds.writeAt_eq (h : Holds j o) (hlen : len = text.length) :
    writeAt (moveEnd j len) j.bufferOffset text =
      before o.top o.outer ++ text ++ after o.top o.outer := by
  have hle : j.bufferOffset ≤ j.buffer.length := by
    rw [h.buffer, h.offset, length_append]
    exact Nat.le_add_right _ _
  rw [writeAt_moveEnd hle hlen, h.buffer, h.offset, take_left, drop_left]

theorem Holds.push (h : Holds j o) (hname : ∀ s ∈ name, '\x00' ∉ s) (object : Bool) :
    Holds (addContainer j name object) (o.push object name) := by
  have hstart := h.startText_eq hname
  have htext : (if object then ['\x7b', '\x7d'] else ['[', ']']) =
      openText object ++ closeText object := by
    cases object <;> rfl
  have hlen : 2 + startLen j name =
      (startText j name ++ (openText object ++ closeText object)).length := by
    rw [startLen_eq]
    cases object <;> simp [openText, closeText] <;> omega
  have hone : (closeText object).length = 1 := by cases object <;> rfl
  rw [addContainer, htext]
  constructor
  · rw [h.writeAt_eq hlen, hstart]
    simp [Opened.push, before, after, renderChildren]
  · rw [h.offset, hstart]
    simp only [Opened.push, before, renderChildren, length_append, length_nil, hone]
    omega
  · rfl
  · rw [h.level]
    rfl

theorem Holds.add (h : Holds j o) (hname : ∀ s ∈ name, '\x00' ∉ s) {string : List Char}
    {type : JsonType} (hchild : zbxJsonInsstring (some string) type = child.render) :
    Holds (zbxJsonAddstring j name (some string) type) (o.add (name, child)) := by
  have hstart := h.startText_eq hname
  have hlen : startLen j name + zbxJsonStringsize (some string) type =
      (startText j name ++ zbxJsonInsstring (some string) type).length := by
    rw [startLen_eq, stringsize_eq, length_append]
  have hafter : after (o.top.add (name, child)) o.outer = after o.top o.outer := by
    cases o.outer <;> rfl
  constructor
  · rw [zbxJsonAddstring, h.writeAt_eq hlen, hstart, hchild, Opened.add, before_add, hafter]
    simp
  · rw [zbxJsonAddstring, h.offset, hstart, hchild, Opened.add, before_add]
    simp only [length_append]
    omega
  · simp [zbxJsonAddstring, Opened.add, Frame.add]
  · rw [zbxJsonAddstring, h.level]
    rfl

theorem insChar_digit {c : Char} (hc : isDigit c) : insChar c = [c] := by
  have hcontrol : ¬c ≤ '\x1f' := by
    have hcodes : '0'.toNat = 48 ∧ '\x1f'.toNat = 31 := by decide
    simp only [isDigit, Bool.and_eq_true, decide_eq_true_eq, char_le_iff] at hc ⊢
    omega
  have hne : ∀ d : Char, ¬isDigit d → c ≠ d := by
    rintro d hd rfl
    exact hd hc
  simp [insChar, hcontrol, hne '"' (by decide), hne '\\' (by decide), hne '\x08' (by decide),
    hne '\x0c' (by decide), hne '\n' (by decide), hne '\r' (by decide), hne '\t' (by decide)]

theorem zbxJsonInsstring_digits {w : List Char} (hw : w ∈ digits) :
    zbxJsonInsstring (some w) .int = w := by
  have hdigit := mem_kstar_oneOf.mp hw
  have hzero : '\x00' ∉ w := fun h => absurd (hdigit _ h) (by decide)
  have hchars : w.flatMap insChar = w := by
    rw [flatMap_congr fun c hc => insChar_digit (hdigit c hc), flatMap_singleton']
  simp [zbxJsonInsstring, cString_eq hzero, hchars]

theorem digitChar_isDigit : ∀ n < 10, isDigit n.digitChar ∧ (0 < n → n.digitChar ≠ '0') := by decide

theorem toDigits_mem (n : ℕ) (hn : 0 < n) :
    Nat.toDigits 10 n ∈ oneOf (fun c => isDigit c && c ≠ '0') * digits := by
  induction n using Nat.strong_induction_on with
  | _ n ih =>
    by_cases hlt : n < 10
    · rw [Nat.toDigits_of_lt_base hlt]
      have hdigit := digitChar_isDigit n hlt
      exact ⟨_, ⟨_, by simp [hdigit.1, hdigit.2 hn], rfl⟩, [], Language.nil_mem_kstar _, rfl⟩
    · rw [Nat.toDigits_of_base_le (by omega) (by omega)]
      obtain ⟨first, hfirst, ds, hds, happend⟩ := ih (n / 10) (by omega) (by omega)
      have hdigit := digitChar_isDigit (n % 10) (by omega)
      refine ⟨first, hfirst, ds ++ [(n % 10).digitChar], mem_kstar_oneOf.mpr ?_, ?_⟩
      · intro c hc
        rcases mem_append.mp hc with hc | hc
        · exact mem_kstar_oneOf.mp hds c hc
        · rw [mem_singleton.mp hc]
          exact hdigit.1
      · rw [← happend]
        simp

theorem toDigits_mem_int (n : ℕ) : Nat.toDigits 10 n ∈ int := by
  rcases Nat.eq_zero_or_pos n with rfl | hn
  · exact .inl rfl
  · exact .inr (toDigits_mem n hn)

theorem Holds.step (h : Holds j o) {op : Op} (hproper : o.Proper op) :
    Holds (op.apply j) (o.step op) := by
  cases op with
  | addobject name => exact h.push hproper.2.1 true
  | addarray name => exact h.push hproper.2.1 false
  | addstring name string => exact h.add hproper.1.2.1 (zbxJsonInsstring_string hproper.2)
  | adduint64 name value =>
    exact h.add hproper.2.1 (zbxJsonInsstring_digits (int_digits (toDigits_mem_int _)).1)
  | close =>
    obtain ⟨top, outer⟩ := o
    cases outer with
    | nil =>
      have hlevel : j.level = 1 := h.level
      simpa [Op.apply, zbxJsonClose, hlevel, Opened.step] using h
    | cons f outer =>
      have hlevel : j.level ≠ 1 := by
        rw [h.level]
        simp
      have hafter : after (f.add top.close) outer = after f outer := by cases outer <;> rfl
      have hone : (closeText top.object).length = 1 := by cases top.object <;> rfl
      have hbefore : before (f.add top.close) outer =
          before top (f :: outer) ++ closeText top.object := by
        simp [Frame.close, before_add, before, Tree.render]
      have hclose : Op.apply j .close =
          { j with
            level := j.level - 1
            bufferOffset := j.bufferOffset + 1
            status := .comma } := by
        simp [Op.apply, zbxJsonClose, hlevel]
      rw [hclose]
      constructor
      · rw [Opened.step, hafter, hbefore, h.buffer]
        simp [after]
      · rw [Opened.step, hbefore, length_append, hone, h.offset]
      · simp [Opened.step, Frame.add]
      · rw [Opened.step, h.level]
        rfl

theorem holds_init : Holds zbxJsonInit Opened.init := by constructor <;> rfl

theorem Holds.run (h : Holds j o) (hproper : ProperRun o ops) :
    Holds (ops.foldl Op.apply j) (ops.foldl Opened.step o) := by
  induction ops generalizing j o with
  | nil => exact h
  | cons op ops ih => exact ih (h.step hproper.1) hproper.2

theorem build_buffer (hproper : ProperRun Opened.init ops) :
    (build ops).buffer = (built ops).render := by
  have h := holds_init.run hproper
  rw [build, h.buffer, text_closeAll]
  rfl

def ValidFrames (top : Frame) : List Frame → Prop
  | [] => ValidChildren top.object (zbxMaxJsonDepth + 1) top.children ∧ top.object = true
  | f :: outer =>
    ValidChildren top.object (zbxMaxJsonDepth - outer.length) top.children ∧
      top.name.isSome = f.object ∧ (∀ s ∈ top.name, '\x00' ∉ s) ∧ outer.length ≤ zbxMaxJsonDepth ∧
      ValidFrames f outer

theorem validChildren_append {n : ℕ} {children : List (Option (List Char) × Tree)}
    (h : ValidChildren object n children) (hname : name.isSome = object)
    (hzero : ∀ s ∈ name, '\x00' ∉ s) (hchild : child.Valid n) :
    ValidChildren object n (children ++ [(name, child)]) := by
  induction children with
  | nil => exact ⟨hname, hzero, hchild, trivial⟩
  | cons first children ih => exact ⟨h.1, h.2.1, h.2.2.1, ih h.2.2.2⟩

variable {top : Frame} {outer : List Frame}

theorem ValidFrames.add (h : ValidFrames top outer) (hname : name.isSome = top.object)
    (hzero : ∀ s ∈ name, '\x00' ∉ s) (hchild : child.Valid (zbxMaxJsonDepth + 1 - outer.length)) :
    ValidFrames (top.add (name, child)) outer := by
  cases outer with
  | nil => exact ⟨validChildren_append h.1 hname hzero hchild, h.2⟩
  | cons f outer =>
    have hdepth : zbxMaxJsonDepth + 1 - (f :: outer).length = zbxMaxJsonDepth - outer.length := by
      rw [length_cons]
      omega
    rw [hdepth] at hchild
    exact ⟨validChildren_append h.1 hname hzero hchild, h.2⟩

theorem ValidFrames.close {f : Frame} (h : ValidFrames top (f :: outer)) :
    ValidFrames (f.add top.close) outer := by
  obtain ⟨hchildren, hname, hzero, hdepth, hframes⟩ := h
  refine hframes.add hname hzero ⟨by omega, ?_⟩
  rwa [show zbxMaxJsonDepth + 1 - outer.length - 1 = zbxMaxJsonDepth - outer.length by omega]

theorem ValidFrames.step (h : ValidFrames o.top o.outer) {op : Op} (hproper : o.Proper op) :
    ValidFrames (o.step op).top (o.step op).outer := by
  have hpush : ∀ object name, o.Admits name → ValidFrames (o.push object name).top
      (o.push object name).outer := by
    intro object name hadmits
    exact ⟨trivial, hadmits.1, hadmits.2.1, hadmits.2.2, h⟩
  cases op with
  | addobject name => exact hpush true name hproper
  | addarray name => exact hpush false name hproper
  | addstring name string =>
    obtain ⟨⟨hname, hzero, hdepth⟩, hstring⟩ := hproper
    exact h.add hname hzero ⟨by omega, hstring⟩
  | adduint64 name value =>
    obtain ⟨hname, hzero, hdepth⟩ := hproper
    exact h.add hname hzero ⟨by omega, toDigits_mem_int _⟩
  | close =>
    obtain ⟨top, outer⟩ := o
    cases outer with
    | nil => exact h
    | cons f outer => exact h.close

theorem validFrames_run (h : ValidFrames o.top o.outer) (hproper : ProperRun o ops) :
    ValidFrames (ops.foldl Opened.step o).top (ops.foldl Opened.step o).outer := by
  induction ops generalizing o with
  | nil => exact h
  | cons op ops ih => exact ih (h.step hproper.1) hproper.2

theorem closeAll_valid (h : ValidFrames top outer) :
    ∃ children, closeAll top outer = .node true children ∧
      ValidChildren true (zbxMaxJsonDepth + 1) children := by
  induction outer generalizing top with
  | nil =>
    obtain ⟨hchildren, hobject⟩ := h
    rw [hobject] at hchildren
    exact ⟨top.children, by rw [closeAll, hobject], hchildren⟩
  | cons f outer ih => exact ih h.close

theorem built_valid (hproper : ProperRun Opened.init ops) :
    ∃ children, built ops = .node true children ∧
      ValidChildren true (zbxMaxJsonDepth + 1) children :=
  closeAll_valid (validFrames_run (o := Opened.init) ⟨trivial, rfl⟩ hproper)

end Zabbix.Json
