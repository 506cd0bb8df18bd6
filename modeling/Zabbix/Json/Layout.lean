import Zabbix.Json.RoundTrip

/-!
# The layout of a JSON text

The elements of an object or an array with the white space around them.
-/

namespace Zabbix.Json

open List Zabbix.Expr Zabbix.JsonGrammar Computability

/-- A name by its characters as they are written, with the white space around the colon. -/
structure Name where
  chars : List (List Char)
  before : List Char
  behind : List Char

def Name.token (m : Name) : List Char := '"' :: (m.chars.flatten ++ ['"'])

def Name.text (m : Name) : List Char := m.token ++ m.before ++ ':' :: m.behind

structure Element where
  lead : List Char
  name : Option Name
  value : List Char
  trail : List Char

def Element.front (e : Element) : List Char := e.name.elim [] Name.text

def Element.text (e : Element) : List Char := e.lead ++ (e.front ++ (e.value ++ e.trail))

def moreText (elements : List Element) : List Char := elements.flatMap fun e => ',' :: e.text

def elementsText : List Element → List Char
  | [] => []
  | e :: elements => e.text ++ moreText elements

/-- An object or an array; `pad` is what an empty one has between its brackets. -/
structure Container where
  object : Bool
  pad : List Char
  elements : List Element

def Container.text (c : Container) : List Char :=
  openText c.object ++ (c.pad ++ elementsText c.elements) ++ closeText c.object

variable {F V : Language Char} {object : Bool} {w : List Char} {e : Element}
  {elements : List Element} {c : Container}

structure Name.Formed (F : Language Char) (m : Name) : Prop where
  chars : ∀ w ∈ m.chars, w ∈ char (pairedSurrogates F)
  before : m.before ∈ ws
  behind : m.behind ∈ ws

structure Element.Formed (F V : Language Char) (object : Bool) (e : Element) : Prop where
  lead : e.lead ∈ ws
  named : e.name.isSome = object
  name : ∀ m ∈ e.name, m.Formed F
  value : e.value ∈ V
  trail : e.trail ∈ ws

structure Container.Formed (F V : Language Char) (c : Container) : Prop where
  pad : c.pad ∈ ws
  empty : c.elements ≠ [] → c.pad = []
  elements : ∀ e ∈ c.elements, e.Formed F V c.object

theorem moreText_cons (e : Element) (elements : List Element) :
    moreText (e :: elements) = ',' :: elementsText (e :: elements) := rfl

def itemsOf (F : Language Char) (object : Bool) (V : Language Char) : Language Char :=
  if object then member (pairedSurrogates F) V else ws * V * ws

theorem mem_string_iff : w ∈ string (pairedSurrogates F) ↔
    ∃ chars : List (List Char), (∀ x ∈ chars, x ∈ char (pairedSurrogates F)) ∧
      '"' :: (chars.flatten ++ ['"']) = w := by
  constructor
  · intro hw
    obtain ⟨_, ⟨_, rfl, text, htext, rfl⟩, _, rfl, rfl⟩ := hw
    obtain ⟨chars, rfl, hchars⟩ := Language.mem_kstar.mp htext
    exact ⟨chars, hchars, rfl⟩
  · intro h
    obtain ⟨chars, hchars, rfl⟩ := h
    exact ⟨_, ⟨['"'], rfl, _, Language.join_mem_kstar hchars, rfl⟩, ['"'], rfl, rfl⟩

theorem mem_itemsOf_iff : w ∈ itemsOf F object V ↔ ∃ e : Element, e.Formed F V object ∧ e.text = w := by
  cases object with
  | false =>
    constructor
    · intro hw
      obtain ⟨_, ⟨lead, hlead, value, hvalue, rfl⟩, trail, htrail, rfl⟩ := hw
      refine ⟨⟨lead, none, value, trail⟩, ⟨hlead, rfl, nofun, hvalue, htrail⟩, ?_⟩
      simp only [Element.text, Element.front, Option.elim, nil_append, append_assoc]
    · intro h
      obtain ⟨⟨lead, name, value, trail⟩, he, rfl⟩ := h
      have hname : name = none := Option.not_isSome_iff_eq_none.mp (Bool.eq_false_iff.mp he.named)
      refine ⟨lead ++ value, ⟨lead, he.lead, value, he.value, rfl⟩, trail, he.trail, ?_⟩
      simp only [Element.text, Element.front, hname, Option.elim, nil_append, append_assoc]
  | true =>
    constructor
    · intro hw
      obtain ⟨_, ⟨_, ⟨_, ⟨_, ⟨_, ⟨lead, hlead, token, htoken, rfl⟩, before, hbefore, rfl⟩, _, rfl,
        rfl⟩, behind, hbehind, rfl⟩, value, hvalue, rfl⟩, trail, htrail, rfl⟩ := hw
      obtain ⟨chars, hchars, rfl⟩ := mem_string_iff.mp htoken
      refine ⟨⟨lead, some ⟨chars, before, behind⟩, value, trail⟩, ⟨hlead, rfl, ?_, hvalue, htrail⟩, ?_⟩
      · intro m hm
        rw [← Option.some_inj.mp hm]
        exact ⟨hchars, hbefore, hbehind⟩
      · simp [Element.text, Element.front, Name.text, Name.token]
    · intro h
      obtain ⟨⟨lead, name, value, trail⟩, he, rfl⟩ := h
      obtain ⟨m, rfl⟩ := Option.isSome_iff_exists.mp he.named
      have hm := he.name m rfl
      have htoken : m.token ∈ string (pairedSurrogates F) := mem_string_iff.mpr ⟨m.chars, hm.chars, rfl⟩
      refine ⟨_, ⟨_, ⟨_, ⟨_, ⟨_, ⟨lead, he.lead, m.token, htoken, rfl⟩, m.before, hm.before, rfl⟩,
        [':'], rfl, rfl⟩, m.behind, hm.behind, rfl⟩, value, he.value, rfl⟩, trail, he.trail, ?_⟩
      simp [Element.text, Element.front, Name.text, Name.token]

theorem mem_separated_iff : w ∈ separated ',' (itemsOf F object V) ↔
    ∃ e elements, (∀ x ∈ e :: elements, Element.Formed F V object x) ∧
      elementsText (e :: elements) = w := by
  constructor
  · intro hw
    apply separated_induction (P := fun w => ∃ e elements,
      (∀ x ∈ e :: elements, Element.Formed F V object x) ∧ elementsText (e :: elements) = w) ?_ ?_ hw
    · intro w hw
      obtain ⟨e, he, rfl⟩ := mem_itemsOf_iff.mp hw
      refine ⟨e, [], ?_, append_nil _⟩
      intro x hx
      rw [mem_singleton.mp hx]
      exact he
    · intro w hw v hv ih
      obtain ⟨e, he, rfl⟩ := mem_itemsOf_iff.mp hw
      obtain ⟨e', elements, helements, rfl⟩ := ih
      exact ⟨e, e' :: elements, forall_mem_cons.mpr ⟨he, helements⟩, rfl⟩
  · intro h
    obtain ⟨e, elements, helements, rfl⟩ := h
    induction elements generalizing e with
    | nil =>
      have hitem := mem_itemsOf_iff.mpr ⟨e, helements e mem_cons_self, rfl⟩
      rw [elementsText, moreText, flatMap_nil, append_nil]
      exact mem_separated_of_mem hitem
    | cons e' elements ih =>
      obtain ⟨he, hrest⟩ := forall_mem_cons.mp helements
      have hitem := mem_itemsOf_iff.mpr ⟨e, he, rfl⟩
      rw [elementsText, moreText_cons]
      exact append_mem_separated hitem (ih e' hrest)

theorem mem_bodies_iff (object : Bool) : w ∈ ws + separated ',' (itemsOf F object V) ↔
    ∃ c : Container, c.object = object ∧ c.Formed F V ∧ c.pad ++ elementsText c.elements = w := by
  constructor
  · intro hw
    obtain hpad | hitems := hw
    · exact ⟨⟨object, w, []⟩, rfl, ⟨hpad, fun h => absurd rfl h, nofun⟩, append_nil w⟩
    · obtain ⟨e, elements, helements, rfl⟩ := mem_separated_iff.mp hitems
      exact ⟨⟨object, [], e :: elements⟩, rfl,
        ⟨Language.nil_mem_kstar _, fun _ => rfl, helements⟩, rfl⟩
  · intro h
    obtain ⟨⟨_, pad, elements⟩, rfl, hc, rfl⟩ := h
    cases elements with
    | nil =>
      left
      change pad ++ [] ∈ ws
      rw [append_nil]
      exact hc.pad
    | cons e elements =>
      right
      have hpad : pad = [] := hc.empty (cons_ne_nil e elements)
      rw [hpad]
      exact mem_separated_iff.mpr ⟨e, elements, hc.elements, rfl⟩

theorem mem_container_iff : w ∈ container (pairedSurrogates F) V ↔
    ∃ c : Container, c.Formed F V ∧ c.text = w := by
  constructor
  · intro hw
    obtain ⟨_, ⟨_, rfl, body, hbody, rfl⟩, _, rfl, rfl⟩ | ⟨_, ⟨_, rfl, body, hbody, rfl⟩, _, rfl, rfl⟩ :=
      hw
    · obtain ⟨c, hobject, hc, rfl⟩ := (mem_bodies_iff false).mp hbody
      exact ⟨c, hc, by rw [Container.text, hobject]; rfl⟩
    · obtain ⟨c, hobject, hc, rfl⟩ := (mem_bodies_iff true).mp hbody
      exact ⟨c, hc, by rw [Container.text, hobject]; rfl⟩
  · intro h
    obtain ⟨⟨object, pad, elements⟩, hc, rfl⟩ := h
    have hbody := (mem_bodies_iff object).mpr ⟨_, rfl, hc, rfl⟩
    cases object with
    | false => exact .inl ⟨_, ⟨['['], rfl, _, hbody, rfl⟩, [']'], rfl, rfl⟩
    | true => exact .inr ⟨_, ⟨['\x7b'], rfl, _, hbody, rfl⟩, ['\x7d'], rfl, rfl⟩

end Zabbix.Json
