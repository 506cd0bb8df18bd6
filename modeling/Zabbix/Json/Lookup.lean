import Zabbix.Json.Navigation

/-!
# Members by name

`zbx_json_pair_by_name` decodes one name after the other into a buffer of its own.
-/

namespace Zabbix.Json

open Option List Zabbix.Expr Zabbix.JsonGrammar Computability

def maxStringLen : ℕ := 2048

def pairLoop (jp : JsonParse) (name : List Char) : ℕ → Option (List Char) → Option (List Char)
  | 0, _ => none
  | fuel + 1, p =>
    match zbxJsonPairNext jp p maxStringLen with
    | none => none
    | some (q, buffer) => if cString buffer = name then some q else pairLoop jp name fuel (some q)

def zbxJsonPairByName (jp : JsonParse) (name : List Char) : Option (List Char) :=
  pairLoop jp name (jp.start.length + 1) none

def firstMember (name ending : List Char) (elements : List Element) : Option (List Char) :=
  ((memberStarts ending elements).find? fun member => member.2 = name).map (·.1)

/-- The value of the first member whose name reads as `name` up to a zero, unless a name in front of it
is too long. -/
def lookup (name ending : List Char) : List Element → Option (List Char)
  | [] => none
  | e :: more =>
    if maxStringLen ≤ e.decoded.length then none
    else if cString e.decoded = name then some (e.value ++ (e.trail ++ (moreText more ++ ending)))
    else lookup name ending more

/-- No member has the name if a name is too long before it is found, and the first member whose name
reads as the name up to a zero has no zero in its name. -/
def Clear (name : List Char) : List Element → Prop
  | [] => True
  | e :: more =>
    if maxStringLen ≤ e.decoded.length then ∀ x ∈ e :: more, x.decoded ≠ name
    else if cString e.decoded = name then e.decoded = name
    else Clear name more

variable {G V : Language Char} {object : Bool} {n : ℕ} {e : Element} {elements more : List Element}
  {c : Container} {name rest ending : List Char} {jp : JsonParse} {fuel : ℕ}

theorem pairLoop_elements (hG : G ≤ digits) (hlong : jp.start.length - jp.last.length ≠ 1)
    {object' : Bool} (hlast : jp.last = closeText object' ++ rest)
    (helements : ∀ x ∈ elements, Element.Formed G (value (pairedSurrogates G) n) true x)
    (hfuel : elements.length < fuel) {q : Option (List Char)}
    (hq : zbxJsonNext jp q = (elementStarts jp.last elements).head?) :
    pairLoop jp name fuel q = lookup name jp.last elements := by
  induction elements generalizing fuel q with
  | nil =>
    obtain ⟨fuel, rfl⟩ := Nat.exists_eq_succ_of_ne_zero (Nat.ne_zero_of_lt hfuel)
    have hnone : zbxJsonPairNext jp q maxStringLen = none := by
      rw [zbxJsonPairNext, hq]
      rfl
    rw [pairLoop, hnone]
    rfl
  | cons e more ih =>
    rw [length_cons] at hfuel
    obtain ⟨fuel, rfl⟩ := Nat.exists_eq_succ_of_ne_zero (Nat.ne_zero_of_lt hfuel)
    obtain ⟨he, hmore⟩ := forall_mem_cons.mp helements
    rw [pairLoop, zbxJsonPairNext_member he hq, lookup]
    by_cases hfits : e.decoded.length < maxStringLen
    · rw [if_pos hfits, if_neg (Nat.not_le.mpr hfits)]
      change (if cString e.decoded = name then _ else _) = _
      rw [ih hmore (Nat.lt_of_succ_lt_succ hfuel) (zbxJsonNext_value hG hlong hlast he hmore)]
    · rw [if_neg hfits, if_pos (Nat.le_of_not_lt hfits)]

theorem zbxJsonPairByName_eq (hG : G ≤ digits) (hc : c.Formed G (value (pairedSurrogates G) n))
    (hobject : c.object = true) (name rest : List Char) :
    zbxJsonPairByName (c.opened rest) name =
      lookup name (closeText c.object ++ rest) c.elements := by
  have hlength := opened_length c rest
  by_cases helements : c.elements = []
  · -- white space between the brackets is no member
    have hnone : zbxJsonPairNext (c.opened rest) none maxStringLen = none := by
      by_cases hpad : c.pad = []
      · have hfirst := zbxJsonNext_first hc rest hpad
        rw [helements] at hfirst
        rw [zbxJsonPairNext, hfirst]
        rfl
      · have hpos := length_pos_iff.mpr hpad
        have htail : (c.opened rest).start.tail = c.pad ++ ('\x7d' :: rest) := by
          rw [Container.opened, Container.text, hobject, helements]
          simp [openText, closeText, elementsText]
        rw [zbxJsonPairNext, zbxJsonNext, if_neg (by omega), bind_some, htail,
          skipWhitespace_append hc.pad rfl]
        rfl
    rw [zbxJsonPairByName, pairLoop, hnone, helements]
    rfl
  · obtain ⟨e, more, hcons⟩ := exists_cons_of_ne_nil helements
    have hpad := hc.empty helements
    have hformed := hc.elements
    have hpos : 0 < (elementsText c.elements).length := by
      rw [hcons] at hformed ⊢
      exact length_elementsText (hformed e mem_cons_self) more
    have hle := length_le_elementsText c.elements
    rw [hobject] at hformed
    exact pairLoop_elements hG (by omega) rfl hformed (by omega) (zbxJsonNext_first hc rest hpad)

theorem length_memberStarts {member : List Char × List Char}
    (hmember : member ∈ memberStarts ending more) :
    member.1.length ≤ (moreText more ++ ending).length := by
  induction more with
  | nil => exact absurd hmember not_mem_nil
  | cons e more ih =>
    obtain rfl | hmember := mem_cons.mp hmember
    · rw [moreText_cons, elementsText, Element.text]
      simp only [length_cons, length_append]
      omega
    · have hle := ih hmember
      rw [moreText_cons, elementsText]
      simp only [length_cons, length_append] at hle ⊢
      omega

theorem firstMember_cons (name ending : List Char) (e : Element) (more : List Element) :
    firstMember name ending (e :: more) =
      if e.decoded = name then some (e.value ++ (e.trail ++ (moreText more ++ ending)))
      else firstMember name ending more := by
  rw [firstMember, memberStarts, List.find?_cons]
  split
  · next hfound =>
    rw [if_pos (of_decide_eq_true hfound)]
    rfl
  · next hfound =>
    rw [if_neg (of_decide_eq_false hfound)]
    rfl

theorem firstMember_none_iff (name ending : List Char) (elements : List Element) :
    firstMember name ending elements = none ↔ ∀ x ∈ elements, x.decoded ≠ name := by
  induction elements with
  | nil => exact iff_of_true rfl nofun
  | cons e more ih =>
    rw [firstMember_cons, forall_mem_cons, ← ih]
    split
    · next hfound => exact iff_of_false nofun fun h => h.1 hfound
    · next hfound => exact ⟨fun h => ⟨hfound, h⟩, fun h => h.2⟩

theorem lookup_eq_iff (hname : '\x00' ∉ name)
    (helements : ∀ x ∈ elements, Element.Formed G (value (pairedSurrogates G) n) object x) :
    lookup name ending elements = firstMember name ending elements ↔ Clear name elements := by
  induction elements with
  | nil => exact iff_of_true rfl trivial
  | cons e more ih =>
    obtain ⟨he, hmore⟩ := forall_mem_cons.mp helements
    rw [lookup, Clear]
    split
    · rw [eq_comm, firstMember_none_iff]
    · split
      · next hstring =>
        rw [firstMember_cons]
        split
        · next hfound => exact iff_of_true rfl hfound
        · next hfound =>
          -- a pointer to a later member is another one
          refine iff_of_false ?_ hfound
          intro heq
          obtain ⟨member, hmem, hpointer⟩ := map_eq_some_iff.mp heq.symm
          have hle := length_memberStarts (mem_of_find?_eq_some hmem)
          have hvalue : e.value ≠ [] := by
            intro hnil
            have hopens := opens_value n e.value he.value [']']
            rw [hnil] at hopens
            exact hopens.2 rfl
          have hpos := length_pos_iff.mpr hvalue
          rw [hpointer] at hle
          simp only [length_append] at hle
          omega
      · next hstring =>
        have hother : e.decoded ≠ name := by
          intro hfound
          rw [hfound, cString_eq hname] at hstring
          exact hstring rfl
        rw [firstMember_cons, if_neg hother]
        exact ih hmore

def hidden : Container where
  object := true
  pad := []
  elements :=
    [⟨[], some ⟨replicate maxStringLen ['x'], [], []⟩, ['1'], []⟩,
      ⟨[], some ⟨[['a']], [], []⟩, ['2'], []⟩]

theorem hidden_formed (hdigit : ['1'] ∈ V ∧ ['2'] ∈ V) : hidden.Formed G V := by
  have hnil : [] ∈ ws := Language.nil_mem_kstar _
  have hchar : ∀ c, isUnescaped c → [c] ∈ char (pairedSurrogates G) := fun c hc => .inl ⟨c, hc, rfl⟩
  refine ⟨hnil, fun _ => rfl, ?_⟩
  rintro e (_ | ⟨_, _ | ⟨_, ⟨⟩⟩⟩)
  · refine ⟨hnil, rfl, ?_, hdigit.1, hnil⟩
    intro m hm
    rw [← some_inj.mp hm]
    refine ⟨?_, hnil, hnil⟩
    intro w hw
    rw [eq_of_mem_replicate hw]
    exact hchar 'x' (by decide)
  · refine ⟨hnil, rfl, ?_, hdigit.2, hnil⟩
    intro m hm
    rw [← some_inj.mp hm]
    refine ⟨?_, hnil, hnil⟩
    intro w hw
    rw [mem_singleton.mp hw]
    exact hchar 'a' (by decide)

end Zabbix.Json
