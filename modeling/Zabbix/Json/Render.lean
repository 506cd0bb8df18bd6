import Zabbix.Json.Exactness
import Zabbix.Json.Reader

/-!
# Texts of trees

The text of a tree as the builder writes it: what the parser accepts of it, and how the functions
that read a text go over it.
-/

namespace Zabbix.Json

open List Zabbix.Expr Zabbix.JsonGrammar Computability

variable {rest : List Char} {c : Char}

theorem control_escape : ∀ n < 32,
    isHex (zbxNum2hex ((n >>> 4) &&& 0xf)) ∧ isHex (zbxNum2hex (n &&& 0xf)) ∧
      hexNumber ['0', '0', zbxNum2hex ((n >>> 4) &&& 0xf), zbxNum2hex (n &&& 0xf)] = n := by
  decide

theorem insChar_cases (c : Char) :
    (isUnescaped c ∧ insChar c = [c]) ∨
    (∃ e, isShortEscape e ∧ shortEscape e = some c ∧ insChar c = ['\\', e]) ∨
    ∃ w ∈ hex4, hexNumber w = c.toNat ∧ c.toNat < 32 ∧ insChar c = '\\' :: 'u' :: w := by
  unfold insChar
  split_ifs with h1 h2 h3 h4 h5 h6 h7 h8
  · exact .inr (.inl ⟨'"', rfl, by rw [h1]; rfl, rfl⟩)
  · exact .inr (.inl ⟨'\\', rfl, by rw [h2]; rfl, rfl⟩)
  · exact .inr (.inl ⟨'b', rfl, by rw [h3]; rfl, rfl⟩)
  · exact .inr (.inl ⟨'f', rfl, by rw [h4]; rfl, rfl⟩)
  · exact .inr (.inl ⟨'n', rfl, by rw [h5]; rfl, rfl⟩)
  · exact .inr (.inl ⟨'r', rfl, by rw [h6]; rfl, rfl⟩)
  · exact .inr (.inl ⟨'t', rfl, by rw [h7]; rfl, rfl⟩)
  · have hcode : c.toNat < 32 := by
      have : '\x1f'.toNat = 31 := by decide
      rw [char_le_iff] at h8
      omega
    obtain ⟨hhigh, hlow, hnum⟩ := control_escape c.toNat hcode
    have hhex := mem_hex4.mpr ⟨'0', '0', _, _, rfl, rfl, hhigh, hlow, rfl⟩
    exact .inr (.inr ⟨_, hhex, hnum, hcode, rfl⟩)
  · exact .inl ⟨isUnescaped_iff.mpr ⟨h8, h1, h2⟩, rfl⟩

theorem charSize_eq (c : Char) : charSize c = (insChar c).length := by
  unfold charSize insChar
  split_ifs <;> simp_all

theorem insChar_mem_char {F : Language Char} (c : Char) :
    insChar c ∈ char (pairedSurrogates F) := by
  rcases insChar_cases c with ⟨hc, heq⟩ | ⟨e, he, -, heq⟩ | ⟨w, hw, hnum, hcode, heq⟩
  · exact .inl ⟨c, hc, heq⟩
  · exact .inr ⟨['\\'], rfl, [e], .inl ⟨e, he, rfl⟩, heq.symm⟩
  · have hunit : w ∈ codePoint := .inl ⟨hw, .inl (by omega)⟩
    exact .inr ⟨['\\'], rfl, 'u' :: w, .inr ⟨['u'], rfl, w, hunit, rfl⟩, heq.symm⟩

def quoted (s : List Char) : List Char := '"' :: (s.flatMap insChar ++ ['"'])

theorem quoted_mem_string {F : Language Char} (s : List Char) :
    quoted s ∈ string (pairedSurrogates F) := by
  refine ⟨_, ⟨['"'], rfl, s.flatMap insChar, ?_, rfl⟩, ['"'], rfl, rfl⟩
  refine Language.mem_kstar.mpr ⟨s.map insChar, List.flatMap_def, ?_⟩
  rintro w hw
  obtain ⟨c, -, rfl⟩ := List.mem_map.mp hw
  exact insChar_mem_char c

theorem cString_eq {s : List Char} (hs : '\x00' ∉ s) : cString s = s := by
  refine List.takeWhile_eq_self_iff.mpr ?_
  intro c hc
  simpa using ne_of_mem_of_not_mem hc hs

theorem zbxJsonInsstring_string {s : List Char} (hs : '\x00' ∉ s) :
    zbxJsonInsstring (some s) .string = quoted s := by
  simp [zbxJsonInsstring, quoted, cString_eq hs]

theorem decodeCharacter_insChar {escape : List Char} (heq : insChar c = '\\' :: escape)
    (rest : List Char) : zbxJsonDecodeCharacter (escape ++ rest) = some ([c], rest) := by
  rcases insChar_cases c with ⟨hc, hplain⟩ | ⟨e, he, hshort, hesc⟩ | ⟨w, hw, hnum, hcode, hesc⟩
  · rw [heq, List.cons_eq_cons] at hplain
    exact absurd hplain.1.symm (isUnescaped_iff.mp hc).2.2
  · rw [heq, List.cons_eq_cons] at hesc
    rw [hesc.2, zbxJsonDecodeCharacter, show charAt ([e] ++ rest) = e from rfl, hshort]
    rfl
  · rw [heq, List.cons_eq_cons] at hesc
    rw [hesc.2, List.cons_append, decodeCharacter_u rfl, List.tail_cons, decodeUnicode,
      if_neg (by simp [validHex_append hw])]
    simp only [hexNum_append hw, drop_hex4 hw, hnum]
    rw [if_pos (by omega), Char.ofNat_toNat]

theorem copyScan_insChar {size fuel : ℕ} {out : List Char} (hc : c ≠ '\x00')
    (hsize : out.length + 1 < size) (rest : List Char) :
    copyScan size (fuel + 1) out (insChar c ++ rest) = copyScan size fuel (out ++ [c]) rest := by
  have hescape : ∀ {escape : List Char}, insChar c = '\\' :: escape →
      copyScan size (fuel + 1) out (insChar c ++ rest) = copyScan size fuel (out ++ [c]) rest := by
    intro escape heq
    have hdecode := decodeCharacter_insChar heq rest
    rw [heq, List.cons_append, copyScan]
    simp [charAt, hdecode, hsize]
  rcases insChar_cases c with ⟨hplain, heq⟩ | ⟨e, -, -, heq⟩ | ⟨w, -, -, -, heq⟩
  · obtain ⟨-, hquote, hslash⟩ := isUnescaped_iff.mp hplain
    have hlen : ¬out.length + 1 = size := by omega
    rw [heq]
    simp [copyScan, charAt, hc, hquote, hslash, hlen]
  · exact hescape heq
  · exact hescape heq

theorem copyScan_quoted {size fuel : ℕ} {s out : List Char} (hs : '\x00' ∉ s)
    (hsize : out.length + s.length < size) (hfuel : s.length < fuel) (rest : List Char) :
    copyScan size fuel out (s.flatMap insChar ++ '"' :: rest) = some (out ++ s, rest) := by
  induction s generalizing fuel out with
  | nil =>
    obtain ⟨fuel, rfl⟩ := Nat.exists_eq_succ_of_ne_zero (by omega : fuel ≠ 0)
    simp [copyScan, charAt]
  | cons c s ih =>
    obtain ⟨fuel, rfl⟩ := Nat.exists_eq_succ_of_ne_zero (by omega : fuel ≠ 0)
    simp only [length_cons] at hsize hfuel
    obtain ⟨hc, hs⟩ := not_or.mp (fun h => hs (List.mem_cons.mpr h))
    have hlen : (out ++ [c]).length + s.length < size := by
      rw [length_append, length_singleton]
      omega
    rw [flatMap_cons, append_assoc, copyScan_insChar (Ne.symm hc) (by omega), ih hs hlen (by omega)]
    simp

theorem length_le_quoted (s : List Char) : s.length + 2 ≤ (quoted s).length := by
  induction s with
  | nil => simp [quoted]
  | cons c s ih =>
    have hpos := char_ne_nil (insChar_mem_char (F := digits) c)
    simp only [quoted, flatMap_cons, length_cons, length_append, length_nil] at ih ⊢
    omega

theorem jsonCopyString_quoted {size : ℕ} {s : List Char} (hs : '\x00' ∉ s)
    (hsize : s.length < size) (rest : List Char) :
    jsonCopyString (quoted s ++ rest) size = some (s, rest) := by
  have hlen := length_le_quoted s
  have htext : (quoted s ++ rest).tail = s.flatMap insChar ++ '"' :: rest := by simp [quoted]
  rw [jsonCopyString, if_neg (by omega), htext, copyScan_quoted hs (by simpa using hsize)]
  · rfl
  · rw [List.length_append]
    omega

def nameText (name : Option (List Char)) : List Char :=
  name.elim [] fun name => quoted name ++ [':']

def openText (object : Bool) : List Char := if object then ['\x7b'] else ['[']

def closeText (object : Bool) : List Char := if object then ['\x7d'] else [']']

mutual

def Tree.render : Tree → List Char
  | .string value => quoted value
  | .number digits => digits
  | .node object children => openText object ++ renderChildren false children ++ closeText object

def renderChildren (comma : Bool) : List (Option (List Char) × Tree) → List Char
  | [] => []
  | (name, child) :: children =>
    (if comma then [','] else []) ++ nameText name ++ child.render ++ renderChildren true children

end

mutual

/-- A tree whose members are named and whose elements are not, with less than `n` nodes around
any of its nodes or leaves. -/
def Tree.Valid (n : ℕ) : Tree → Prop
  | .string value => 0 < n ∧ '\x00' ∉ value
  | .number digits => 0 < n ∧ digits ∈ int
  | .node object children => 0 < n ∧ ValidChildren object (n - 1) children

def ValidChildren (object : Bool) (n : ℕ) : List (Option (List Char) × Tree) → Prop
  | [] => True
  | (name, child) :: children =>
    name.isSome = object ∧ (∀ s ∈ name, '\x00' ∉ s) ∧ child.Valid n ∧
      ValidChildren object n children

end

def items (object : Bool) (V : Language Char) : Language Char :=
  if object then member paired V else ws * V * ws

theorem renderChildren_comma {children : List (Option (List Char) × Tree)} (h : children ≠ []) :
    renderChildren true children = ',' :: renderChildren false children := by
  obtain ⟨⟨name, child⟩, children, rfl⟩ := List.exists_cons_of_ne_nil h
  simp [renderChildren]

theorem mem_ws_item {V : Language Char} {w : List Char} (hw : w ∈ V) : w ∈ ws * V * ws :=
  ⟨w, ⟨[], Language.nil_mem_kstar _, w, hw, rfl⟩, [], Language.nil_mem_kstar _, List.append_nil w⟩

theorem mem_items {object : Bool} {V : Language Char} {name : Option (List Char)} {w : List Char}
    (hname : name.isSome = object) (hw : w ∈ V) : nameText name ++ w ∈ items object V := by
  cases object with
  | false =>
    rw [Option.isSome_eq_false_iff.mp hname |> Option.isNone_iff_eq_none.mp]
    exact mem_ws_item hw
  | true =>
    obtain ⟨s, rfl⟩ := Option.isSome_iff_exists.mp hname
    have hnil : [] ∈ ws := Language.nil_mem_kstar _
    refine ⟨quoted s ++ [':'] ++ w, ⟨quoted s ++ [':'], ?_, w, hw, rfl⟩, [], hnil,
      List.append_nil _⟩
    refine ⟨quoted s ++ [':'], ⟨quoted s, ?_, [':'], rfl, rfl⟩, [], hnil, List.append_nil _⟩
    refine ⟨quoted s, ⟨[], hnil, quoted s, quoted_mem_string s, rfl⟩, [], hnil, List.append_nil _⟩

theorem mem_number_of_int {D : Dialect} {w : List Char} (hw : w ∈ int) : w ∈ number D := by
  refine ⟨w, ⟨w, ⟨[], .inl rfl, w, hw, rfl⟩, [], .inl rfl, List.append_nil w⟩, [], .inl rfl,
    List.append_nil w⟩

theorem mem_container {object : Bool} {V : Language Char} {w : List Char}
    (hw : w ∈ ws + separated ',' (items object V)) :
    openText object ++ w ++ closeText object ∈ container paired V := by
  cases object with
  | false => exact .inl ⟨_, ⟨['['], rfl, w, hw, rfl⟩, [']'], rfl, rfl⟩
  | true => exact .inr ⟨_, ⟨['\x7b'], rfl, w, hw, rfl⟩, ['\x7d'], rfl, rfl⟩

mutual

theorem Tree.render_mem_value : ∀ {n : ℕ} (t : Tree), t.Valid n → t.render ∈ value paired n
  | n + 1, .string s, h => .inl (.inl (.inl (quoted_mem_string s)))
  | n + 1, .number digits, h => .inl (.inl (.inr (mem_number_of_int h.2)))
  | n + 1, .node object [], h => .inr (mem_container (.inl (Language.nil_mem_kstar _)))
  | n + 1, .node object (child :: children), h =>
    .inr (mem_container (.inr (renderChildren_mem child children h.2)))
  | 0, .string _, h | 0, .number _, h | 0, .node _ _, h => absurd h.1 (by omega)

theorem renderChildren_mem {object : Bool} {n : ℕ} :
    ∀ (first : Option (List Char) × Tree) (children : List (Option (List Char) × Tree)),
      ValidChildren object n (first :: children) →
      renderChildren false (first :: children) ∈ separated ',' (items object (value paired n))
  | (name, child), [], h => by
    have hitem := mem_items h.1 (child.render_mem_value h.2.2.1)
    simpa [renderChildren] using mem_separated_of_mem hitem
  | (name, child), second :: children, h => by
    have hitem := mem_items h.1 (child.render_mem_value h.2.2.1)
    have hchildren := renderChildren_mem second children h.2.2.2
    have happend := append_mem_separated hitem hchildren
    rw [renderChildren, renderChildren_comma (List.cons_ne_nil _ _)]
    simpa using happend

end

/-- How the loops of `zbx_json_next` and `__zbx_json_rbracket` go on at least `stop` characters
before the end and at levels not below `base`. -/
structure Scanner (stop base : ℕ) (F : ℕ → Bool → List Char → Option (List Char)) : Prop where
  quote : ∀ level inString p, stop ≤ p.length →
    F level inString ('"' :: p) = F level (!inString) p
  escape : ∀ level c p, stop ≤ p.length → F level true ('\\' :: c :: p) = F level true p
  inside : ∀ level c p, stop ≤ p.length → c ≠ '"' → c ≠ '\\' →
    F level true (c :: p) = F level true p
  opens : ∀ level object p, stop ≤ p.length →
    F level false (openText object ++ p) = F (level + 1) false p
  closes : ∀ level object p, base ≤ level → stop ≤ p.length →
    F (level + 1) false (closeText object ++ p) = F level false p
  comma : ∀ level p, stop ≤ p.length → F (level + 1) false (',' :: p) = F (level + 1) false p
  outside : ∀ level c p, stop ≤ p.length → isdigit c ∨ c = ':' →
    F level false (c :: p) = F level false p

section

variable {stop base level : ℕ} {F : ℕ → Bool → List Char → Option (List Char)}

variable (hF : Scanner stop base F)

include hF

theorem Scanner.insChar (c : Char) (hrest : stop ≤ rest.length) :
    F level true (insChar c ++ rest) = F level true rest := by
  have hhex : ∀ d, isHex d → d ≠ '"' ∧ d ≠ '\\' := by
    intro d hd
    constructor <;> rintro rfl <;> exact absurd hd (by decide)
  rcases insChar_cases c with ⟨hplain, heq⟩ | ⟨e, -, -, heq⟩ | ⟨w, hw, -, -, heq⟩
  · obtain ⟨-, hquote, hslash⟩ := isUnescaped_iff.mp hplain
    rw [heq]
    exact hF.inside level c rest hrest hquote hslash
  · rw [heq]
    exact hF.escape level e rest hrest
  · obtain ⟨a, b, c, d, ha, hb, hc, hd, rfl⟩ := mem_hex4.mp hw
    rw [heq]
    refine (hF.escape level 'u' _ (by simp; omega)).trans ?_
    refine (hF.inside level a _ (by simp; omega) (hhex a ha).1 (hhex a ha).2).trans ?_
    refine (hF.inside level b _ (by simp; omega) (hhex b hb).1 (hhex b hb).2).trans ?_
    refine (hF.inside level c _ (by simp; omega) (hhex c hc).1 (hhex c hc).2).trans ?_
    exact hF.inside level d rest hrest (hhex d hd).1 (hhex d hd).2

theorem Scanner.quoted (s : List Char) (hrest : stop ≤ rest.length) :
    F level false (quoted s ++ rest) = F level false rest := by
  have hchars : F level true (s.flatMap Json.insChar ++ '"' :: rest) =
      F level true ('"' :: rest) := by
    induction s with
    | nil => rfl
    | cons c s ih => rw [flatMap_cons, append_assoc, hF.insChar c (by simp; omega), ih]
  have htext : Json.quoted s ++ rest = '"' :: (s.flatMap Json.insChar ++ '"' :: rest) := by
    simp [Json.quoted]
  rw [htext, hF.quote level false _ (by simp; omega)]
  exact hchars.trans (hF.quote level true rest hrest)

theorem Scanner.digits {w : List Char} (hw : w ∈ digits) (hrest : stop ≤ rest.length)
    : F level false (w ++ rest) = F level false rest := by
  have hdigit := mem_kstar_oneOf.mp hw
  clear hw
  induction w with
  | nil => rfl
  | cons c w ih =>
    have htail := ih fun d hd => hdigit d (mem_cons_of_mem c hd)
    refine (hF.outside level c _ (by simp; omega) (.inl (hdigit c mem_cons_self))).trans htail

theorem Scanner.nameText (name : Option (List Char)) (hrest : stop ≤ rest.length)
    : F level false (nameText name ++ rest) = F level false rest := by
  cases name with
  | none => rfl
  | some s =>
    have htext : Json.nameText (some s) ++ rest = Json.quoted s ++ ':' :: rest := by
      simp [Json.nameText]
    rw [htext, hF.quoted s (by simp; omega)]
    exact hF.outside level ':' rest hrest (.inr rfl)

omit hF

mutual

theorem Scanner.tree (hF : Scanner stop base F) : ∀ {n level : ℕ} {rest : List Char} (t : Tree),
    t.Valid n → base ≤ level → stop ≤ rest.length →
      F level false (t.render ++ rest) = F level false rest
  | _, _, _, .string s, _, _, hrest => hF.quoted s hrest
  | _, _, _, .number _, h, _, hrest => hF.digits (int_digits h.2).1 hrest
  | _, level, rest, .node object children, h, hlevel, hrest => by
    have hclose : stop ≤ (closeText object ++ rest).length := by simp; omega
    have hchildren := hF.children children h.2 (show base ≤ level + 1 by omega) hclose false
    rw [Tree.render, append_assoc, append_assoc, hF.opens level object _ (by simp; omega),
      hchildren]
    exact hF.closes level object rest hlevel hrest

theorem Scanner.children (hF : Scanner stop base F) : ∀ {object : Bool} {n level : ℕ}
    {rest : List Char} (children : List (Option (List Char) × Tree)),
    ValidChildren object n children → base ≤ level + 1 → stop ≤ rest.length → ∀ comma,
      F (level + 1) false (renderChildren comma children ++ rest) = F (level + 1) false rest
  | _, _, _, _, [], _, _, _, _ => rfl
  | _, _, level, rest, (name, child) :: children, h, hlevel, hrest, comma => by
    have htail := hF.children children h.2.2.2 hlevel hrest true
    have hrest' : stop ≤ (renderChildren true children ++ rest).length := by simp; omega
    have hchild := hF.tree child h.2.2.1 hlevel hrest'
    have hlong : stop ≤ (child.render ++ (renderChildren true children ++ rest)).length := by
      rw [length_append]
      omega
    have hname : F (level + 1) false _ = F (level + 1) false _ := hF.nameText name hlong
    cases comma with
    | false => simpa [renderChildren] using hname.trans (hchild.trans htail)
    | true =>
      have hcomma := hF.comma level (Json.nameText name ++ (child.render ++
        (renderChildren true children ++ rest))) (by simp at hrest' ⊢; omega)
      simpa [renderChildren] using hcomma.trans (hname.trans (hchild.trans htail))

end

end

end Zabbix.Json
