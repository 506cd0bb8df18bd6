import Zabbix.Agent.Itemutil
import Zabbix.Expr.ItemGrammar
import Zabbix.Expr.ItemKey

/-!
# Item keys of the agent and of the server

Both parsers on one grammar: what either of them does with the text of a parameter list, and that
neither accepts another text.
-/

namespace Zabbix.Itemutil

open List Zabbix.Expr

variable {last : Char} {body text data left : List Char}
variable {c : Char} {v : List Char} {p : ItemParam}

def NoSpace (left : List Char) : Prop := ∀ c ∈ left.head?, c ≠ ' '

theorem noSpace_dropWhile (data : List Char) : NoSpace (data.dropWhile (· = ' ')) := by
  intro c hc
  obtain ⟨rest, hrest⟩ := List.head?_eq_some_iff.mp hc
  simpa [hrest] using List.head?_dropWhile_not (· = ' ') data

theorem noSpace_cons (h : c ≠ ' ') (rest : List Char) : NoSpace (c :: rest) :=
  fun _ hd => Option.some.inj hd ▸ h

theorem Separated.noSpace (h : Separated left) : NoSpace left := by
  obtain ⟨c, rest, rfl, rfl | rfl⟩ := h
  · rintro c ⟨⟩
    decide
  · rintro c ⟨⟩
    decide

variable (n : ℕ)

theorem dropWhile_spaces (h : NoSpace left) : (spaces n ++ left).dropWhile (· = ' ') = left := by
  induction n with
  | zero =>
    cases left with
    | nil => rfl
    | cons c rest => exact dropWhile_cons_of_neg (by simpa using h c rfl)
  | succ n ih => exact ih

theorem exists_spaces (data : List Char) : ∃ n left, data = spaces n ++ left ∧ NoSpace left := by
  refine ⟨(data.takeWhile (· = ' ')).length, data.dropWhile (· = ' '), ?_, noSpace_dropWhile data⟩
  have hall : data.takeWhile (· = ' ') = spaces (data.takeWhile (· = ' ')).length := by
    refine eq_replicate_of_mem fun c hc => ?_
    simpa using mem_takeWhile_imp hc
  rw [← hall, takeWhile_append_dropWhile]

theorem quotedEnd_append (h : Quotable last body) (left : List Char) :
    quotedEnd last (body ++ '"' :: left) = some (body ++ ['"'], left) := by
  induction body generalizing last with
  | nil => exact if_pos ⟨rfl, h⟩
  | cons c body ih =>
    have hinside : ¬ (c = '"' ∧ last ≠ '\\') := fun hend => hend.2 (h.1 hend.1)
    rw [List.cons_append, quotedEnd, if_neg hinside, ih h.2]
    rfl

theorem quotable_of_ne {last' : Char} (h : Quotable last body) (hlast : last ≠ '\\')
    (hlast' : last' ≠ '\\') : Quotable last' body := by
  cases body with
  | nil => exact hlast'
  | cons c body => exact ⟨fun hc => absurd (h.1 hc) hlast, h.2⟩

theorem parseQuotedParam_append (h : Quotable '"' body) (trail : ℕ) (hleft : NoSpace left) :
    parseQuotedParam ('"' :: (body ++ '"' :: (spaces trail ++ left))) =
      .ok ('"' :: (body ++ ['"']), left) := by
  have hend := quotedEnd_append (@quotable_of_ne '"' body '\x00' h (by decide) (by decide))
    (spaces trail ++ left)
  rw [parseQuotedParam, List.tail_cons, hend]
  exact congrArg (fun left => Except.ok ('"' :: (body ++ ['"']), left))
    (dropWhile_spaces trail hleft)

theorem parseUnquotedParam_append (h : ∀ c ∈ text, inUnquoted c = true) (hleft : Separated left) :
    parseUnquotedParam (text ++ left) = .ok (text, left) := by
  obtain ⟨c, rest, rfl, hc⟩ := hleft
  have hstop : inUnquoted c = false := by obtain rfl | rfl := hc <;> rfl
  have hneg : ¬ inUnquoted c = true := by rw [hstop]; exact Bool.false_ne_true
  unfold parseUnquotedParam
  rw [List.dropWhile_append_of_pos h, List.takeWhile_append_of_pos h,
    List.dropWhile_cons_of_neg hneg, List.takeWhile_cons_of_neg hneg,
    if_neg (List.cons_ne_nil c rest), List.append_nil]

theorem expandItem_eq (h : NoSpace v) (hne : v ≠ []) :
    expandItem (spaces n ++ v) =
      if v.head? = some '"' then parseQuotedParam v else parseUnquotedParam v := by
  unfold expandItem
  rw [dropWhile_spaces n h]
  split
  · contradiction
  · rfl
  · next c data hquote =>
    rw [if_neg]
    rintro ⟨⟩
    exact hquote rfl

theorem separated_ne_nil (h : Separated left) : left ≠ [] := by
  obtain ⟨c, rest, rfl, -⟩ := h
  exact cons_ne_nil c rest

theorem separated_head (h : Separated left) : left.head? = some ',' ∨ left.head? = some ']' := by
  obtain ⟨c, rest, rfl, hc⟩ := h
  exact hc.imp (congrArg some) (congrArg some)

theorem plain_head (htext : PlainText text) (h : Separated left) :
    NoSpace (text ++ left) ∧ (text ++ left).head? ≠ some '"' ∧ (text ++ left).head? ≠ some '[' := by
  cases text with
  | nil =>
    refine ⟨Separated.noSpace h, fun heq => ?_, fun heq => ?_⟩
    · obtain hc | hc := separated_head h <;> rw [List.nil_append, hc] at heq <;> cases heq
    · obtain hc | hc := separated_head h <;> rw [List.nil_append, hc] at heq <;> cases heq
  | cons c text =>
    obtain ⟨hspace, hquote, hopen⟩ := htext.head c rfl
    exact ⟨fun d hd => Option.some.inj hd ▸ hspace, fun heq => hquote (Option.some.inj heq),
      fun heq => hopen (Option.some.inj heq)⟩

variable (e : Element)

theorem expandItem_element (h : Separated left) :
    expandItem (e.text ++ left) = .ok (e.raw, left) := by
  cases e with
  | plain lead text htext =>
    obtain ⟨hspace, hquote, -⟩ := plain_head htext h
    have hne : text ++ left ≠ [] := List.append_ne_nil_of_right_ne_nil text (separated_ne_nil h)
    rw [Element.text, List.append_assoc, expandItem_eq lead hspace hne, if_neg hquote]
    exact parseUnquotedParam_append htext.plain h
  | quoted lead body trail hbody =>
    rw [Element.text, List.append_assoc, List.cons_append, List.append_assoc, List.cons_append,
      expandItem_eq lead (noSpace_cons (by decide) _) (List.cons_ne_nil _ _), List.head?_cons,
      if_pos rfl]
    exact parseQuotedParam_append hbody trail (Separated.noSpace h)

theorem arrayItem_eq (h : NoSpace v) (hne : v ≠ []) (hopen : v.head? ≠ some '[') :
    arrayItem (spaces n ++ v) = (expandItem (spaces n ++ v)).map Prod.snd := by
  rw [expandItem_eq n h hne]
  unfold arrayItem
  rw [dropWhile_spaces n h]
  split
  · contradiction
  · rfl
  · next data => exact absurd rfl hopen
  · next c data hquote _ =>
    rw [if_neg]
    rintro ⟨⟩
    exact hquote rfl

theorem arrayItem_element (h : Separated left) : arrayItem (e.text ++ left) = .ok left := by
  have hitem : arrayItem (e.text ++ left) = (expandItem (e.text ++ left)).map Prod.snd := by
    cases e with
    | plain lead text htext =>
      obtain ⟨hspace, -, hopen⟩ := plain_head htext h
      rw [Element.text, List.append_assoc]
      exact arrayItem_eq lead hspace
        (List.append_ne_nil_of_right_ne_nil text (separated_ne_nil h)) hopen
    | quoted lead body trail hbody =>
      rw [Element.text, List.append_assoc, List.cons_append]
      exact arrayItem_eq lead (noSpace_cons (by decide) _)
        (List.cons_ne_nil _ _) (by simp)
  rw [hitem, expandItem_element e h]
  rfl

theorem arrayEnd_of_item (h : arrayItem data = .ok (c :: left)) (hne : data ≠ []) :
    arrayEnd data =
      if c = ']' then .ok (c :: left)
      else if c = ',' then arrayEnd left
      else .error "unterminated array parameter" := by
  rw [arrayEnd, if_neg hne]
  split
  · next err herr => rw [h] at herr; cases herr
  · next hnil => rw [h] at hnil; cases hnil
  · next c' left' heq =>
    rw [h] at heq
    cases heq
    rfl

theorem element_ne_nil (h : Separated left) : e.text ++ left ≠ [] :=
  List.append_ne_nil_of_right_ne_nil _ (separated_ne_nil h)

variable (first : Element)

theorem arrayEnd_elements (more : List Element) (left : List Char) :
    arrayEnd (first.text ++ (moreText more ++ ']' :: left)) = .ok (']' :: left) := by
  induction more generalizing first with
  | nil =>
    have hsep := separated_close left
    rw [moreText, List.flatMap_nil, List.nil_append,
      arrayEnd_of_item (arrayItem_element first hsep) (element_ne_nil first hsep), if_pos rfl]
  | cons e more ih =>
    have hsep := separated_comma (e.text ++ (moreText more ++ ']' :: left))
    rw [moreText_cons, List.cons_append, List.append_assoc,
      arrayEnd_of_item (arrayItem_element first hsep) (element_ne_nil first hsep),
      if_neg (by decide), if_pos rfl, ih e]

theorem expandLoop_of_item {p : List Char} (h : expandItem data = .ok (p, c :: left)) :
    expandLoop data = if c = ']' then p else p ++ ',' :: expandLoop left := by
  rw [expandLoop]
  split
  · next err herr => rw [h] at herr; cases herr
  · next hnil => rw [h] at hnil; cases hnil
  · next heq =>
    rw [h] at heq
    cases heq
    rfl

theorem expandLoop_elements (more : List Element) (left : List Char) :
    expandLoop (first.text ++ (moreText more ++ ']' :: left)) = first.raw ++ moreRaw more := by
  induction more generalizing first with
  | nil =>
    rw [moreText, List.flatMap_nil, List.nil_append,
      expandLoop_of_item (expandItem_element first (separated_close left)), if_pos rfl, moreRaw,
      List.flatMap_nil, List.append_nil]
  | cons e more ih =>
    rw [moreText_cons, List.cons_append, List.append_assoc,
      expandLoop_of_item (expandItem_element first (separated_comma _)), if_neg (by decide),
      ih e, moreRaw_cons]

theorem parseArrayParam_elements (more : List Element) (left : List Char) :
    parseArrayParam ('[' :: (first.text ++ (moreText more ++ ']' :: left))) =
      .ok ('[' :: (first.text ++ (moreText more ++ [']'])), left) := by
  unfold parseArrayParam
  rw [List.tail_cons, arrayEnd_elements]
  refine congrArg Except.ok (Prod.ext ?_ rfl)
  have hsplit : '[' :: (first.text ++ (moreText more ++ ']' :: left)) =
      '[' :: (first.text ++ (moreText more ++ [']'])) ++ left := by simp
  have hlength : ('[' :: (first.text ++ (moreText more ++ ']' :: left))).length -
      (']' :: left).length + 1 = ('[' :: (first.text ++ (moreText more ++ [']']))).length := by
    simp only [List.length_cons, List.length_append, List.length_nil]
    omega
  dsimp only
  rw [hlength, hsplit, List.take_left]

theorem unquoteLoop_append (h : Quotable last body) :
    unquoteLoop last (body ++ ['"']) = unescape (pending last ++ body) := by
  induction body generalizing last with
  | nil =>
    rw [pending, if_neg h]
    exact (if_pos rfl).trans (if_neg h)
  | cons c body ih =>
    rw [unescape_pending body h.1, ← ih h.2, cons_append, unquoteLoop]
    unfold emitted pending
    by_cases hquote : c = '"'
    · rw [if_pos hquote, if_pos hquote, if_pos (h.1 hquote), hquote]
      rfl
    · rw [if_neg hquote, if_neg hquote]
      by_cases hbackslash : c = '\\'
      · rw [if_pos hbackslash, if_pos hbackslash, hbackslash]
        split_ifs <;> rfl
      · rw [if_neg hbackslash, if_neg hbackslash]
        split_ifs <;> rfl

theorem unquoteParam_append (h : Quotable '"' body) :
    unquoteParam ('"' :: (body ++ ['"'])) = unescape body := by
  rw [unquoteParam, tail_cons,
    unquoteLoop_append (@quotable_of_ne '"' body '\x00' h (by decide) (by decide))]
  rfl

def afterArray : ItemParam → List Char → List Char
  | .element _, left => left
  | .array _ _ _ trail, left => spaces trail ++ left

theorem separated_of_not (h : ¬ inUnquoted c = true) : Separated (c :: data) := by
  refine ⟨c, data, rfl, ?_⟩
  by_contra hne
  rw [not_or] at hne
  exact h (by rw [inUnquoted, decide_eq_true hne.1, decide_eq_true hne.2]; rfl)

theorem parseParam_eq (h : NoSpace v) (hne : v ≠ []) (hopen : v.head? ≠ some '[') :
    parseParam (spaces n ++ v) = (expandItem (spaces n ++ v)).map fun (p, left) =>
      (if v.head? = some '"' then unquoteParam p else p, left) := by
  rw [expandItem_eq n h hne]
  unfold parseParam
  rw [dropWhile_spaces n h]
  split
  · contradiction
  · rfl
  · exact absurd rfl hopen
  · next c data hquote _ =>
    have hhead : (c :: data).head? ≠ some '"' := by
      rintro ⟨⟩
      exact hquote rfl
    have hid (x : Except String (List Char × List Char)) :
        (x.map fun (p, left) =>
          (if (c :: data).head? = some '"' then unquoteParam p else p, left)) = x := by
      simp only [if_neg hhead]
      cases x <;> rfl
    rw [if_neg hhead, hid]
    split_ifs with hc
    · rfl
    · exact (@parseUnquotedParam_append [] _ nofun (separated_of_not hc)).symm

theorem parseParam_element (h : Separated left) :
    parseParam (e.text ++ left) = .ok (e.value, left) := by
  have hitem := expandItem_element e h
  cases e with
  | plain lead text htext =>
    obtain ⟨hspace, hquote, hopen⟩ := plain_head htext h
    have hne : text ++ left ≠ [] := append_ne_nil_of_right_ne_nil text (separated_ne_nil h)
    rw [Element.text, append_assoc] at hitem ⊢
    rw [parseParam_eq lead hspace hne hopen, hitem]
    exact congrArg Except.ok (Prod.ext (if_neg hquote) rfl)
  | quoted lead body trail hbody =>
    rw [Element.text, append_assoc, cons_append] at hitem ⊢
    have hopen (rest : List Char) : ('"' :: rest).head? ≠ some '[' := fun heq => by cases heq
    rw [parseParam_eq lead (noSpace_cons (by decide) _) (List.cons_ne_nil _ _) (hopen _), hitem]
    exact congrArg Except.ok (Prod.ext (unquoteParam_append hbody) rfl)

theorem parseParam_array (data : List Char) :
    parseParam (spaces n ++ '[' :: data) =
      (parseArrayParam ('[' :: data)).map fun (p, left) => (expandArray p, left) := by
  rw [parseParam, dropWhile_spaces n (noSpace_cons (by decide) _)]
  rfl

theorem parseParam_param (p : ItemParam) (h : Separated left) :
    parseParam (p.text ++ left) = .ok (p.value, afterArray p left) := by
  cases p with
  | element e => exact parseParam_element e h
  | array lead first more trail =>
    have htext : (ItemParam.array lead first more trail).text ++ left =
        spaces lead ++ '[' :: (first.text ++ (moreText more ++ ']' :: (spaces trail ++ left))) := by
      simp [ItemParam.text]
    rw [htext, parseParam_array, parseArrayParam_elements]
    refine congrArg Except.ok (Prod.ext ?_ rfl)
    exact expandLoop_elements first more []

def Tight : ItemParam → Prop
  | .element _ => True
  | .array _ _ _ trail => trail = 0

theorem afterArray_tight (h : Tight p) : afterArray p left = left := by
  cases p with
  | element e => rfl
  | array lead first more trail =>
    rw [afterArray, show trail = 0 from h]
    rfl

theorem afterArray_not_tight {p : ItemParam} (h : ¬ Tight p) :
    ∃ rest, afterArray p left = ' ' :: rest := by
  cases p with
  | element e => exact absurd trivial h
  | array lead first more trail =>
    obtain ⟨k, rfl⟩ := Nat.exists_eq_succ_of_ne_zero h
    exact ⟨spaces k ++ left, rfl⟩

theorem paramsLoop_of_param {p : List Char} (h : parseParam data = .ok (p, c :: left)) :
    paramsLoop data =
      if c = ']' then .ok ([p], left)
      else if c = ',' then
        if left = [] then .error "unterminated parameter list"
        else (paramsLoop left).map fun (params, left) => (p :: params, left)
      else .error "invalid parameter separator" := by
  rw [paramsLoop]
  split
  · next err herr => rw [h] at herr; cases herr
  · next hnil => rw [h] at hnil; cases hnil
  · next heq =>
    rw [h] at heq
    cases heq
    rfl

theorem paramsText_ne_nil (p : ItemParam) (ps : List ItemParam) (left : List Char) :
    paramsText p ps ++ ']' :: left ≠ [] :=
  List.append_ne_nil_of_right_ne_nil _ (List.cons_ne_nil _ _)

theorem paramsLoop_params (p : ItemParam) (ps : List ItemParam) (left : List Char)
    (h : ∀ q ∈ p :: ps, Tight q) :
    paramsLoop (paramsText p ps ++ ']' :: left) = .ok ((p :: ps).map ItemParam.value, left) := by
  induction ps generalizing p with
  | nil =>
    have hparam := parseParam_param p (separated_close left)
    rw [afterArray_tight (h p List.mem_cons_self)] at hparam
    rw [paramsText, List.append_assoc, moreParams, List.flatMap_nil, List.nil_append,
      paramsLoop_of_param hparam, if_pos rfl]
    rfl
  | cons q ps ih =>
    obtain ⟨hp, hps⟩ := List.forall_mem_cons.mp h
    have hparam := parseParam_param p (separated_comma (paramsText q ps ++ ']' :: left))
    rw [afterArray_tight hp] at hparam
    rw [paramsText, List.append_assoc, moreParams_cons, List.cons_append, ← paramsText,
      paramsLoop_of_param hparam, if_neg (by decide), if_pos rfl,
      if_neg (paramsText_ne_nil q ps left), ih q hps]
    rfl

theorem paramsLoop_not_tight (hp : ¬ Tight p) (hleft : Separated left)
    (r : List (List Char) × List Char) : paramsLoop (p.text ++ left) ≠ .ok r := by
  have hparam := parseParam_param p hleft
  obtain ⟨rest, hrest⟩ := @afterArray_not_tight left p hp
  rw [hrest] at hparam
  rw [paramsLoop_of_param hparam, if_neg (by decide), if_neg (by decide)]
  nofun

theorem paramsLoop_spaced (p : ItemParam) (ps : List ItemParam) (left : List Char)
    (h : ∃ q ∈ p :: ps, ¬ Tight q) (r : List (List Char) × List Char) :
    paramsLoop (paramsText p ps ++ ']' :: left) ≠ .ok r := by
  induction ps generalizing p r with
  | nil =>
    obtain ⟨q, hq, htight⟩ := h
    obtain rfl := List.mem_singleton.mp hq
    rw [paramsText, List.append_assoc]
    exact paramsLoop_not_tight htight (separated_moreParams [] left) r
  | cons q ps ih =>
    by_cases hp : Tight p
    · obtain ⟨q', hq', htight⟩ := h
      have hmem : q' ∈ q :: ps := (List.mem_cons.mp hq').resolve_left fun heq => htight (heq ▸ hp)
      have hparam := parseParam_param p (separated_comma (paramsText q ps ++ ']' :: left))
      rw [afterArray_tight hp] at hparam
      rw [paramsText, List.append_assoc, moreParams_cons, List.cons_append, ← paramsText,
        paramsLoop_of_param hparam, if_neg (by decide), if_pos rfl,
        if_neg (paramsText_ne_nil q ps left)]
      intro hok
      obtain ⟨r', hr', -⟩ := map_eq_ok hok
      exact ih q ⟨q', hmem, htight⟩ r' hr'
    · rw [paramsText, List.append_assoc]
      exact paramsLoop_not_tight hp (separated_moreParams _ left) r

theorem quotedEnd_reads (last : Char) (data : List Char) :
    (∃ body left, Quotable last body ∧ data = body ++ '"' :: left) ∨
      ((∀ array, keyParams (quotedState last) array data = none) ∧ quotedEnd last data = none) := by
  induction data generalizing last with
  | nil => exact .inr ⟨fun _ => rfl, rfl⟩
  | cons c data ih =>
    by_cases hend : c = '"' ∧ last ≠ '\\'
    · obtain ⟨rfl, hlast⟩ := hend
      exact .inl ⟨[], data, hlast, rfl⟩
    · have hinside : c = '"' → last = '\\' := fun hc => by_contra fun hlast => hend ⟨hc, hlast⟩
      obtain ⟨body, left, hbody, rfl⟩ | ⟨hkey, hquoted⟩ := ih c
      · exact .inl ⟨c :: body, left, ⟨hinside, hbody⟩, rfl⟩
      · refine .inr ⟨fun array => ?_, ?_⟩
        · exact (keyParams_cons (keyStep_quoted hinside) data).trans (hkey array)
        · rw [quotedEnd, if_neg hend, hquoted]
          rfl

theorem not_separated (h : ¬ Separated left) : ¬ Separated (spaces n ++ left) := by
  cases n with
  | zero => exact h
  | succ n =>
    rintro ⟨c, rest, heq, hc⟩
    obtain ⟨rfl, -⟩ := List.cons.inj heq
    obtain hc | hc := hc <;> cases hc

theorem keyParams_not_separated (array : Bool) (hspace : NoSpace left) (h : ¬ Separated left) :
    keyParams .quoteClosed array left = none ∧ keyParams .arrayClosed false left = none := by
  cases left with
  | nil => exact ⟨rfl, rfl⟩
  | cons c rest =>
    have hc : c ≠ ' ' := hspace c rfl
    have hcomma : c ≠ ',' := fun heq => h ⟨c, rest, rfl, .inl heq⟩
    have hclose : c ≠ ']' := fun heq => h ⟨c, rest, rfl, .inr heq⟩
    simp [keyParams, keyStep, hc, hcomma, hclose]

theorem quoted_reads (data : List Char) :
    (∃ body trail left, Quotable '"' body ∧ data = body ++ '"' :: (spaces trail ++ left) ∧
        Separated left) ∨
      ((∀ array, keyParams .quoted array data = none) ∧
        ∀ param left, parseQuotedParam ('"' :: data) = .ok (param, left) → ¬ Separated left) := by
  obtain ⟨body, rest, hbody, rfl⟩ | ⟨hkey, hend⟩ := quotedEnd_reads '\x00' data
  · replace hbody : Quotable '"' body := quotable_of_ne hbody (by decide) (by decide)
    obtain ⟨trail, left, rfl, hspace⟩ := exists_spaces rest
    by_cases hleft : Separated left
    · exact .inl ⟨body, trail, left, hbody, rfl, hleft⟩
    · refine .inr ⟨fun array => ?_, fun param left' hok => ?_⟩
      · have hclosed := @keyParams_quoted array _ _ hbody (spaces trail ++ left)
        rw [keyParams_quoteClosed, (keyParams_not_separated array hspace hleft).1] at hclosed
        exact hclosed
      · rw [parseQuotedParam_append hbody trail hspace] at hok
        cases hok
        exact hleft
  · refine .inr ⟨hkey, fun param left hok => ?_⟩
    rw [parseQuotedParam, tail_cons, hend] at hok
    cases hok

theorem unquoted_reads (data : List Char) :
    (∃ text left, (∀ c ∈ text, isPlain c = true) ∧ data = text ++ left ∧ Separated left) ∨
      ((∀ array, keyParams .unquoted array data = none) ∧
        ∀ r, parseUnquotedParam data ≠ .ok r) := by
  have hplain : ∀ c ∈ data.takeWhile inUnquoted, isPlain c = true := all_eq_true.mp all_takeWhile
  have hsplit : data.takeWhile inUnquoted ++ data.dropWhile inUnquoted = data :=
    takeWhile_append_dropWhile
  cases hleft : data.dropWhile inUnquoted with
  | nil =>
    rw [hleft, append_nil] at hsplit
    refine .inr ⟨fun array => ?_, fun r hok => ?_⟩
    · have hend := @keyParams_unquoted array _ (hsplit ▸ hplain) []
      rw [append_nil] at hend
      exact hend
    · rw [parseUnquotedParam, if_pos hleft] at hok
      cases hok
  | cons c rest =>
    refine .inl ⟨_, c :: rest, hplain, (hleft ▸ hsplit).symm, separated_of_not ?_⟩
    have hstop := List.head?_dropWhile_not inUnquoted data
    rw [hleft] at hstop
    simpa using hstop

theorem element_reads (hspace : NoSpace v) (hopen : v.head? ≠ some '[') :
    (∃ e left, spaces n ++ v = Element.text e ++ left ∧ Separated left) ∨
      ((∀ array, keyParams .init array (spaces n ++ v) = none) ∧
        ∀ p left, expandItem (spaces n ++ v) = .ok (p, left) → ¬ Separated left) := by
  cases v with
  | nil =>
    refine .inr ⟨fun array => keyParams_spaces n [], fun p left hok => ?_⟩
    rw [expandItem, dropWhile_spaces n hspace] at hok
    cases hok
    exact not_separated n fun h => separated_ne_nil h rfl
  | cons c data =>
    by_cases hquote : c = '"'
    · subst hquote
      obtain ⟨body, trail, left, hbody, rfl, hleft⟩ | ⟨hkey, hparse⟩ := quoted_reads data
      · refine .inl ⟨.quoted n body trail hbody, left, ?_, hleft⟩
        simp [Element.text]
      · refine .inr ⟨fun array => ?_, fun p left hok => ?_⟩
        · exact (keyParams_spaces n _).trans ((keyParams_cons rfl data).trans (hkey array))
        · rw [expandItem_eq n hspace (List.cons_ne_nil _ _), List.head?_cons, if_pos rfl] at hok
          exact hparse p left hok
    · have hc : c ≠ ' ' := hspace c rfl
      have hbracket : c ≠ '[' := fun heq => hopen (congrArg some heq)
      by_cases hplain : inUnquoted c = true
      · obtain ⟨hcomma, hclose⟩ := not_sep_of_isPlain hplain
        obtain ⟨text, left, htext, heq, hleft⟩ | ⟨hkey, hparse⟩ := unquoted_reads (c :: data)
        · have hhead : ∀ d ∈ text.head?, d ≠ ' ' ∧ d ≠ '"' ∧ d ≠ '[' := by
            cases text with
            | nil => rintro _ ⟨⟩
            | cons d text =>
              rintro _ ⟨⟩
              obtain ⟨rfl, -⟩ := List.cons.inj heq
              exact ⟨hc, hquote, hbracket⟩
          refine .inl ⟨.plain n text ⟨htext, hhead⟩, left, ?_, hleft⟩
          rw [Element.text, append_assoc, heq]
        · refine .inr ⟨fun array => ?_, fun p left hok => ?_⟩
          · have hstep : keyStep array c .init = .next .unquoted array := by
              rw [keyStep, keyInit, if_neg hcomma, if_neg hquote, if_neg hbracket,
                if_neg hclose, if_neg hc]
            have hrest := keyParams_cons (@keyStep_unquoted array _ hplain) data
            exact (keyParams_spaces n _).trans
              ((keyParams_cons hstep data).trans (hrest.symm.trans (hkey array)))
          · have hhead : (c :: data).head? ≠ some '"' := fun h => hquote (Option.some.inj h)
            rw [expandItem_eq n hspace (cons_ne_nil _ _), if_neg hhead] at hok
            exact absurd hok (hparse _)
      · refine .inl ⟨.plain n [] ⟨forall_mem_nil _, by simp⟩, c :: data, ?_, separated_of_not hplain⟩
        rw [Element.text, append_nil]

theorem not_separated_of_expandItem (hspace : NoSpace v) (hopen : v.head? ≠ some '[')
    (h : ∀ p left, expandItem (spaces n ++ v) = .ok (p, left) → ¬ Separated left) :
    (∀ left, arrayItem (spaces n ++ v) = .ok left → ¬ Separated left) ∧
      ∀ p left, parseParam (spaces n ++ v) = .ok (p, left) → ¬ Separated left := by
  cases v with
  | nil =>
    refine ⟨fun left hok => ?_, fun p left hok => ?_⟩
    · rw [arrayItem, dropWhile_spaces n hspace] at hok
      cases hok
      exact not_separated n fun h => separated_ne_nil h rfl
    · rw [parseParam, dropWhile_spaces n hspace] at hok
      cases hok
  | cons c data =>
    refine ⟨fun left hok => ?_, fun p left hok => ?_⟩
    · rw [arrayItem_eq n hspace (cons_ne_nil _ _) hopen] at hok
      obtain ⟨⟨p, left⟩, hitem, rfl⟩ := map_eq_ok hok
      exact h p left hitem
    · rw [parseParam_eq n hspace (cons_ne_nil _ _) hopen] at hok
      obtain ⟨⟨p, left⟩, hitem, heq⟩ := map_eq_ok hok
      cases heq
      exact h p left hitem

theorem arrayEnd_of_not (h : ∀ left, arrayItem data = .ok left → ¬ Separated left)
    (b : List Char) : arrayEnd data ≠ .ok b := by
  rw [arrayEnd]
  split_ifs
  · rintro ⟨⟩
  · split
    · rintro ⟨⟩
    · rintro ⟨⟩
    · next c left hitem =>
      have hleft := h _ hitem
      rw [if_neg (fun hc => hleft ⟨c, left, rfl, .inr hc⟩),
        if_neg (fun hc => hleft ⟨c, left, rfl, .inl hc⟩)]
      rintro ⟨⟩

theorem array_reads (data : List Char) :
    (∃ first more left, data = Element.text first ++ (moreText more ++ ']' :: left)) ∨
      (keyParams .init true data = none ∧ ∀ b, arrayEnd data ≠ .ok b) := by
  induction hlength : data.length using Nat.strong_induction_on generalizing data with
  | _ k ih =>
    obtain ⟨n, v, rfl, hspace⟩ := exists_spaces data
    by_cases hopen : v.head? = some '['
    · obtain ⟨rest, rfl⟩ := List.head?_eq_some_iff.mp hopen
      refine .inr ⟨(keyParams_spaces n _).trans rfl, arrayEnd_of_not fun left hok => ?_⟩
      rw [arrayItem, dropWhile_spaces n hspace] at hok
      cases hok
    · obtain ⟨e, left, heq, hleft⟩ | ⟨hkey, hparse⟩ := element_reads n hspace hopen
      · rw [heq] at hlength ⊢
        obtain ⟨c, rest, rfl, rfl | rfl⟩ := id hleft
        · have hlt : rest.length < k := by
            rw [length_append, length_cons] at hlength
            omega
          obtain ⟨first, more, left, rfl⟩ | ⟨hkey, hend⟩ := ih rest.length hlt rest rfl
          · exact .inl ⟨e, first :: more, left, by simp⟩
          · refine .inr ⟨?_, fun b => ?_⟩
            · exact (keyParams_element e hleft).trans ((keyParams_cons rfl rest).trans hkey)
            · rw [arrayEnd_of_item (arrayItem_element e hleft) (element_ne_nil e hleft),
                if_neg (by decide), if_pos rfl]
              exact hend b
        · exact .inl ⟨e, [], rest, rfl⟩
      · exact .inr ⟨hkey true,
          arrayEnd_of_not (not_separated_of_expandItem n hspace hopen hparse).1⟩

theorem param_reads (data : List Char) :
    (∃ p left, data = ItemParam.text p ++ left ∧ Separated left) ∨
      (keyParams .init false data = none ∧
        ∀ p left, parseParam data = .ok (p, left) → ¬ Separated left) := by
  obtain ⟨n, v, rfl, hspace⟩ := exists_spaces data
  by_cases hopen : v.head? = some '['
  · obtain ⟨rest, rfl⟩ := List.head?_eq_some_iff.mp hopen
    have hkeyOpen : keyParams .init false (spaces n ++ '[' :: rest) =
        keyParams .init true rest := (keyParams_spaces n _).trans (keyParams_cons rfl rest)
    obtain ⟨first, more, after, rfl⟩ | ⟨hkey, hend⟩ := array_reads rest
    · obtain ⟨trail, left, rfl, hspaceLeft⟩ := exists_spaces after
      by_cases hleft : Separated left
      · refine .inl ⟨.array n first more trail, left, ?_, hleft⟩
        simp [ItemParam.text]
      · refine .inr ⟨?_, fun p left' hok => ?_⟩
        · rw [hkeyOpen, ← append_assoc, keyParams_elements, keyParams_arrayClosed]
          exact (keyParams_not_separated false hspaceLeft hleft).2
        · rw [parseParam_array, parseArrayParam_elements] at hok
          cases hok
          exact not_separated trail hleft
    · refine .inr ⟨hkeyOpen.trans hkey, fun p left hok => ?_⟩
      rw [parseParam_array] at hok
      obtain ⟨r, harray, -⟩ := map_eq_ok hok
      obtain ⟨b, hb, -⟩ := map_eq_ok harray
      exact absurd hb (hend b)
  · obtain ⟨e, left, heq, hleft⟩ | ⟨hkey, hparse⟩ := element_reads n hspace hopen
    · exact .inl ⟨.element e, left, heq, hleft⟩
    · exact .inr ⟨hkey false, (not_separated_of_expandItem n hspace hopen hparse).2⟩

theorem paramsLoop_of_not (h : ∀ p left, parseParam data = .ok (p, left) → ¬ Separated left)
    (r : List (List Char) × List Char) : paramsLoop data ≠ .ok r := by
  rw [paramsLoop]
  split
  · rintro ⟨⟩
  · rintro ⟨⟩
  · next p c left hparam =>
    have hleft := h _ _ hparam
    rw [if_neg (fun hc => hleft ⟨c, left, rfl, .inr hc⟩),
      if_neg (fun hc => hleft ⟨c, left, rfl, .inl hc⟩)]
    rintro ⟨⟩

theorem params_reads (data : List Char) :
    (∃ p ps left, data = paramsText p ps ++ ']' :: left) ∨
      (keyParams .init false data = none ∧ ∀ r, paramsLoop data ≠ .ok r) := by
  induction hlength : data.length using Nat.strong_induction_on generalizing data with
  | _ k ih =>
    obtain ⟨p, left, rfl, hleft⟩ | ⟨hkey, hparse⟩ := param_reads data
    · obtain ⟨c, rest, rfl, rfl | rfl⟩ := id hleft
      · have hlt : rest.length < k := by
          rw [length_append, length_cons] at hlength
          omega
        obtain ⟨q, ps, left, rfl⟩ | ⟨hkey, hloop⟩ := ih rest.length hlt rest rfl
        · refine .inl ⟨p, q :: ps, left, ?_⟩
          simp [paramsText]
        · refine .inr ⟨?_, fun r hok => ?_⟩
          · exact (keyParams_param p hleft).trans ((keyParams_cons rfl rest).trans hkey)
          · by_cases hp : Tight p
            · have hparam := parseParam_param p hleft
              rw [afterArray_tight hp] at hparam
              rw [paramsLoop_of_param hparam, if_neg (by decide), if_pos rfl] at hok
              split_ifs at hok
              obtain ⟨r', hr', -⟩ := map_eq_ok hok
              exact hloop r' hr'
            · exact paramsLoop_not_tight hp hleft r hok
      · refine .inl ⟨p, [], rest, ?_⟩
        simp [paramsText, moreParams]
    · exact .inr ⟨hkey, paramsLoop_of_not hparse⟩

theorem isKeyChar_eq : (isKeyChar · false) = zbxIsKeyChar := by
  funext c
  unfold isKeyChar zbxIsKeyChar isalnum isalpha isdigit
  rw [Bool.false_and, Bool.or_false]
  ac_rfl

theorem parseParams_open (data : List Char) (r : List (List Char) × List Char) :
    parseParams ('[' :: data) = .ok r ↔ paramsLoop data = .ok r := by
  cases data with
  | nil =>
    refine ⟨nofun, fun h => ?_⟩
    rw [paramsLoop] at h
    cases h
  | cons c rest => exact Iff.rfl

theorem parseItemKey_ok (s key : List Char) (params : List (List Char)) :
    parseItemKey s = .ok (key, params) ↔ s.takeWhile zbxIsKeyChar ≠ [] ∧
      (s.dropWhile zbxIsKeyChar = [] ∧ key = s ∧ params = [] ∨
        ∃ data, s.dropWhile zbxIsKeyChar = '[' :: data ∧ key = s.takeWhile zbxIsKeyChar ∧
          paramsLoop data = .ok (params, [])) := by
  have hsplit : s.takeWhile zbxIsKeyChar ++ s.dropWhile zbxIsKeyChar = s :=
    takeWhile_append_dropWhile
  unfold parseItemKey parseMetricKey parseKey
  rw [isKeyChar_eq]
  cases hdrop : s.dropWhile zbxIsKeyChar with
  | nil =>
    rw [hdrop, append_nil] at hsplit
    rw [hsplit]
    by_cases hs : s = []
    · rw [if_pos hs]
      exact ⟨nofun, fun h => absurd hs h.1⟩
    · rw [if_neg hs]
      constructor
      · rintro ⟨⟩
        exact ⟨hs, .inl ⟨rfl, rfl, rfl⟩⟩
      · rintro ⟨-, ⟨-, rfl, rfl⟩ | ⟨data, hdata, -⟩⟩
        · rfl
        · cases hdata
  | cons c left =>
    have hs : s ≠ [] := fun hnil => by rw [hnil] at hdrop; cases hdrop
    rw [if_neg hs]
    dsimp only
    by_cases hname : s.takeWhile zbxIsKeyChar = []
    · rw [if_pos hname]
      exact ⟨nofun, fun h => absurd hname h.1⟩
    · rw [if_neg hname]
      by_cases hopen : c = '['
      · subst hopen
        rw [if_pos rfl]
        cases hparams : parseParams ('[' :: left) with
        | error err =>
          refine ⟨nofun, ?_⟩
          rintro ⟨-, ⟨hnil, -⟩ | ⟨data, hdata, -, hloop⟩⟩
          · cases hnil
          · cases hdata
            rw [(parseParams_open left _).mpr hloop] at hparams
            cases hparams
        | ok r =>
          obtain ⟨ps, rest⟩ := r
          have hloop := (parseParams_open left _).mp hparams
          dsimp only
          split_ifs with hrest
          · subst hrest
            constructor
            · rintro ⟨⟩
              exact ⟨hname, .inr ⟨left, rfl, rfl, hloop⟩⟩
            · rintro ⟨-, ⟨hnil, -⟩ | ⟨data, hdata, rfl, hdataLoop⟩⟩
              · cases hnil
              · cases hdata
                rw [hloop] at hdataLoop
                cases hdataLoop
                rfl
          · refine ⟨nofun, ?_⟩
            rintro ⟨-, ⟨hnil, -⟩ | ⟨data, hdata, -, hdataLoop⟩⟩
            · cases hnil
            · cases hdata
              rw [hloop] at hdataLoop
              cases hdataLoop
              exact absurd rfl hrest
      · rw [if_neg hopen]
        refine ⟨nofun, ?_⟩
        rintro ⟨-, ⟨hnil, -⟩ | ⟨data, hdata, -⟩⟩
        · cases hnil
        · exact absurd (List.cons.inj hdata).1 hopen

def ValuesAgree (s key : List Char) (params : List (List Char)) : Prop :=
  s = key ∧ params = [] ∨ ∃ inner, s = key ++ '[' :: (inner ++ [']']) ∧
    zbxNumParam inner = params.length ∧ ∀ k maxLen, inner.length < maxLen →
      (zbxGetParam (k + 1) maxLen inner).map Prod.fst = params[k]?

def SpacedArray (s : List Char) : Prop := ∃ name p ps,
  s = name ++ '[' :: (paramsText p ps ++ [']']) ∧ name ≠ [] ∧
    (∀ c ∈ name, zbxIsKeyChar c = true) ∧ ∃ q ∈ p :: ps, ¬ Tight q

theorem spacedArray_iff (s : List Char) : SpacedArray s ↔ s.takeWhile zbxIsKeyChar ≠ [] ∧
    ∃ p ps, s.dropWhile zbxIsKeyChar = '[' :: (paramsText p ps ++ [']']) ∧
      ∃ q ∈ p :: ps, ¬ Tight q := by
  constructor
  · rintro ⟨name, p, ps, rfl, hne, hname, hspaced⟩
    obtain ⟨htake, hdrop⟩ := @span_name _ (paramsText p ps ++ [']']) hname
    rw [htake, hdrop]
    exact ⟨hne, p, ps, rfl, hspaced⟩
  · rintro ⟨hne, p, ps, hdrop, hspaced⟩
    refine ⟨_, p, ps, ?_, hne, all_eq_true.mp all_takeWhile, hspaced⟩
    rw [← hdrop, takeWhile_append_dropWhile]

theorem valuesAgree_params {s key : List Char} {ps : List ItemParam}
    (h : s = key ++ '[' :: (paramsText p ps ++ [']'])) :
    ValuesAgree s key ((p :: ps).map ItemParam.value) := by
  refine .inr ⟨paramsText p ps, h, ?_, fun k maxLen hroom => ?_⟩
  · rw [zbxNumParam_params, length_map]
  · rw [zbxGetParam_params p ps k maxLen hroom, List.getElem?_map]

theorem paramsLoop_ok {params : List (List Char)} (h : paramsLoop data = .ok (params, left)) :
    ∃ p ps, data = paramsText p ps ++ ']' :: left ∧ params = (p :: ps).map ItemParam.value := by
  obtain ⟨p, ps, rest, rfl⟩ | ⟨-, hloop⟩ := params_reads data
  · by_cases htight : ∀ q ∈ p :: ps, Tight q
    · rw [paramsLoop_params p ps rest htight] at h
      cases h
      exact ⟨p, ps, rfl, rfl⟩
    · push Not at htight
      exact absurd h (paramsLoop_spaced p ps rest htight _)
  · exact absurd h (hloop _)

theorem keyParams_ok (h : keyParams .init false data = some left) :
    ∃ p ps, data = paramsText p ps ++ ']' :: left := by
  obtain ⟨p, ps, rest, rfl⟩ | ⟨hkey, -⟩ := params_reads data
  · rw [keyParams_params] at h
    cases h
    exact ⟨p, ps, rfl⟩
  · rw [hkey] at h
    cases h

/-- The agent reads the same keys as the server and gets the same parameters, but for keys with a
space after an array. -/
theorem parse_key_agrees (s : List Char) :
    (((∃ r, parseItemKey s = .ok r) ↔ zbxParseKey s = some []) ∧
      ∀ key params, parseItemKey s = .ok (key, params) → ValuesAgree s key params) ↔
        ¬ SpacedArray s := by
  have hsplit : s.takeWhile zbxIsKeyChar ++ s.dropWhile zbxIsKeyChar = s :=
    takeWhile_append_dropWhile
  rw [zbxParseKey_complete, spacedArray_iff]
  constructor
  · rintro ⟨haccept, -⟩ ⟨hname, p, ps, hdrop, hspaced⟩
    obtain ⟨⟨key, params⟩, hok⟩ :=
      haccept.mpr ⟨hname, .inr ⟨_, hdrop, keyParams_params p ps []⟩⟩
    obtain ⟨-, ⟨hnil, -⟩ | ⟨data, hdata, -, hloop⟩⟩ := (parseItemKey_ok s key params).mp hok
    · rw [hdrop] at hnil
      cases hnil
    · rw [hdrop] at hdata
      cases hdata
      exact paramsLoop_spaced p ps [] hspaced _ hloop
  · intro hspaced
    refine ⟨⟨?_, ?_⟩, fun key params hok => ?_⟩
    · rintro ⟨⟨key, params⟩, hok⟩
      obtain ⟨hname, ⟨hnil, -⟩ | ⟨data, hdrop, -, hloop⟩⟩ := (parseItemKey_ok s key params).mp hok
      · exact ⟨hname, .inl hnil⟩
      · obtain ⟨p, ps, rfl, -⟩ := paramsLoop_ok hloop
        exact ⟨hname, .inr ⟨_, hdrop, keyParams_params p ps []⟩⟩
    · rintro ⟨hname, hnil | ⟨data, hdrop, hkey⟩⟩
      · exact ⟨(s, []), (parseItemKey_ok s s []).mpr ⟨hname, .inl ⟨hnil, rfl, rfl⟩⟩⟩
      · obtain ⟨p, ps, rfl⟩ := keyParams_ok hkey
        have htight : ∀ q ∈ p :: ps, Tight q := by
          by_contra hnot
          push Not at hnot
          exact hspaced ⟨hname, p, ps, hdrop, hnot⟩
        exact ⟨_, (parseItemKey_ok s _ _).mpr
          ⟨hname, .inr ⟨_, hdrop, rfl, paramsLoop_params p ps [] htight⟩⟩⟩
    · obtain ⟨hname, ⟨-, rfl, rfl⟩ | ⟨data, hdrop, rfl, hloop⟩⟩ :=
        (parseItemKey_ok s key params).mp hok
      · exact .inl ⟨rfl, rfl⟩
      · obtain ⟨p, ps, rfl, rfl⟩ := paramsLoop_ok hloop
        rw [hdrop] at hsplit
        exact valuesAgree_params hsplit.symm

def spacedParam : ItemParam :=
  .array 0 (.plain 0 ['a'] ⟨fun c hc => by rw [mem_singleton.mp hc]; rfl,
    fun c hc => by cases hc; decide⟩) [] 1

/-- The server reads the key and the agent does not. -/
theorem spaced_array_rejected : zbxParseKey ['k', '[', '[', 'a', ']', ' ', ']'] = some [] ∧
    ¬ ∃ r, parseItemKey ['k', '[', '[', 'a', ']', ' ', ']'] = .ok r := by
  refine ⟨by decide, ?_⟩
  rintro ⟨⟨key, params⟩, hok⟩
  obtain ⟨-, ⟨hnil, -⟩ | ⟨data, hdrop, -, hloop⟩⟩ := (parseItemKey_ok _ key params).mp hok
  · cases hnil
  · obtain rfl : paramsText spacedParam [] ++ [']'] = data := (List.cons.inj hdrop).2
    have hspaced : ¬ Tight spacedParam := Nat.one_ne_zero
    exact paramsLoop_spaced spacedParam [] [] ⟨_, mem_cons_self, hspaced⟩ _ hloop

end Zabbix.Itemutil
