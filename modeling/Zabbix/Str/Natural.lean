import Zabbix.Foundation.BlurredLex
import Zabbix.Str.Utf8

/-!
# Natural comparison of strings

`zbx_strcmp_natural` of `zbxstr`. After equal numbers it steps over one character of each string
without a look at them, and only then goes on to compare.
-/

namespace Zabbix.Str

open List BlurredLex

variable {c d : UInt8} {s t s' t' : List UInt8}

def charValue (c : UInt8) : ℤ := c.toInt8.toInt

def isdigit (c : UInt8) : Bool := 48 ≤ c && c ≤ 57

def intMax : ℕ := 2147483647

/-- The loop `while (0 != isdigit(*s)) value = value * 10 + *s++ - '0'`; `none` when `value`
overflows. -/
def scanNumber : ℕ → List UInt8 → Option (ℕ × List UInt8)
  | value, [] => some (value, [])
  | value, c :: s =>
    if isdigit c then
      if value * 10 + c.toNat ≤ intMax then scanNumber (value * 10 + c.toNat - 48) s else none
    else some (value, c :: s)

/-- `*s`, the terminator included. -/
def firstValue (s : List UInt8) : ℤ := charValue (s.headD 0)

theorem scanNumber_length {value value' : ℕ} (h : scanNumber value s = some (value', s')) :
    s'.length ≤ s.length := by
  induction s generalizing value with
  | nil =>
    obtain ⟨-, rfl⟩ := Prod.mk.inj (Option.some_inj.mp h)
    exact le_refl 0
  | cons c s ih =>
    rw [scanNumber] at h
    split_ifs at h
    · exact (ih h).trans (Nat.le_succ _)
    · obtain ⟨-, rfl⟩ := Prod.mk.inj (Option.some_inj.mp h)
      exact le_refl _

/-- `zbx_strcmp_natural`; `none` when a number overflows. -/
def zbxStrcmpNatural : List UInt8 → List UInt8 → Option ℤ
  | c :: s, d :: t =>
    if !isdigit c || !isdigit d then
      if charValue c - charValue d ≠ 0 then some (charValue c - charValue d)
      else zbxStrcmpNatural s t
    else
      match _h : scanNumber 0 (c :: s), scanNumber 0 (d :: t) with
      | some (value1, s'), some (value2, t') =>
        if (value1 : ℤ) - value2 ≠ 0 then some (value1 - value2)
        else if s' = [] ∨ t' = [] then some (firstValue s' - firstValue t')
        else zbxStrcmpNatural s'.tail t'.tail
      | _, _ => none
  | s, t => some (firstValue s - firstValue t)
termination_by s => s.length
decreasing_by
  · exact Nat.lt_succ_self _
  · have hlength := scanNumber_length _h
    rw [length_tail]
    rw [length_cons] at hlength ⊢
    omega

/-- A character, the value of a run of digits, the character behind such a run, or the
terminator. -/
inductive Token
  | char (c : UInt8)
  | number (value : ℕ)
  | behind (c : UInt8)
  | stop
  deriving DecidableEq

def numberOf (value : ℕ) (s : List UInt8) : ℕ :=
  (s.takeWhile isdigit).foldl (fun value c => value * 10 + (c.toNat - 48)) value

def tokens : List UInt8 → List Token
  | [] => [.stop]
  | c :: s =>
    if isdigit c then
      .number (numberOf 0 (c :: s)) ::
        match _h : s.dropWhile isdigit with
        | [] => [.stop]
        | d :: t => .behind d :: tokens t
    else .char c :: tokens s
termination_by s => s.length
decreasing_by
  · have hlength := (dropWhile_sublist (l := s) isdigit).length_le
    rw [_h, length_cons] at hlength
    rw [length_cons]
    omega
  · exact Nat.lt_succ_self _

def Token.blur : Token → Token
  | behind _ => behind 0
  | t => t

def Token.rank : Token → ℤ ×ₗ ℕ
  | stop => toLex (0, 0)
  | char c => toLex (charValue c, 1)
  | behind c => toLex (charValue c, 2)
  | number value => toLex (48, value + 3)

/-- Numbers that are compared stay below the largest `int`, also with the last digit as a
character. -/
def NumbersFit : List Token → List Token → Prop
  | a :: as, b :: bs =>
    (∀ v w, a = .number v → b = .number w → v + 48 ≤ intMax ∧ w + 48 ≤ intMax) ∧
      (a.blur = b.blur → NumbersFit as bs)
  | _, _ => True

def TokensBefore : List Token → List Token → Prop := Before Token.blur Token.rank

def Compares : Option ℤ → List Token → List Token → Prop
  | none, as, bs => ¬NumbersFit as bs
  | some x, as, bs => NumbersFit as bs ∧ (x < 0 ↔ TokensBefore as bs) ∧ (0 < x ↔ TokensBefore bs as)

theorem isdigit_toNat (c : UInt8) : isdigit c = true ↔ 48 ≤ c.toNat ∧ c.toNat ≤ 57 := by
  simp [isdigit, UInt8.le_iff_toNat_le]

theorem isdigit_iff (c : UInt8) : isdigit c = true ↔ 48 ≤ charValue c ∧ charValue c ≤ 57 := by
  have hvalue : charValue c = if 2 * c.toNat < 2 ^ 8 then (c.toNat : ℤ) else c.toNat - 2 ^ 8 :=
    BitVec.toInt_eq_toNat_cond c.toBitVec
  have hc := c.toNat_lt
  rw [isdigit_toNat, hvalue]
  split_ifs <;> omega

theorem charValue_injective : Function.Injective charValue := by
  intro c d h
  have heq := congrArg Int8.toUInt8 (Int8.toInt_inj.mp h)
  rwa [UInt8.toUInt8_toInt8, UInt8.toUInt8_toInt8] at heq

theorem charValue_ne_zero (h : c ≠ 0) : charValue c ≠ 0 := fun hzero => h (charValue_injective hzero)

theorem eq_nil_of_firstValue (hs : 0 ∉ s) (h : firstValue s = 0) : s = [] := by
  cases s with
  | nil => rfl
  | cons c s => exact absurd h (charValue_ne_zero fun hc => hs (hc ▸ mem_cons_self))

theorem rank_injective : Function.Injective Token.rank := by
  intro a b h
  cases a <;> cases b <;> simp_all [Token.rank, charValue_injective.eq_iff]

theorem numberOf_ge (value : ℕ) (s : List UInt8) : value ≤ numberOf value s := by
  unfold numberOf
  generalize s.takeWhile isdigit = digits
  induction digits generalizing value with
  | nil => exact le_refl value
  | cons c digits ih => exact le_trans (by omega) (ih (value * 10 + (c.toNat - 48)))

theorem scanNumber_eq {value : ℕ} (hvalue : value + 48 ≤ intMax) :
    scanNumber value s =
      if numberOf value s + 48 ≤ intMax then some (numberOf value s, s.dropWhile isdigit)
      else none := by
  induction s generalizing value with
  | nil => rw [scanNumber, numberOf, takeWhile_nil, foldl_nil, if_pos hvalue, dropWhile_nil]
  | cons c s ih =>
    rw [scanNumber]
    by_cases hc : isdigit c
    · have hdigit : 48 ≤ c.toNat := ((isdigit_toNat c).mp hc).1
      have hnumber : numberOf value (c :: s) = numberOf (value * 10 + c.toNat - 48) s := by
        rw [numberOf, takeWhile_cons_of_pos hc, foldl_cons, numberOf, Nat.add_sub_assoc hdigit]
      rw [if_pos hc, hnumber, dropWhile_cons_of_pos hc]
      by_cases hfits : value * 10 + c.toNat ≤ intMax
      · rw [if_pos hfits, ih (by omega)]
      · have hlarge := numberOf_ge (value * 10 + c.toNat - 48) s
        rw [if_neg hfits, if_neg (by omega)]
    · rw [if_neg hc, numberOf, takeWhile_cons_of_neg hc, foldl_nil, if_pos hvalue,
        dropWhile_cons_of_neg hc]

theorem Compares.cons {a b : Token} {as bs : List Token} {r : Option ℤ}
    (hfit : ∀ v w, a = .number v → b = .number w → v + 48 ≤ intMax ∧ w + 48 ≤ intMax)
    (hblur : a.blur = b.blur) (h : Compares r as bs) : Compares r (a :: as) (b :: bs) := by
  cases r with
  | none => exact fun hfits => h (hfits.2 hblur)
  | some x =>
    obtain ⟨hfits, hlt, hgt⟩ := h
    refine ⟨⟨hfit, fun _ => hfits⟩, ?_, ?_⟩
    · rw [hlt, TokensBefore, before_cons, if_pos hblur]
    · rw [hgt, TokensBefore, before_cons, if_pos hblur.symm]

theorem Compares.first {a b : Token} {as bs : List Token} {x : ℤ}
    (hfit : ∀ v w, a = .number v → b = .number w → v + 48 ≤ intMax ∧ w + 48 ≤ intMax)
    (hblur : a.blur ≠ b.blur) (hlt : x < 0 ↔ a.rank < b.rank) (hgt : 0 < x ↔ b.rank < a.rank) :
    Compares (some x) (a :: as) (b :: bs) := by
  refine ⟨⟨hfit, fun heq => absurd heq hblur⟩, ?_, ?_⟩
  · rw [hlt, TokensBefore, before_cons, if_neg hblur]
  · rw [hgt, TokensBefore, before_cons, if_neg hblur.symm]

theorem tokens_head (s : List UInt8) :
    ∃ a as, tokens s = a :: as ∧ a.blur = a ∧
      ((isdigit (s.headD 0) = true ∧ ∃ v, a = .number v) ∨
        (isdigit (s.headD 0) = false ∧ (∀ v, a ≠ .number v) ∧
          ∃ k, a.rank = toLex (firstValue s, k))) := by
  cases s with
  | nil => exact ⟨.stop, [], by rw [tokens], rfl, .inr ⟨rfl, nofun, 0, rfl⟩⟩
  | cons c s =>
    by_cases hc : isdigit c
    · exact ⟨_, _, by rw [tokens, if_pos hc], rfl, .inl ⟨hc, _, rfl⟩⟩
    · exact ⟨.char c, _, by rw [tokens, if_neg hc], rfl,
        .inr ⟨Bool.eq_false_iff.mpr hc, nofun, 1, rfl⟩⟩

theorem compares_first (hdigit : isdigit (s.headD 0) = false ∨ isdigit (t.headD 0) = false)
    (hne : firstValue s ≠ firstValue t) :
    Compares (some (firstValue s - firstValue t)) (tokens s) (tokens t) := by
  obtain ⟨a, as, hs, ha, hfirst⟩ := tokens_head s
  obtain ⟨b, bs, ht, hb, hfirst'⟩ := tokens_head t
  have hs0 := isdigit_iff (s.headD 0)
  have ht0 := isdigit_iff (t.headD 0)
  have horder : (∀ v w, a = .number v → b = .number w → v + 48 ≤ intMax ∧ w + 48 ≤ intMax) ∧
      (firstValue s < firstValue t ↔ a.rank < b.rank) ∧
      (firstValue t < firstValue s ↔ b.rank < a.rank) := by
    unfold firstValue at *
    obtain ⟨hc, v, rfl⟩ | ⟨hc, hnot, k, hrank⟩ := hfirst
    · obtain ⟨hd, w, rfl⟩ | ⟨hd, hnot, l, hrank⟩ := hfirst'
      · rw [hc, hd] at hdigit
        simp at hdigit
      · refine ⟨fun _ w _ hb => absurd hb (hnot w), ?_⟩
        rw [hrank, Token.rank, Prod.Lex.toLex_lt_toLex, Prod.Lex.toLex_lt_toLex]
        simp only [hc, hd, true_iff, Bool.false_eq_true, false_iff] at hs0 ht0
        dsimp only
        omega
    · refine ⟨fun v _ ha => absurd ha (hnot v), ?_⟩
      obtain ⟨hd, w, rfl⟩ | ⟨hd, -, l, hrank'⟩ := hfirst'
      · rw [hrank, Token.rank, Prod.Lex.toLex_lt_toLex, Prod.Lex.toLex_lt_toLex]
        simp only [hc, hd, true_iff, Bool.false_eq_true, false_iff] at hs0 ht0
        dsimp only
        omega
      · rw [hrank, hrank', Prod.Lex.toLex_lt_toLex, Prod.Lex.toLex_lt_toLex]
        dsimp only
        omega
  obtain ⟨hfit, hlt, hgt⟩ := horder
  have hblur : a.blur ≠ b.blur := by
    rw [ha, hb]
    rintro rfl
    have hle := hlt.not.mpr (lt_irrefl _)
    have hge := hgt.not.mpr (lt_irrefl _)
    omega
  rw [hs, ht]
  refine .first hfit hblur ?_ ?_
  · rw [← hlt]
    omega
  · rw [← hgt]
    omega

def behindTokens : List UInt8 → List Token
  | [] => [.stop]
  | d :: t => .behind d :: tokens t

theorem tokens_digit (hc : isdigit c = true) :
    tokens (c :: s) =
      .number (numberOf 0 (c :: s)) :: behindTokens ((c :: s).dropWhile isdigit) := by
  rw [tokens, if_pos hc, dropWhile_cons_of_pos hc]
  split <;> simp [behindTokens, *]

theorem tokens_scan {value : ℕ} (hc : isdigit c = true) (hs : 0 ∉ c :: s)
    (h : scanNumber 0 (c :: s) = some (value, s')) :
    tokens (c :: s) = .number value :: behindTokens s' ∧ value + 48 ≤ intMax ∧ 0 ∉ s' := by
  rw [scanNumber_eq (by decide)] at h
  split_ifs at h with hfits
  obtain ⟨rfl, rfl⟩ := Prod.mk.inj (Option.some_inj.mp h)
  exact ⟨tokens_digit hc, hfits, fun hmem => hs ((dropWhile_sublist isdigit).mem hmem)⟩

theorem compares_end (hs : 0 ∉ s) (ht : 0 ∉ t) (hend : s = [] ∨ t = []) :
    Compares (some (firstValue s - firstValue t)) (behindTokens s) (behindTokens t) := by
  have hstop : Token.stop.rank = toLex (0, 0) := rfl
  have hbehind : ∀ c, (Token.behind c).rank = toLex (charValue c, 2) := fun _ => rfl
  have hzero : ∀ {c} {r : List UInt8}, 0 ∉ c :: r → charValue c ≠ 0 := fun hr h =>
    absurd (eq_nil_of_firstValue hr h) (cons_ne_nil _ _)
  cases s with
  | nil =>
    cases t with
    | nil => exact .cons (by simp) rfl ⟨trivial, by simp [TokensBefore, Before, firstValue], by simp [TokensBefore, Before, firstValue]⟩
    | cons d t =>
      have hd := hzero ht
      have hfirst : firstValue [] - firstValue (d :: t) = -charValue d := zero_sub _
      rw [hfirst]
      refine .first (by simp) (by simp [Token.blur]) ?_ ?_ <;>
        rw [hstop, hbehind, Prod.Lex.toLex_lt_toLex] <;> dsimp only <;> omega
  | cons c s =>
    obtain rfl : t = [] := hend.resolve_left (cons_ne_nil c s)
    have hc := hzero hs
    have hfirst : firstValue (c :: s) - firstValue [] = charValue c := sub_zero _
    rw [hfirst]
    refine .first (by simp) (by simp [Token.blur]) ?_ ?_ <;>
      rw [hstop, hbehind, Prod.Lex.toLex_lt_toLex] <;> dsimp only <;> omega

theorem numbers_fit {v w : ℕ} (hv : v + 48 ≤ intMax) (hw : w + 48 ≤ intMax) :
    ∀ v' w', Token.number v = .number v' → Token.number w = .number w' →
      v' + 48 ≤ intMax ∧ w' + 48 ≤ intMax := by
  rintro _ _ ⟨⟩ ⟨⟩
  exact ⟨hv, hw⟩

theorem strcmpNatural_compares (hs : 0 ∉ s) (ht : 0 ∉ t) :
    Compares (zbxStrcmpNatural s t) (tokens s) (tokens t) := by
  fun_induction zbxStrcmpNatural s t with
  | case1 c s d t hdigit hne => exact compares_first (by simpa using hdigit) (sub_ne_zero.mp hne)
  | case2 c s d t hdigit heq ih =>
    obtain rfl := charValue_injective (sub_eq_zero.mp (not_not.mp heq))
    have hc : ¬isdigit c = true := by simpa using hdigit
    rw [mem_cons, not_or] at hs ht
    rw [tokens, if_neg hc, tokens, if_neg hc]
    exact .cons nofun rfl (ih hs.2 ht.2)
  | case3 c s d t hdigit value1 s' value2 t' hscan1 hscan2 hne =>
    obtain ⟨hc, hd⟩ : isdigit c = true ∧ isdigit d = true := by simpa using hdigit
    obtain ⟨htokens, hfits, -⟩ := tokens_scan hc hs hscan1
    obtain ⟨htokens', hfits', -⟩ := tokens_scan hd ht hscan2
    have hrank : ∀ v w : ℕ, (v : ℤ) - w < 0 ↔ (Token.number v).rank < (Token.number w).rank := by
      intro v w
      rw [Token.rank, Token.rank, Prod.Lex.toLex_lt_toLex]
      dsimp only
      omega
    rw [htokens, htokens']
    refine .first (numbers_fit hfits hfits') ?_ (hrank _ _) ?_
    · rintro ⟨⟩
      exact hne (sub_self _)
    · rw [← hrank]
      omega
  | case4 c s d t hdigit value1 s' value2 t' hscan1 hscan2 heq hend =>
    obtain ⟨hc, hd⟩ : isdigit c = true ∧ isdigit d = true := by simpa using hdigit
    obtain ⟨htokens, hfits, hs'⟩ := tokens_scan hc hs hscan1
    obtain ⟨htokens', hfits', ht'⟩ := tokens_scan hd ht hscan2
    obtain rfl : value1 = value2 := by omega
    rw [htokens, htokens']
    exact .cons (numbers_fit hfits hfits') rfl (compares_end hs' ht' hend)
  | case5 c s d t hdigit value1 s' value2 t' hscan1 hscan2 heq hend ih =>
    obtain ⟨hc, hd⟩ : isdigit c = true ∧ isdigit d = true := by simpa using hdigit
    obtain ⟨htokens, hfits, hs'⟩ := tokens_scan hc hs hscan1
    obtain ⟨htokens', hfits', ht'⟩ := tokens_scan hd ht hscan2
    obtain rfl : value1 = value2 := by omega
    rw [htokens, htokens']
    obtain ⟨hne, hne'⟩ := not_or.mp hend
    obtain ⟨e, s', rfl⟩ := exists_cons_of_ne_nil hne
    obtain ⟨e', t', rfl⟩ := exists_cons_of_ne_nil hne'
    rw [mem_cons, not_or] at hs' ht'
    -- the characters behind the numbers are not looked at
    exact .cons (numbers_fit hfits hfits') rfl (.cons nofun rfl (ih hs'.2 ht'.2))
  | case6 c s d t hdigit hnone =>
    obtain ⟨hc, hd⟩ : isdigit c = true ∧ isdigit d = true := by simpa using hdigit
    rw [tokens_digit hc, tokens_digit hd]
    intro hfits
    obtain ⟨hv, hw⟩ := hfits.1 _ _ rfl rfl
    have hscan := scanNumber_eq (s := c :: s) (show 0 + 48 ≤ intMax by decide)
    have hscan' := scanNumber_eq (s := d :: t) (show 0 + 48 ≤ intMax by decide)
    rw [if_pos hv] at hscan
    rw [if_pos hw] at hscan'
    exact hnone _ _ _ _ hscan hscan'
  | case7 s t hempty =>
    have hone : s = [] ∨ t = [] := by
      cases s with
      | nil => exact .inl rfl
      | cons c s =>
        cases t with
        | nil => exact .inr rfl
        | cons d t => exact (hempty c s d t rfl rfl).elim
    by_cases heq : firstValue s = firstValue t
    · obtain ⟨rfl, rfl⟩ : s = [] ∧ t = [] := by
        obtain rfl | rfl := hone
        · exact ⟨rfl, eq_nil_of_firstValue ht heq.symm⟩
        · exact ⟨eq_nil_of_firstValue hs heq, rfl⟩
      rw [tokens]
      exact compares_end hs ht (.inl rfl)
    · refine compares_first ?_ heq
      obtain rfl | rfl := hone
      · exact .inl rfl
      · exact .inr rfl

/-- The laws of an order, for the strings of a set; strings whose numbers have the same values
are equal. -/
structure OrdersNaturally (strings : Set { s : List UInt8 // 0 ∉ s }) : Prop where
  antisymm : ∀ a ∈ strings, ∀ b ∈ strings, ∃ x y, zbxStrcmpNatural a.1 b.1 = some x ∧
    zbxStrcmpNatural b.1 a.1 = some y ∧ y.sign = -x.sign
  trans : ∀ a ∈ strings, ∀ b ∈ strings, ∀ c ∈ strings, ∀ x y z,
    zbxStrcmpNatural a.1 b.1 = some x → zbxStrcmpNatural b.1 c.1 = some y →
    zbxStrcmpNatural a.1 c.1 = some z → x ≤ 0 → y ≤ 0 → z ≤ 0
  eq_of_zero : ∀ a ∈ strings, ∀ b ∈ strings, zbxStrcmpNatural a.1 b.1 = some 0 →
    tokens a.1 = tokens b.1

/-- The laws hold exactly for the strings in which the compared numbers fit into an `int`, that
are equal when they agree but for the characters behind their numbers, and that go on in order
where one character behind a number comes before the end of a third string and the other after. -/
theorem ordersNaturally_iff (strings : Set { s : List UInt8 // 0 ∉ s }) :
    OrdersNaturally strings ↔
      (∀ a ∈ strings, ∀ b ∈ strings, NumbersFit (tokens a.1) (tokens b.1)) ∧
      (∀ a ∈ strings, ∀ b ∈ strings,
        (tokens a.1).map Token.blur = (tokens b.1).map Token.blur → tokens a.1 = tokens b.1) ∧
      ∀ a ∈ strings, ∀ b ∈ strings, ∀ c ∈ strings,
        InOrder Token.blur Token.rank (tokens a.1) (tokens b.1) (tokens c.1) := by
  have hrank : ∀ a b : Token, a.blur ≠ b.blur → a.rank ≠ b.rank := fun a b hne heq =>
    hne (congrArg Token.blur (rank_injective heq))
  have hspec : ∀ a b : { s : List UInt8 // 0 ∉ s },
      Compares (zbxStrcmpNatural a.1 b.1) (tokens a.1) (tokens b.1) :=
    fun a b => strcmpNatural_compares a.2 b.2
  have hsome : ∀ {a b : { s : List UInt8 // 0 ∉ s }} {x}, zbxStrcmpNatural a.1 b.1 = some x →
      NumbersFit (tokens a.1) (tokens b.1) ∧ (x < 0 ↔ TokensBefore (tokens a.1) (tokens b.1)) ∧
        (0 < x ↔ TokensBefore (tokens b.1) (tokens a.1)) := by
    intro a b x h
    have h' := hspec a b
    rwa [h] at h'
  constructor
  · intro h
    refine ⟨?_, ?_, ?_⟩
    · intro a ha b hb
      obtain ⟨x, y, hx, -, -⟩ := h.antisymm a ha b hb
      exact (hsome hx).1
    · intro a ha b hb hblur
      obtain ⟨x, y, hx, -, -⟩ := h.antisymm a ha b hb
      obtain ⟨-, hlt, hgt⟩ := hsome hx
      obtain ⟨hab, hba⟩ := (map_blur_eq_iff hrank).mp hblur
      have hzero : x = 0 := le_antisymm (not_lt.mp (mt hgt.mp hba)) (not_lt.mp (mt hlt.mp hab))
      exact h.eq_of_zero a ha b hb (hzero ▸ hx)
    · intro a ha b hb c hc
      refine inOrder_of_trans ?_
      intro hbc hab hac
      obtain ⟨x, -, hx, -, -⟩ := h.antisymm c hc b hb
      obtain ⟨y, -, hy, -, -⟩ := h.antisymm b hb a ha
      obtain ⟨z, -, hz, -, -⟩ := h.antisymm c hc a ha
      have hle := h.trans c hc b hb a ha x y z hx hy hz (not_lt.mp (mt (hsome hx).2.2.mp hbc))
        (not_lt.mp (mt (hsome hy).2.2.mp hab))
      exact absurd ((hsome hz).2.2.mpr hac) (not_lt.mpr hle)
  · rintro ⟨hfit, hequal, horder⟩
    have hdefined : ∀ a ∈ strings, ∀ b ∈ strings, ∃ x, zbxStrcmpNatural a.1 b.1 = some x := by
      intro a ha b hb
      have h := hspec a b
      cases hcmp : zbxStrcmpNatural a.1 b.1 with
      | none =>
        rw [hcmp] at h
        exact absurd (hfit a ha b hb) h
      | some x => exact ⟨x, rfl⟩
    refine ⟨?_, ?_, ?_⟩
    · intro a ha b hb
      obtain ⟨x, hx⟩ := hdefined a ha b hb
      obtain ⟨y, hy⟩ := hdefined b hb a ha
      refine ⟨x, y, hx, hy, ?_⟩
      obtain ⟨-, hlt, hgt⟩ := hsome hx
      obtain ⟨-, hlt', hgt'⟩ := hsome hy
      rw [← hlt'] at hgt
      rw [← hgt'] at hlt
      obtain hneg | rfl | hpos := lt_trichotomy x 0
      · rw [Int.sign_eq_neg_one_of_neg hneg, Int.sign_eq_one_of_pos (hlt.mp hneg)]
        rfl
      · rw [show y = 0 by omega]
        rfl
      · rw [Int.sign_eq_one_of_pos hpos, Int.sign_eq_neg_one_of_neg (hgt.mp hpos)]
    · intro a ha b hb c hc x y z hx hy hz hxle hyle
      have hba := mt (hsome hx).2.2.mpr (not_lt.mpr hxle)
      have hcb := mt (hsome hy).2.2.mpr (not_lt.mpr hyle)
      have hca := not_before_trans hrank (horder c hc b hb a ha) (horder a ha c hc b hb)
        (horder b hb a ha c hc) hba hcb
      exact not_lt.mp (mt (hsome hz).2.2.mp hca)
    · intro a ha b hb hzero
      obtain ⟨-, hlt, hgt⟩ := hsome hzero
      exact hequal a ha b hb ((map_blur_eq_iff hrank).mpr
        ⟨mt hlt.mpr (lt_irrefl 0), mt hgt.mpr (lt_irrefl 0)⟩)

/-- The strings `1a` and `1b` are taken for equal. -/
theorem strcmpNatural_skips :
    ¬OrdersNaturally {⟨[49, 97], by decide⟩, ⟨[49, 98], by decide⟩} := by
  intro h
  have hzero : zbxStrcmpNatural [49, 97] [49, 98] = some 0 := by
    simp [zbxStrcmpNatural, scanNumber, isdigit, intMax, firstValue]
  have htokens := h.eq_of_zero _ (.inl rfl) _ (.inr rfl) hzero
  rw [tokens_digit rfl, tokens_digit rfl] at htokens
  have hbehind : behindTokens [97] = behindTokens [98] := (cons.inj htokens).2
  exact absurd (cons.inj hbehind).1 (by decide)

end Zabbix.Str
