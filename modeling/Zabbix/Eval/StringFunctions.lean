import Zabbix.Preproc.Composition
import Zabbix.Preproc.CsvScan

/-!
# Functions of parts of strings

`mid` and `insert` of an expression. Texts are the bytes before the terminating zero; positions and
lengths are characters, and come as unsigned numbers of 64 bits.
-/

namespace Zabbix.Eval

open Expr Utf8 Zabbix.Preproc

def zbxStrlenUtf8 (text : List Char) : ℕ := text.countP fun c => !isContinuation c

def zbxStrshiftUtf8 : List Char → ℕ → List Char
  | [], _ => []
  | c :: text, 0 => c :: text
  | _ :: text, num + 1 =>
    if isContinuation (charAt text) then zbxStrshiftUtf8 text (num + 1)
    else zbxStrshiftUtf8 text num

def ncharsLoop : ℕ → List Char → ℕ → ℕ
  | 0, _, _ => 0
  | fuel + 1, text, utf8Maxlen =>
    let csz := zbxUtf8CharLen text
    if text = [] ∨ utf8Maxlen = 0 ∨ csz = 0 ∨ text.length < csz then 0
    else csz + ncharsLoop fuel (text.drop csz) (utf8Maxlen - 1)

def zbxStrlenUtf8Nchars (text : List Char) (utf8Maxlen : ℕ) : ℕ :=
  ncharsLoop text.length text utf8Maxlen

/-- The loop of `strlen_utf8_nbytes`. -/
def characterStart (text : List Char) : ℕ → ℕ
  | 0 => 0
  | sz + 1 =>
    if isContinuation (charAt (text.drop (sz + 1))) then characterStart text sz else sz + 1

def strlenUtf8Nbytes (text : List Char) (maxlen : ℕ) : ℕ :=
  if maxlen < text.length then characterStart text maxlen else text.length

def zbxStrlcpyUtf8 (src : List Char) (size : ℕ) : List Char :=
  src.take (strlenUtf8Nbytes src (size - 1))

def zbxReplaceMemDyn (data : List Char) (offset szTo : ℕ) (source : List Char) : List Char :=
  data.take offset ++ source ++ data.drop (offset + szTo)

section Functions

variable {D : Type} (fl : Double D)

def evalFunctionReturn (argsNum : ℕ) (value : Variant D) (output : List (Variant D)) :
    List (Variant D) :=
  value :: output.drop argsNum

/-- `eval_validate_function_args`; a stack when an argument is an error, which is the result. -/
def evalValidateFunctionArgs (expression : List Char) (token : EvalToken D)
    (output : List (Variant D)) : Except String (Option (List (Variant D))) :=
  let argsNum := token.opt.toNat
  if output.length < argsNum then
    .error (quoted "not enough arguments for function at" expression token.loc.l)
  else
    .ok (((output.take argsNum).reverse.find? Variant.isErr).map fun value =>
      evalFunctionReturn argsNum value output)

/-- The text of `eval_convert_function_arg` for an argument of another type. -/
def argumentError (expression : List Char) (token : EvalToken D) (arg : Variant D) (type : String) :
    String :=
  quoted (String.ofList ("function argument \"".toList ++ zbxVariantValueDesc fl.toFloating arg ++
    ['"']) ++ " is not " ++ type ++ " value at") expression token.loc.l

def convertArgToStr (expression : List Char) (token : EvalToken D) (arg : Variant D) :
    Except String (List Char) :=
  match variantToStr fl arg with
  | some text => .ok text
  | none => .error (argumentError fl expression token arg "a string")

def convertArgToUi64 (expression : List Char) (token : EvalToken D) (arg : Variant D) :
    Except String UInt64 :=
  match variantToUi64 fl arg with
  | some value => .ok value
  | none => .error (argumentError fl expression token arg "an unsigned integer")

def withArguments (argsNum : ℕ) (expression : List Char) (token : EvalToken D)
    (output : List (Variant D)) (call : Except String (Variant D)) :
    Except String (List (Variant D)) :=
  if token.opt ≠ argsNum then
    .error (quoted "invalid number of arguments for function at" expression token.loc.l)
  else
    (evalValidateFunctionArgs expression token output).bind fun unknown =>
      match unknown with
      | some output => .ok output
      | none => call.map fun value => evalFunctionReturn argsNum value output

def midText (expression : List Char) (pos : ℕ) (arg : List Char) (start len : UInt64) :
    Except String (List Char) :=
  let srclen := zbxStrlenUtf8 arg
  if start = 0 ∨ srclen < start.toNat then
    .error (quoted "invalid function second argument at" expression pos)
  else
    let p := zbxStrshiftUtf8 arg (start - 1).toNat
    if (start + len).toNat ≤ srclen then
      .ok (zbxStrlcpyUtf8 p (zbxStrlenUtf8Nchars p len.toNat + 1))
    else .ok p

def evalExecuteFunctionMid (expression : List Char) (token : EvalToken D)
    (output : List (Variant D)) : Except String (List (Variant D)) :=
  withArguments 3 expression token output do
    let arg ← convertArgToStr fl expression token (output.getD 2 .none)
    let start ← convertArgToUi64 fl expression token (output.getD 1 .none)
    let len ← convertArgToUi64 fl expression token (output.getD 0 .none)
    return .str (← midText expression token.loc.l arg start len)

def insertText (expression : List Char) (pos : ℕ) (arg : List Char) (start len : UInt64)
    (replacement : List Char) : Except String (List Char) :=
  let srcLen := zbxStrlenUtf8 arg
  if start = 0 ∨ srcLen < start.toNat then
    .error (quoted "invalid function second argument at" expression pos)
  else if srcLen < (start - 1 + len).toNat then
    .error (quoted "invalid function third argument at" expression pos)
  else
    let p := zbxStrshiftUtf8 arg (start - 1).toNat
    let sz := zbxStrlenUtf8Nchars p len.toNat
    .ok (zbxReplaceMemDyn arg (arg.length - p.length) sz replacement)

def evalExecuteFunctionInsert (expression : List Char) (token : EvalToken D)
    (output : List (Variant D)) : Except String (List (Variant D)) :=
  withArguments 4 expression token output do
    let arg ← convertArgToStr fl expression token (output.getD 3 .none)
    let start ← convertArgToUi64 fl expression token (output.getD 2 .none)
    let len ← convertArgToUi64 fl expression token (output.getD 1 .none)
    let replacement ← convertArgToStr fl expression token (output.getD 0 .none)
    return .str (← insertText expression token.loc.l arg start len replacement)

end Functions

variable {chars rest text : List Char}

theorem charAt_encodeAll_starts (chars : List Char) :
    isContinuation (charAt (encodeAll chars)) = false := by
  cases chars with
  | nil => rfl
  | cons c chars =>
    obtain ⟨b, bs, h, hb, -⟩ := encode_starts c
    rw [encodeAll_cons, h]
    exact hb

theorem zbxStrlenUtf8_encodeAll (chars : List Char) :
    zbxStrlenUtf8 (encodeAll chars) = chars.length := by
  induction chars with
  | nil => rfl
  | cons c chars ih =>
    obtain ⟨b, bs, h, hb, hbs⟩ := encode_starts c
    have hcontinue : bs.countP (fun x => !isContinuation x) = 0 := by
      rw [List.countP_eq_zero]
      intro x hx
      simp [hbs x hx]
    have hfirst : (encode c).countP (fun x => !isContinuation x) = 1 := by
      rw [h, List.countP_cons, hcontinue]
      simp [hb]
    unfold zbxStrlenUtf8 at ih ⊢
    rw [encodeAll_cons, List.countP_append, hfirst, ih, List.length_cons]
    exact Nat.add_comm 1 chars.length

theorem zbxStrshiftUtf8_cons {b : Char} {bs : List Char} (n : ℕ)
    (hbs : ∀ x ∈ bs, isContinuation x = true) (hrest : isContinuation (charAt rest) = false) :
    zbxStrshiftUtf8 (b :: (bs ++ rest)) (n + 1) = zbxStrshiftUtf8 rest n := by
  induction bs generalizing b with
  | nil =>
    rw [List.nil_append, zbxStrshiftUtf8]
    simp [hrest]
  | cons x bs ih =>
    obtain ⟨hx, hbs⟩ := List.forall_mem_cons.mp hbs
    have hnext : isContinuation (charAt (x :: bs ++ rest)) = true := hx
    rw [zbxStrshiftUtf8, if_pos hnext]
    exact ih hbs

theorem zbxStrshiftUtf8_zero (text : List Char) : zbxStrshiftUtf8 text 0 = text := by
  cases text with
  | nil => rfl
  | cons c text => rfl

theorem zbxStrshiftUtf8_encodeAll (chars : List Char) (n : ℕ) :
    zbxStrshiftUtf8 (encodeAll chars) n = encodeAll (chars.drop n) := by
  induction chars generalizing n with
  | nil => rw [List.drop_nil, encodeAll_nil, zbxStrshiftUtf8]
  | cons c chars ih =>
    cases n with
    | zero => exact zbxStrshiftUtf8_zero _
    | succ n =>
      obtain ⟨b, bs, h, -, hbs⟩ := encode_starts c
      rw [encodeAll_cons, h, List.cons_append,
        zbxStrshiftUtf8_cons n hbs (charAt_encodeAll_starts chars), ih n, List.drop_succ_cons]

theorem ncharsLoop_encodeAll (chars : List Char) {fuel : ℕ} (n : ℕ)
    (hfuel : (encodeAll chars).length ≤ fuel) :
    ncharsLoop fuel (encodeAll chars) n = (encodeAll (chars.take n)).length := by
  induction chars generalizing fuel n with
  | nil =>
    rw [List.take_nil]
    cases fuel with
    | zero => rfl
    | succ fuel => rfl
  | cons c chars ih =>
    have hpos := length_encode_pos c
    have hlen : (encodeAll (c :: chars)).length = (encode c).length + (encodeAll chars).length := by
      rw [encodeAll_cons, List.length_append]
    obtain ⟨fuel, rfl⟩ : ∃ m, fuel = m + 1 := ⟨fuel - 1, by omega⟩
    have hne : encodeAll (c :: chars) ≠ [] := List.ne_nil_of_length_pos (by omega)
    have hsize : zbxUtf8CharLen (encodeAll (c :: chars)) = (encode c).length := by
      rw [encodeAll_cons, zbxUtf8CharLen_encode]
    have hdrop : (encodeAll (c :: chars)).drop (encode c).length = encodeAll chars := by
      rw [encodeAll_cons, List.drop_left]
    cases n with
    | zero =>
      rw [ncharsLoop, if_pos (.inr (.inl rfl))]
      rfl
    | succ n =>
      have hgo : ¬ (encodeAll (c :: chars) = [] ∨ n + 1 = 0 ∨ (encode c).length = 0 ∨
          (encodeAll (c :: chars)).length < (encode c).length) := by
        simp only [hne, false_or]
        omega
      rw [ncharsLoop]
      simp only [hsize, if_neg hgo, hdrop, Nat.add_sub_cancel]
      rw [ih n (by omega), List.take_succ_cons, encodeAll_cons, List.length_append]

theorem zbxStrlenUtf8Nchars_encodeAll (chars : List Char) (n : ℕ) :
    zbxStrlenUtf8Nchars (encodeAll chars) n = (encodeAll (chars.take n)).length :=
  ncharsLoop_encodeAll chars n (Nat.le_refl _)

theorem encodeAll_take_append_drop (chars : List Char) (n : ℕ) :
    encodeAll (chars.take n) ++ encodeAll (chars.drop n) = encodeAll chars := by
  rw [← encodeAll_append, List.take_append_drop]

theorem strlenUtf8Nbytes_encodeAll (chars : List Char) (n : ℕ) :
    strlenUtf8Nbytes (encodeAll chars) (encodeAll (chars.take n)).length =
      (encodeAll (chars.take n)).length := by
  have hsplit := encodeAll_take_append_drop chars n
  have hlen := congrArg List.length hsplit
  rw [List.length_append] at hlen
  unfold strlenUtf8Nbytes
  split
  · have hdrop : (encodeAll chars).drop (encodeAll (chars.take n)).length =
        encodeAll (chars.drop n) := by
      rw [← hsplit, List.drop_left]
    have hstart := charAt_encodeAll_starts (chars.drop n)
    rw [← hdrop] at hstart
    cases hcut : (encodeAll (chars.take n)).length with
    | zero => rfl
    | succ cut =>
      rw [hcut] at hstart
      rw [characterStart, if_neg (Bool.eq_false_iff.mp hstart)]
  · omega

theorem zbxStrlcpyUtf8_encodeAll (chars : List Char) (n : ℕ) :
    zbxStrlcpyUtf8 (encodeAll chars) ((encodeAll (chars.take n)).length + 1) =
      encodeAll (chars.take n) := by
  unfold zbxStrlcpyUtf8
  rw [Nat.add_sub_cancel, strlenUtf8Nbytes_encodeAll]
  have hsplit := encodeAll_take_append_drop chars n
  calc (encodeAll chars).take (encodeAll (chars.take n)).length
      = (encodeAll (chars.take n) ++ encodeAll (chars.drop n)).take
          (encodeAll (chars.take n)).length := by rw [hsplit]
    _ = encodeAll (chars.take n) := List.take_left

variable {D : Type} {fl : Double D} {expression : List Char} {token : EvalToken D}
  {arg start len replacement : Variant D} {repl : List Char} {s l : UInt64}

theorem invalidStart_iff (s : UInt64) (n : ℕ) :
    s = 0 ∨ n < s.toNat ↔ ¬ (1 ≤ s.toNat ∧ s.toNat ≤ n) := by
  have hzero : s = 0 ↔ s.toNat = 0 := UInt64.toNat_inj.symm
  rw [hzero]
  omega

theorem toNat_sub_one (hs : 1 ≤ s.toNat) : (s - 1).toNat = s.toNat - 1 :=
  UInt64.toNat_sub_of_le s 1 hs

theorem midText_encodeAll (expression : List Char) (pos : ℕ) (chars : List Char) (s l : UInt64) :
    midText expression pos (encodeAll chars) s l =
      if 1 ≤ s.toNat ∧ s.toNat ≤ chars.length then
        .ok (encodeAll ((chars.drop (s.toNat - 1)).take l.toNat))
      else .error (quoted "invalid function second argument at" expression pos) := by
  unfold midText
  simp only [zbxStrlenUtf8_encodeAll, zbxStrshiftUtf8_encodeAll, zbxStrlenUtf8Nchars_encodeAll,
    zbxStrlcpyUtf8_encodeAll]
  by_cases hs : 1 ≤ s.toNat ∧ s.toNat ≤ chars.length
  · rw [if_neg fun h => (invalidStart_iff s _).mp h hs, if_pos hs, toNat_sub_one hs.1]
    split
    · rfl
    · rename_i hbeyond
      rw [UInt64.toNat_add] at hbeyond
      have hmod := Nat.mod_le (s.toNat + l.toNat) (2 ^ 64)
      rw [List.take_of_length_le]
      rw [List.length_drop]
      omega
  · rw [if_pos ((invalidStart_iff s _).mpr hs), if_neg hs]

theorem zbxReplaceMemDyn_middle (front middle back source : List Char) :
    zbxReplaceMemDyn (front ++ (middle ++ back)) front.length middle.length source =
      front ++ source ++ back := by
  unfold zbxReplaceMemDyn
  rw [List.take_left, ← List.append_assoc, ← List.length_append, List.drop_left]

theorem insertText_encodeAll (expression : List Char) (pos : ℕ) (chars repl : List Char)
    (s l : UInt64) (hwrap : s.toNat - 1 + l.toNat < 2 ^ 64) :
    insertText expression pos (encodeAll chars) s l repl =
      if 1 ≤ s.toNat ∧ s.toNat ≤ chars.length then
        if s.toNat - 1 + l.toNat ≤ chars.length then
          .ok (encodeAll (chars.take (s.toNat - 1)) ++ repl ++
            encodeAll (chars.drop (s.toNat - 1 + l.toNat)))
        else .error (quoted "invalid function third argument at" expression pos)
      else .error (quoted "invalid function second argument at" expression pos) := by
  unfold insertText
  simp only [zbxStrlenUtf8_encodeAll, zbxStrshiftUtf8_encodeAll, zbxStrlenUtf8Nchars_encodeAll]
  by_cases hs : 1 ≤ s.toNat ∧ s.toNat ≤ chars.length
  · have hsub := toNat_sub_one hs.1
    have hsum : (s - 1 + l).toNat = s.toNat - 1 + l.toNat := by
      rw [UInt64.toNat_add, hsub, Nat.mod_eq_of_lt hwrap]
    rw [if_neg fun h => (invalidStart_iff s _).mp h hs, if_pos hs, hsum, hsub]
    by_cases hend : s.toNat - 1 + l.toNat ≤ chars.length
    · rw [if_neg (Nat.not_lt.mpr hend), if_pos hend]
      have hfront := encodeAll_take_append_drop chars (s.toNat - 1)
      have hmiddle := encodeAll_take_append_drop (chars.drop (s.toNat - 1)) l.toNat
      rw [List.drop_drop] at hmiddle
      have hoffset : (encodeAll chars).length - (encodeAll (chars.drop (s.toNat - 1))).length =
          (encodeAll (chars.take (s.toNat - 1))).length := by
        rw [← hfront, List.length_append, Nat.add_sub_cancel]
      rw [hoffset]
      nth_rewrite 1 [← hfront, ← hmiddle]
      rw [zbxReplaceMemDyn_middle]
    · rw [if_pos (Nat.lt_of_not_le hend), if_neg hend]
  · rw [if_pos ((invalidStart_iff s _).mpr hs), if_neg hs]

theorem not_isErr_of_str {value : Variant D} {text : List Char}
    (h : variantToStr fl value = some text) : value.isErr = false := by
  cases value with
  | err message => exact absurd h (by simp [variantToStr])
  | _ => rfl

theorem not_isErr_of_ui64 {value : Variant D} {n : UInt64}
    (h : variantToUi64 fl value = some n) : value.isErr = false := by
  cases value with
  | err message => exact absurd h (by simp [variantToUi64])
  | _ => rfl

theorem withArguments_eq (args rest : List (Variant D)) (call : Except String (Variant D))
    (hopt : token.opt = args.length) (hargs : ∀ value ∈ args, value.isErr = false) :
    withArguments args.length expression token (args ++ rest) call =
      call.map fun value => value :: rest := by
  have hnum : token.opt.toNat = args.length := by rw [hopt, Int.toNat_natCast]
  have hfind : args.reverse.find? Variant.isErr = none := by
    rw [List.find?_eq_none]
    intro value hvalue
    rw [hargs value (List.mem_reverse.mp hvalue)]
    exact Bool.false_ne_true
  have hvalidate : evalValidateFunctionArgs expression token (args ++ rest) = .ok none := by
    unfold evalValidateFunctionArgs
    simp only [hnum, List.take_left, hfind, Option.map_none]
    rw [if_neg (by rw [List.length_append]; omega)]
  unfold withArguments
  rw [if_neg (not_not.mpr hopt), hvalidate]
  unfold evalFunctionReturn
  rw [List.drop_left]
  rfl

theorem convertArgToStr_eq (harg : variantToStr fl arg = some text) :
    convertArgToStr fl expression token arg = .ok text := by
  rw [convertArgToStr, harg]

theorem convertArgToUi64_eq (harg : variantToUi64 fl arg = some s) :
    convertArgToUi64 fl expression token arg = .ok s := by
  rw [convertArgToUi64, harg]

section Calls

variable (rest : List (Variant D)) (harg : variantToStr fl arg = some text)
  (hstart : variantToUi64 fl start = some s) (hlen : variantToUi64 fl len = some l)
include harg hstart hlen

theorem evalExecuteFunctionMid_eq (hopt : token.opt = 3) :
    evalExecuteFunctionMid fl expression token (len :: start :: arg :: rest) =
      (midText expression token.loc.l text s l).map fun value => .str value :: rest := by
  have hargs : ∀ value ∈ [len, start, arg], value.isErr = false := by
    simp [not_isErr_of_str harg, not_isErr_of_ui64 hstart, not_isErr_of_ui64 hlen]
  apply (withArguments_eq [len, start, arg] rest _ hopt hargs).trans
  simp only [List.getD_cons_succ, List.getD_cons_zero, convertArgToStr_eq harg,
    convertArgToUi64_eq hstart, convertArgToUi64_eq hlen, Bind.bind, Except.bind]
  cases midText expression token.loc.l text s l with
  | ok value => rfl
  | error message => rfl

theorem evalExecuteFunctionInsert_eq (hopt : token.opt = 4)
    (hrepl : variantToStr fl replacement = some repl) :
    evalExecuteFunctionInsert fl expression token (replacement :: len :: start :: arg :: rest) =
      (insertText expression token.loc.l text s l repl).map fun value => .str value :: rest := by
  have hargs : ∀ value ∈ [replacement, len, start, arg], value.isErr = false := by
    simp [not_isErr_of_str harg, not_isErr_of_ui64 hstart, not_isErr_of_ui64 hlen,
      not_isErr_of_str hrepl]
  apply (withArguments_eq [replacement, len, start, arg] rest _ hopt hargs).trans
  simp only [List.getD_cons_succ, List.getD_cons_zero, convertArgToStr_eq harg,
    convertArgToUi64_eq hstart, convertArgToUi64_eq hlen, convertArgToStr_eq hrepl, Bind.bind,
    Except.bind]
  cases insertText expression token.loc.l text s l repl with
  | ok value => rfl
  | error message => rfl

end Calls

/-- `mid` and `insert` on a text of characters: what they take, and what they make of it. -/
theorem stringFunctions_ranges (expression : List Char) {token : EvalToken D} {chars : List Char}
    (rest : List (Variant D)) (harg : variantToStr fl arg = some (encodeAll chars))
    (hstart : variantToUi64 fl start = some s) (hlen : variantToUi64 fl len = some l)
    (hrepl : variantToStr fl replacement = some repl) :
    (token.opt = 3 → evalExecuteFunctionMid fl expression token (len :: start :: arg :: rest) =
      if 1 ≤ s.toNat ∧ s.toNat ≤ chars.length then
        .ok (.str (encodeAll ((chars.drop (s.toNat - 1)).take l.toNat)) :: rest)
      else .error (quoted "invalid function second argument at" expression token.loc.l)) ∧
    (token.opt = 4 → s.toNat - 1 + l.toNat < 2 ^ 64 →
      evalExecuteFunctionInsert fl expression token (replacement :: len :: start :: arg :: rest) =
        if 1 ≤ s.toNat ∧ s.toNat ≤ chars.length then
          if s.toNat - 1 + l.toNat ≤ chars.length then
            .ok (.str (encodeAll (chars.take (s.toNat - 1)) ++ repl ++
              encodeAll (chars.drop (s.toNat - 1 + l.toNat))) :: rest)
          else .error (quoted "invalid function third argument at" expression token.loc.l)
        else .error (quoted "invalid function second argument at" expression token.loc.l)) := by
  constructor
  · intro hopt
    rw [evalExecuteFunctionMid_eq rest harg hstart hlen hopt, midText_encodeAll]
    by_cases hs : 1 ≤ s.toNat ∧ s.toNat ≤ chars.length
    · rw [if_pos hs, if_pos hs]
      rfl
    · rw [if_neg hs, if_neg hs]
      rfl
  · intro hopt hwrap
    rw [evalExecuteFunctionInsert_eq rest harg hstart hlen hopt hrepl,
      insertText_encodeAll _ _ _ _ _ _ hwrap]
    by_cases hs : 1 ≤ s.toNat ∧ s.toNat ≤ chars.length
    · rw [if_pos hs, if_pos hs]
      by_cases hend : s.toNat - 1 + l.toNat ≤ chars.length
      · rw [if_pos hend, if_pos hend]
        rfl
      · rw [if_neg hend, if_neg hend]
        rfl
    · rw [if_neg hs, if_neg hs]
      rfl

/-- In the middle of a text with a character of two bytes. -/
theorem stringFunctions_ranges_middle :
    (evalExecuteFunctionMid wholeDouble [] ⟨.nop, 3, ⟨0, 0⟩, .none⟩
      [.ui64 1, .ui64 2, .str (encodeAll "aéz".toList)] = .ok [.str (encodeAll "é".toList)]) ∧
    (evalExecuteFunctionInsert wholeDouble [] ⟨.nop, 4, ⟨0, 0⟩, .none⟩
        [.str ['-'], .ui64 1, .ui64 2, .str (encodeAll "aéz".toList)] =
      .ok [.str "a-z".toList]) := by
  have harg : variantToStr wholeDouble (.str (encodeAll "aéz".toList)) =
      some (encodeAll ['a', 'é', 'z']) := rfl
  have hstart : variantToUi64 wholeDouble (.ui64 2) = some 2 := rfl
  have hlen : variantToUi64 wholeDouble (.ui64 1) = some 1 := rfl
  have hrepl : variantToStr wholeDouble (.str ['-']) = some ['-'] := rfl
  have hwrap : (2 : UInt64).toNat - 1 + (1 : UInt64).toNat < 2 ^ 64 := by decide
  exact ⟨(stringFunctions_ranges [] [] harg hstart hlen hrepl).1 rfl,
    (stringFunctions_ranges [] [] harg hstart hlen hrepl).2 rfl hwrap⟩

/-- A position behind the last character is refused, also where nothing is to be replaced. -/
theorem insert_refuses_end :
    ¬ ∀ (chars repl : List Char) (s l : UInt64),
      (∃ output, evalExecuteFunctionInsert wholeDouble [] ⟨.nop, 4, ⟨0, 0⟩, .none⟩
        [.str repl, .ui64 l, .ui64 s, .str (encodeAll chars)] = .ok output) ↔
      1 ≤ s.toNat ∧ s.toNat - 1 + l.toNat ≤ chars.length := by
  intro h
  obtain ⟨output, houtput⟩ := (h ['a'] ['b'] 2 0).mpr (by decide)
  have hwrap : (2 : UInt64).toNat - 1 + (0 : UInt64).toNat < 2 ^ 64 := by decide
  rw [evalExecuteFunctionInsert_eq [] rfl rfl rfl rfl rfl, insertText_encodeAll _ _ _ _ _ _ hwrap]
    at houtput
  cases houtput

end Zabbix.Eval
