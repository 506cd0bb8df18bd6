import Mathlib.Data.UInt
import Zabbix.Eval.Serialize
import Zabbix.Eval.Execute
import Zabbix.Eval.Brackets
import Zabbix.Eval.Parsed

/-!
# The function ids of an expression

`zbx_eval_get_functionids` on a context and `zbx_get_serialized_expression_functionids` on its
serialized form, which has a decoder of its own.
-/

namespace Zabbix.Eval

open List Codec Serialize TokenType

/-- The low 22 bits of `ZBX_EVAL_TOKEN_*`. -/
def TokenType.number : TokenType → ℕ
  | classSeparator => 0
  | opAdd => 1
  | opSub => 2
  | opMul => 3
  | opDiv => 4
  | opMinus => 5
  | opEq => 6
  | opLt => 7
  | opGt => 8
  | opLe => 9
  | opGe => 10
  | opNe => 11
  | opAnd => 12
  | opOr => 13
  | opNot => 14
  | varNum => 15
  | varStr => 16
  | varMacro => 17
  | varUsermacro => 18
  | varLldmacro => 19
  | functionid => 20
  | function => 21
  | histFunction => 22
  | groupOpen => 23
  | groupClose => 24
  | comma => 25
  | argQuery => 26
  | argPeriod => 27
  | argNull => 28
  | propTag => 29
  | propGroup => 30

/-- The high 6 bits of `ZBX_EVAL_TOKEN_*`. -/
def TokenType.classBits (type : TokenType) : ℕ :=
  if type.isOperand then 0x01
  else if type.isOperator1 then 0x02
  else if type.isOperator2 then 0x04
  else if type.isFunction then 0x08
  else if type.isSeparator then 0x10
  else 0x20

def TokenType.code (type : TokenType) : UInt32 :=
  UInt32.ofNat (type.number ||| type.classBits <<< 26 ||| type.priority <<< 22)

theorem TokenType.code_eq_functionid {type : TokenType} (h : type.code = functionid.code) :
    type = functionid := by
  revert h
  cases type <;> decide

def Rules.ofMask (mask : UInt64) : Rules :=
  let bit (flag : UInt64) : Bool := mask &&& flag ≠ 0
  { parseMacro := bit 0x1
    usermacro := bit 0x2
    lldmacro := bit 0x4
    functionid := bit 0x8
    itemQuery := bit 0x10
    constIndex := bit 0x20
    compoundConst := bit 0x40
    math := bit 0x80
    compareEq := bit 0x100
    compareSort := bit 0x200
    logic := bit 0x400
    varNum := bit 0x800
    varStr := bit 0x1000
    group := bit 0x2000
    functionArgs := bit 0x4000
    functionName := bit 0x8000
    propTag := bit 0x10000
    propGroup := bit 0x20000
    strV64Compat := bit 0x40000 }

def Token.fresh (token : Token) : ContextToken :=
  ⟨token.type.code, UInt32.ofInt token.opt, token.loc, .none⟩

def FreshlyParsed (ext : External) (ctx : EvalContext) : Prop :=
  ∃ fuel tokens,
    evalParseExpression ext fuel ctx.expression (Rules.ofMask ctx.rules) = some (.ok tokens) ∧
      ctx.stack = tokens.map Token.fresh

def zbxIsUint64N (str : List Char) (n : ℕ) : Option UInt64 := zbxIsUint64 (str.take n)

/-- `expression_extract_functionid`: the function id and the token with its new value. The
difference of the positions is a `size_t`. -/
def expressionExtractFunctionid (expression : List Char) (token : ContextToken) :
    Option (UInt64 × ContextToken) :=
  if token.type ≠ functionid.code then none
  else
    match token.value with
    | .ui64 value => some (value, token)
    | .none =>
      let n := UInt64.ofNat token.loc.r - UInt64.ofNat token.loc.l - 1
      (zbxIsUint64N (expression.drop (token.loc.l + 1)) n.toNat).map fun value =>
        (value, { token with value := .ui64 value })
    | _ => none

def getFunctionids (expression : List Char) :
    List ContextToken → List UInt64 → List ContextToken × List UInt64
  | [], functionids => ([], functionids)
  | token :: tokens, functionids =>
    match expressionExtractFunctionid expression token with
    | some (id, token) =>
      let (tokens, functionids) := getFunctionids expression tokens (functionids ++ [id])
      (token :: tokens, functionids)
    | none =>
      let (tokens, functionids) := getFunctionids expression tokens functionids
      (token :: tokens, functionids)

def zbxEvalGetFunctionids (ctx : EvalContext) (functionids : List UInt64) :
    EvalContext × List UInt64 :=
  let (stack, functionids) := getFunctionids ctx.expression ctx.stack functionids
  ({ ctx with stack }, functionids)

def uniqBehind (last : UInt64) : List UInt64 → List UInt64
  | [] => []
  | value :: values =>
    if last ≠ value then value :: uniqBehind value values else uniqBehind value values

def zbxVectorUniq : List UInt64 → List UInt64
  | [] => []
  | value :: values => value :: uniqBehind value values

def zbxVectorSort (values : List UInt64) : List UInt64 := values.mergeSort (· ≤ ·)

/-- The `switch` over the type of a value, which is skipped; `false` for an unknown type. -/
def skipVariant : StateT (List UInt8) Option Bool := do
  let type ← item
  match type with
  | 3 | 2 => (fun _ => true) <$> take 8
  | 1 => (fun _ => true) <$> takeUntil 0
  | 0 => return true
  | _ => return false

/-- What `zbx_get_serialized_expression_functionids` reads of a token: its type, its location, and
whether the type of its value is known. -/
def readLocation : StateT (List UInt8) Option (UInt32 × UInt32 × UInt32 × Bool) := do
  let type ← zbxDeserializeValue
  let _ ← zbxDeserializeUint31Compact
  let l ← zbxDeserializeUint31Compact
  let r ← zbxDeserializeUint31Compact
  let known ← skipVariant
  return (type, l, r, known)

/-- The loop of `zbx_get_serialized_expression_functionids` over `n` tokens; the ids are sorted
when it gets to its end. -/
def serializedFunctionids (expression : List Char) :
    ℕ → List UInt64 → StateT (List UInt8) Option (List UInt64)
  | 0, functionids => return zbxVectorUniq (zbxVectorSort functionids)
  | n + 1, functionids => do
    let (type, l, r, known) ← readLocation
    if known = false then return functionids
    else if type = functionid.code then
      let id := zbxIsUint64N (expression.drop (l.toNat + 1)) (r - l - 1).toNat
      serializedFunctionids expression n (functionids ++ id.toList)
    else serializedFunctionids expression n functionids

def readFunctionids (expression : List Char) (functionids : List UInt64) :
    StateT (List UInt8) Option (List UInt64) := do
  let _ ← zbxDeserializeUint31Compact
  let tokensNum ← zbxDeserializeUint31Compact
  serializedFunctionids expression tokensNum.toNat functionids

def zbxGetSerializedExpressionFunctionids (expression : List Char) (data : List UInt8)
    (functionids : List UInt64) : Option (List UInt64) :=
  ((readFunctionids expression functionids).run data).map Prod.fst

theorem uniqBehind_spec {last : UInt64} {values : List UInt64}
    (h : (last :: values).Pairwise (· ≤ ·)) :
    (last :: uniqBehind last values).Pairwise (· < ·) ∧
      ∀ x, x ∈ last :: uniqBehind last values ↔ x ∈ last :: values := by
  induction values generalizing last with
  | nil => exact ⟨pairwise_singleton _ _, fun x => Iff.rfl⟩
  | cons value values ih =>
    obtain ⟨hlast, hvalues⟩ := pairwise_cons.mp h
    obtain ⟨hsorted, hmem⟩ := ih hvalues
    rw [uniqBehind]
    by_cases hne : last ≠ value
    · have hlt : last < value :=
        UInt64.lt_of_le_of_ne (hlast value mem_cons_self) hne
      rw [if_pos hne]
      refine ⟨pairwise_cons.mpr ⟨fun x hx => ?_, hsorted⟩, fun x => ?_⟩
      · rcases mem_cons.mp hx with rfl | hx
        · exact hlt
        · exact UInt64.lt_trans hlt ((pairwise_cons.mp hsorted).1 x hx)
      · rw [mem_cons, hmem, mem_cons (b := last)]
    · obtain rfl := not_not.mp hne
      rw [if_neg hne]
      refine ⟨hsorted, fun x => (hmem x).trans ?_⟩
      simp

theorem uniq_sort_spec (values : List UInt64) :
    (zbxVectorUniq (zbxVectorSort values)).Pairwise (· < ·) ∧
      ∀ x, x ∈ zbxVectorUniq (zbxVectorSort values) ↔ x ∈ values := by
  have hperm : (zbxVectorSort values).Perm values := mergeSort_perm _ _
  have hsorted : (zbxVectorSort values).Pairwise (· ≤ ·) := by
    have htrans (a b c : UInt64) (hab : decide (a ≤ b) = true) (hbc : decide (b ≤ c) = true) :
        decide (a ≤ c) = true :=
      decide_eq_true (UInt64.le_trans (of_decide_eq_true hab) (of_decide_eq_true hbc))
    have htotal (a b : UInt64) : (decide (a ≤ b) || decide (b ≤ a)) = true := by
      simpa using UInt64.le_total a b
    exact (pairwise_mergeSort htrans htotal values).imp of_decide_eq_true
  cases hsort : zbxVectorSort values with
  | nil =>
    rw [hsort] at hperm
    rw [nil_perm.mp hperm]
    exact ⟨List.Pairwise.nil, fun x => Iff.rfl⟩
  | cons value rest =>
    rw [hsort] at hperm hsorted
    obtain ⟨hlt, hmem⟩ := uniqBehind_spec hsorted
    exact ⟨hlt, fun x => (hmem x).trans hperm.mem_iff⟩

theorem skipVariant_decodes {value : TokenValue} (h : value.IsPlain) :
    Decodes skipVariant value.bytes true := by
  have hnumber (n : UInt64) :
      Decodes ((fun _ => true) <$> take 8) (zbxSerializeUint64 n) true :=
    (take_rawBytes_decodes 8 n.toNat).map fun _ => true
  refine (item_decodes value.type).bind ?_
  cases value with
  | none => exact .pure _
  | ui64 n => exact hnumber n
  | dbl bits => exact hnumber bits
  | str text => exact (takeUntil_decodes text).map _
  | bin | vector | err => exact h.elim

theorem readLocation_decodes {token : ContextToken} (h : token.Fits) :
    Decodes readLocation token.bytes
      (token.type, UInt32.ofNat token.loc.l, UInt32.ofNat token.loc.r, true) := by
  obtain ⟨hopt, hl, hr⟩ := h.compact
  refine (serializeValue_decodes token.type).bind (hopt.bind (hl.bind (hr.bind ?_)))
  rw [← append_nil token.value.bytes]
  exact (skipVariant_decodes h.value).bind (.pure _)

def ContextToken.Unread (token : ContextToken) : Prop :=
  token.type = functionid.code → token.value = .none ∧ token.loc.l < token.loc.r

theorem id_length {l r : ℕ} (hlt : l < r) (hr : r < 2 ^ 31) :
    (UInt64.ofNat r - UInt64.ofNat l - 1).toNat = r - l - 1 ∧
      (UInt32.ofNat r - UInt32.ofNat l - 1).toNat = r - l - 1 := by
  constructor
  · simp only [UInt64.toNat_sub, UInt64.toNat_ofNat', UInt64.toNat_one]
    omega
  · simp only [UInt32.toNat_sub, UInt32.toNat_ofNat', UInt32.toNat_one]
    omega

theorem serializedFunctionids_decodes {expression : List Char} {tokens : List ContextToken}
    (hfits : ∀ token ∈ tokens, token.Fits) (hunread : ∀ token ∈ tokens, token.Unread)
    (functionids : List UInt64) :
    Decodes (serializedFunctionids expression tokens.length functionids) (tokensBytes tokens)
      (zbxVectorUniq (zbxVectorSort (getFunctionids expression tokens functionids).2)) := by
  induction tokens generalizing functionids with
  | nil => exact .pure _
  | cons token tokens ih =>
    obtain ⟨htoken, htokens⟩ := forall_mem_cons.mp hfits
    obtain ⟨hfirst, hrest⟩ := forall_mem_cons.mp hunread
    refine (readLocation_decodes htoken).bind ?_
    dsimp only
    rw [if_neg (by simp)]
    by_cases htype : token.type = functionid.code
    · obtain ⟨hvalue, hlt⟩ := hfirst htype
      obtain ⟨hsize, huint⟩ := id_length hlt htoken.r
      rw [if_pos htype, huint, toNat_ofNat_of_lt htoken.l, getFunctionids, expressionExtractFunctionid,
        if_neg (not_not.mpr htype), hvalue]
      dsimp only
      rw [hsize]
      cases zbxIsUint64N (expression.drop (token.loc.l + 1)) (token.loc.r - token.loc.l - 1) with
      | none =>
        rw [Option.toList_none, append_nil]
        exact ih htokens hrest functionids
      | some id => exact ih htokens hrest (functionids ++ [id])
    · rw [if_neg htype, getFunctionids, expressionExtractFunctionid, if_pos htype]
      exact ih htokens hrest functionids

theorem FreshlyParsed.unread {ext : External} {ctx : EvalContext} (h : FreshlyParsed ext ctx) :
    ∀ token ∈ ctx.stack, token.Unread := by
  obtain ⟨fuel, tokens, hparse, hstack⟩ := h
  have hbraces := evalParseExpression_all (idInBraces_kept ext) hparse
  intro token hmem htype
  rw [hstack] at hmem
  obtain ⟨parsed, hparsed, rfl⟩ := mem_map.mp hmem
  exact ⟨rfl, hbraces parsed hparsed (TokenType.code_eq_functionid htype)⟩

theorem readFunctionids_decodes {ctx : EvalContext}
    (hfits : ∀ token ∈ ctx.stack, token.Fits) (hsize : ctx.size < 2 ^ 31)
    (hunread : ∀ token ∈ ctx.stack, token.Unread) (functionids : List UInt64) :
    Decodes (readFunctionids ctx.expression functionids) (compactBytes (UInt32.ofNat ctx.size) ++
        (compactBytes (UInt32.ofNat ctx.stack.length) ++ tokensBytes ctx.stack))
      (zbxVectorUniq (zbxVectorSort (zbxEvalGetFunctionids ctx functionids).2)) := by
  have hcount := stack_length_lt hsize
  refine (compactBytes_spec ((toNat_ofNat_of_lt hsize).trans_lt hsize)).2.1.bind
    ((compactBytes_spec ((toNat_ofNat_of_lt hcount).trans_lt hcount)).2.1.bind ?_)
  rw [toNat_ofNat_of_lt hcount]
  exact serializedFunctionids_decodes hfits hunread functionids

/-- A context whose numbers and serialized length fit in 31 bits is restored from its serialized
form, which has its function ids, sorted, if it has just been parsed. -/
theorem evalSerialize_restores (ext : External) (ctx : EvalContext)
    (hfits : ∀ token ∈ ctx.stack, token.Fits) (hsize : ctx.size < 2 ^ 31) :
    ∃ data, zbxEvalSerialize ctx = some data ∧
      zbxEvalDeserialize ctx.expression ctx.rules data = some ctx ∧
      (FreshlyParsed ext ctx → ∀ functionids, ∃ ids,
        zbxGetSerializedExpressionFunctionids ctx.expression data functionids = some ids ∧
        ids.Pairwise (· < ·) ∧
        ∀ id, id ∈ ids ↔ id ∈ (zbxEvalGetFunctionids ctx functionids).2) := by
  refine ⟨_, evalSerialize_eq hfits hsize, ?_, fun hparsed functionids => ?_⟩
  · have hstack := deserializeStack_decodes hfits hsize []
    rw [append_nil] at hstack
    rw [zbxEvalDeserialize, hstack]
    rfl
  · have hids := readFunctionids_decodes hfits hsize hparsed.unread functionids []
    rw [append_nil] at hids
    refine ⟨_, ?_, uniq_sort_spec _⟩
    rw [zbxGetSerializedExpressionFunctionids, hids]
    rfl

def threeIds : EvalContext where
  expression := ['{', '1', '3', '}', '+', '{', '2', '}', '+', '{', '1', '3', '}']
  rules := 0x88
  stack := [⟨functionid.code, 0, ⟨0, 3⟩, .none⟩, ⟨functionid.code, 1, ⟨5, 7⟩, .none⟩,
    ⟨opAdd.code, 0, ⟨4, 4⟩, .none⟩, ⟨functionid.code, 2, ⟨9, 12⟩, .none⟩,
    ⟨opAdd.code, 0, ⟨8, 8⟩, .none⟩]

theorem threeIds_parsed : FreshlyParsed plainText threeIds := by
  have hrules : Rules.ofMask threeIds.rules = { functionid := true, math := true } := by decide
  refine ⟨14, [⟨functionid, 0, ⟨0, 3⟩⟩, ⟨functionid, 1, ⟨5, 7⟩⟩, ⟨opAdd, 0, ⟨4, 4⟩⟩,
    ⟨functionid, 2, ⟨9, 12⟩⟩, ⟨opAdd, 0, ⟨8, 8⟩⟩], ?_, ?_⟩
  · rw [hrules]
    rfl
  · rfl

theorem evalSerialize_restores_threeIds :
    FreshlyParsed plainText threeIds ∧ ∃ data, zbxEvalSerialize threeIds = some data ∧
      zbxEvalDeserialize threeIds.expression threeIds.rules data = some threeIds ∧
      (FreshlyParsed plainText threeIds → ∀ functionids, ∃ ids,
        zbxGetSerializedExpressionFunctionids threeIds.expression data functionids = some ids ∧
        ids.Pairwise (· < ·) ∧
        ∀ id, id ∈ ids ↔ id ∈ (zbxEvalGetFunctionids threeIds functionids).2) := by
  refine ⟨threeIds_parsed, evalSerialize_restores plainText threeIds ?_ (by decide +kernel)⟩
  intro token hmem
  simp only [threeIds, mem_cons, not_mem_nil, or_false] at hmem
  rcases hmem with rfl | rfl | rfl | rfl | rfl <;>
    exact ⟨by decide, by decide, by decide, trivial⟩

def wideOpt : EvalContext := ⟨['f', '(', ')'], 0, [⟨function.code, 2 ^ 31, ⟨0, 0⟩, .none⟩]⟩

def stringContext (n : ℕ) : EvalContext :=
  ⟨['1'], 0, [⟨varNum.code, 0, ⟨0, 0⟩, .str ⟨List.replicate n 97, by simp⟩⟩]⟩

theorem stringContext_fits (n : ℕ) : ∀ token ∈ (stringContext n).stack, token.Fits := by
  intro token hmem
  rw [mem_singleton.mp hmem]
  exact ⟨Nat.two_pow_pos 31, Nat.two_pow_pos 31, Nat.two_pow_pos 31, trivial⟩

theorem stringContext_size (n : ℕ) : (stringContext n).size = n + 10 := by
  simp [EvalContext.size, ContextToken.size, TokenValue.size, stringContext, compactSize]
  omega

/-- Neither a number of 32 bits nor a string of `2 ^ 31` bytes is serialized, though the
locations fit in 31 bits and the values are plain. -/
theorem wide_not_serialized :
    (∀ token ∈ wideOpt.stack, token.loc.l < 2 ^ 31 ∧ token.loc.r < 2 ^ 31 ∧
        token.value.IsPlain) ∧ zbxEvalSerialize wideOpt = none ∧
      (∀ token ∈ (stringContext (2 ^ 31)).stack, token.Fits) ∧
      zbxEvalSerialize (stringContext (2 ^ 31)) = none := by
  refine ⟨fun token hmem => ?_, by decide +kernel, stringContext_fits _, ?_⟩
  · rw [mem_singleton.mp hmem]
    exact ⟨by decide, by decide, trivial⟩
  · refine evalSerialize_eq_none (stringContext_fits _) ?_ ?_ ?_
    · exact Nat.one_lt_two_pow (by decide)
    · rw [stringContext_size]
      decide
    · rw [stringContext_size]
      decide

end Zabbix.Eval
