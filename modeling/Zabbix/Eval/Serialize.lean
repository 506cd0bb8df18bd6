import Zabbix.Serialize.Compact
import Zabbix.Eval.Token
import Mathlib.Data.List.Forall2

/-!
# Serializing an evaluation context

`zbx_eval_serialize` and `zbx_eval_deserialize` of `misc.c`.
-/

namespace Zabbix.Eval

open List Codec Serialize

abbrev CString := { bytes : List UInt8 // (0 : UInt8) ∉ bytes }

inductive TokenValue
  | none
  | str (text : CString)
  | dbl (bits : UInt64)
  | ui64 (value : UInt64)
  | bin
  | vector
  | err

def TokenValue.type : TokenValue → UInt8
  | none => 0
  | str _ => 1
  | dbl _ => 2
  | ui64 _ => 3
  | bin => 4
  | vector => 5
  | err => 6

def TokenValue.IsPlain : TokenValue → Prop
  | none | str _ | dbl _ | ui64 _ => True
  | bin | vector | err => False

/-- `zbx_eval_token_t` with the bits of its type. -/
structure ContextToken where
  type : UInt32
  opt : UInt32
  loc : Strloc
  value : TokenValue

structure EvalContext where
  expression : List Char
  rules : UInt64
  stack : List ContextToken

def evalStaticBufferSize : ℕ := 4096

structure Buffer where
  size : ℕ
  data : List UInt8
  static_le : evalStaticBufferSize ≤ size
  data_le : data.length ≤ size

def staticBuffer : Buffer := ⟨evalStaticBufferSize, [], le_refl _, Nat.zero_le _⟩

/-- The loop of `reserve_buffer` over `new_size`. -/
def growSize (needed size : ℕ) (h : 2 ≤ size) : ℕ :=
  if needed < size then size else growSize needed (size + size / 2) (by omega)
termination_by needed + 1 - size
decreasing_by omega

theorem growSize_spec (needed size : ℕ) (h : 2 ≤ size) :
    needed < growSize needed size h ∧ size ≤ growSize needed size h := by
  fun_induction growSize needed size h with
  | case1 size h hlt => exact ⟨hlt, le_refl size⟩
  | case2 size h hle ih => exact ⟨ih.1, by omega⟩

theorem Buffer.two_le (buffer : Buffer) : 2 ≤ buffer.size := le_trans (by decide) buffer.static_le

def reserveBuffer (reserve : ℕ) : StateT Buffer Option Unit := fun buffer =>
  if buffer.data.length + reserve ≤ buffer.size then some ((), buffer)
  else
    let needed := buffer.data.length + reserve
    have hgrow := (growSize_spec needed buffer.size buffer.two_le).2
    some ((), ⟨growSize needed buffer.size buffer.two_le, buffer.data,
      le_trans buffer.static_le hgrow, le_trans buffer.data_le hgrow⟩)

/-- Copying bytes to `ptr`, which may not pass the end of the buffer. -/
def writeBytes (bytes : List UInt8) : StateT Buffer Option Unit := fun buffer =>
  if h : (buffer.data ++ bytes).length ≤ buffer.size then
    some ((), ⟨buffer.size, buffer.data ++ bytes, buffer.static_le, h⟩)
  else none

def rewriteLast (byte : UInt8) : StateT Buffer Option Unit := fun buffer =>
  if h : buffer.data ≠ [] then
    some ((), ⟨buffer.size, buffer.data.set (buffer.data.length - 1) byte, buffer.static_le,
      by rw [length_set]; exact buffer.data_le⟩)
  else none

def serializeVariant (value : TokenValue) : StateT Buffer Option Unit := do
  reserveBuffer 1
  writeBytes [value.type]
  match value with
  | .ui64 value =>
    reserveBuffer 8
    writeBytes (zbxSerializeUint64 value)
  | .dbl bits =>
    reserveBuffer 8
    writeBytes (zbxSerializeUint64 bits)
  | .str text =>
    reserveBuffer (text.1.length + 1)
    writeBytes (text.1 ++ [0])
  | .none => pure ()
  | .bin | .vector | .err => rewriteLast TokenValue.none.type

def writeCompact (value : UInt32) : StateT Buffer Option Unit := do
  let bytes ← StateT.lift (zbxSerializeUint31Compact value)
  writeBytes bytes

def serializeToken (token : ContextToken) : StateT Buffer Option Unit := do
  reserveBuffer 23
  writeBytes (zbxSerializeValue token.type)
  writeCompact token.opt
  writeCompact (UInt32.ofNat token.loc.l)
  writeCompact (UInt32.ofNat token.loc.r)
  serializeVariant token.value

def serializeTokens : List ContextToken → StateT Buffer Option Unit
  | [] => pure ()
  | token :: tokens => do
    serializeToken token
    serializeTokens tokens

/-- `zbx_eval_serialize`; `none` when it writes outside of a buffer. -/
def zbxEvalSerialize (ctx : EvalContext) : Option (List UInt8) := do
  let (_, buffer) ← (do
    writeCompact (UInt32.ofNat ctx.stack.length)
    serializeTokens ctx.stack : StateT Buffer Option Unit).run staticBuffer
  let len := UInt32.ofNat buffer.data.length
  let lenBuff ← zbxSerializeUint31Compact len
  return lenBuff ++ buffer.data.take len.toNat

def deserializeVariant : StateT (List UInt8) Option TokenValue := do
  let type ← item
  match type with
  | 3 => TokenValue.ui64 <$> zbxDeserializeUint64
  | 2 => TokenValue.dbl <$> zbxDeserializeUint64
  | 1 => TokenValue.str <$> takeUntil 0
  | _ => return .none

def deserializeToken : StateT (List UInt8) Option ContextToken := do
  let type ← zbxDeserializeValue
  let opt ← zbxDeserializeUint31Compact
  let l ← zbxDeserializeUint31Compact
  let r ← zbxDeserializeUint31Compact
  let value ← deserializeVariant
  return ⟨type, opt, ⟨l.toNat, r.toNat⟩, value⟩

def deserializeStack : StateT (List UInt8) Option (List ContextToken) := do
  let _ ← zbxDeserializeUint31Compact
  let tokensNum ← zbxDeserializeUint31Compact
  repeated deserializeToken tokensNum.toNat

def zbxEvalDeserialize (expression : List Char) (rules : UInt64) (data : List UInt8) :
    Option EvalContext :=
  (deserializeStack.run data).map fun (stack, _) => ⟨expression, rules, stack⟩

variable {room room' : ℕ} {m m' : StateT Buffer Option Unit} {block block' : List UInt8}

def Writes (room : ℕ) (m : StateT Buffer Option Unit) (block : List UInt8) : Prop :=
  ∀ buffer : Buffer, buffer.data.length + room ≤ buffer.size →
    ∃ buffer', m.run buffer = some ((), buffer') ∧ buffer'.data = buffer.data ++ block ∧
      buffer.size ≤ buffer'.size

theorem Writes.pure : Writes room (Pure.pure ()) [] :=
  fun buffer _ => ⟨buffer, rfl, (append_nil _).symm, le_refl _⟩

theorem writeBytes_writes (bytes : List UInt8) : Writes bytes.length (writeBytes bytes) bytes := by
  intro buffer hroom
  have hfits : (buffer.data ++ bytes).length ≤ buffer.size := by rwa [length_append]
  exact ⟨_, dif_pos hfits, rfl, le_refl _⟩

variable (h : Writes room m block)

include h

theorem Writes.mono (hle : room ≤ room') : Writes room' m block :=
  fun buffer hroom => h buffer (by omega)

theorem Writes.bind (h' : Writes room' m' block') (hroom : room' = 0 ∨ block.length + room' ≤ room)
    :
    Writes room (m >>= fun _ => m') (block ++ block') := by
  intro buffer hle
  obtain ⟨mid, hmid, hdata, hsize⟩ := h buffer hle
  have hleft : mid.data.length + room' ≤ mid.size := by
    have hmidle := mid.data_le
    rw [hdata, length_append] at hmidle ⊢
    omega
  obtain ⟨last, hlast, hdata', hsize'⟩ := h' mid hleft
  refine ⟨last, ?_, ?_, hsize.trans hsize'⟩
  · rw [StateT.run_bind, hmid]
    exact hlast
  · rw [hdata', hdata, append_assoc]

theorem reserveBuffer_writes : Writes 0 (reserveBuffer room >>= fun _ => m) block := by
  intro buffer _
  by_cases hfits : buffer.data.length + room ≤ buffer.size
  · obtain ⟨last, hlast, hdata, hsize⟩ := h buffer hfits
    refine ⟨last, ?_, hdata, hsize⟩
    rw [StateT.run_bind, StateT.run, reserveBuffer, if_pos hfits]
    exact hlast
  · have hgrow := growSize_spec (buffer.data.length + room) buffer.size buffer.two_le
    obtain ⟨last, hlast, hdata, hsize⟩ := h
      ⟨growSize (buffer.data.length + room) buffer.size buffer.two_le, buffer.data,
        le_trans buffer.static_le hgrow.2, le_trans buffer.data_le hgrow.2⟩ hgrow.1.le
    refine ⟨last, ?_, hdata, hgrow.2.trans hsize⟩
    rw [StateT.run_bind, StateT.run, reserveBuffer, if_neg hfits]
    exact hlast

omit h

def compactBytes (value : UInt32) : List UInt8 := (zbxSerializeUint31Compact value).getD []

theorem compactBytes_spec {value : UInt32} (h : value.toNat < 2 ^ 31) :
    (compactBytes value).length = compactSize value.toNat ∧
      Decodes zbxDeserializeUint31Compact (compactBytes value) value ∧
      Writes 6 (writeCompact value) (compactBytes value) := by
  obtain ⟨bytes, hbytes, hlength, hdecodes⟩ := serializeUint31Compact_spec h
  have heq : compactBytes value = bytes := by rw [compactBytes, hbytes, Option.getD_some]
  have hwrite : writeCompact value = writeBytes bytes := by
    rw [writeCompact, hbytes]
    rfl
  have hsmall := compactSize_le value.toNat
  rw [heq, hwrite]
  exact ⟨hlength, hdecodes, (writeBytes_writes bytes).mono (by omega)⟩

def TokenValue.bytes (value : TokenValue) : List UInt8 :=
  [value.type] ++ match value with
    | .ui64 value => zbxSerializeUint64 value
    | .dbl bits => zbxSerializeUint64 bits
    | .str text => text.1 ++ [0]
    | .none | .bin | .vector | .err => []

variable {value : TokenValue}

theorem serializeVariant_writes (h : value.IsPlain) :
    Writes 0 (serializeVariant value) value.bytes := by
  have hnumber (n : UInt64) : Writes 0 (do
      reserveBuffer 8
      writeBytes (zbxSerializeUint64 n)) (zbxSerializeUint64 n) :=
    reserveBuffer_writes ((writeBytes_writes _).mono (length_rawBytes 8 _).le)
  refine reserveBuffer_writes ((writeBytes_writes [value.type]).bind ?_ (.inl rfl))
  cases value with
  | none => exact .pure
  | ui64 n => exact hnumber n
  | dbl bits => exact hnumber bits
  | str text => exact reserveBuffer_writes ((writeBytes_writes _).mono (by simp))
  | bin | vector | err => exact h.elim

theorem deserializeVariant_decodes (h : value.IsPlain) :
    Decodes deserializeVariant value.bytes value := by
  refine (item_decodes value.type).bind ?_
  cases value with
  | none => exact .pure _
  | ui64 n => exact (serializeUint64_decodes n).map _
  | dbl bits => exact (serializeUint64_decodes bits).map _
  | str text => exact (takeUntil_decodes text).map _
  | bin | vector | err => exact h.elim

/-- What the serialized form of a token can hold: numbers of 31 bits and a plain value. -/
structure ContextToken.Fits (token : ContextToken) : Prop where
  opt : token.opt.toNat < 2 ^ 31
  l : token.loc.l < 2 ^ 31
  r : token.loc.r < 2 ^ 31
  value : token.value.IsPlain

def ContextToken.bytes (token : ContextToken) : List UInt8 :=
  zbxSerializeValue token.type ++ (compactBytes token.opt ++
    (compactBytes (UInt32.ofNat token.loc.l) ++ (compactBytes (UInt32.ofNat token.loc.r) ++
      token.value.bytes)))

theorem toNat_ofNat_of_lt {n : ℕ} (h : n < 2 ^ 31) : (UInt32.ofNat n).toNat = n := by
  rw [UInt32.toNat_ofNat']
  omega

theorem serializeToken_writes {token : ContextToken} (h : token.Fits) :
    Writes 0 (serializeToken token) token.bytes := by
  obtain ⟨hopt, -, hwopt⟩ := compactBytes_spec h.opt
  obtain ⟨hl, -, hwl⟩ := compactBytes_spec ((toNat_ofNat_of_lt h.l).trans_lt h.l)
  obtain ⟨hr, -, hwr⟩ := compactBytes_spec ((toNat_ofNat_of_lt h.r).trans_lt h.r)
  have htype : (zbxSerializeValue token.type).length = 4 := length_rawBytes 4 _
  have hvalue := serializeVariant_writes h.value
  refine reserveBuffer_writes (((writeBytes_writes _).mono (by omega)).bind
    ((hwopt.mono (show 6 ≤ 19 by omega)).bind
      ((hwl.mono (show 6 ≤ 13 by omega)).bind
        ((hwr.mono (show 6 ≤ 7 by omega)).bind hvalue (.inl rfl)) (.inr ?_)) (.inr ?_)) (.inr ?_))
  · rw [hl]
    have := compactSize_le (UInt32.ofNat token.loc.l).toNat
    omega
  · rw [hopt]
    have := compactSize_le token.opt.toNat
    omega
  · omega

theorem ContextToken.Fits.compact {token : ContextToken} (h : token.Fits) :
    Decodes zbxDeserializeUint31Compact (compactBytes token.opt) token.opt ∧
    Decodes zbxDeserializeUint31Compact (compactBytes (UInt32.ofNat token.loc.l))
      (UInt32.ofNat token.loc.l) ∧
    Decodes zbxDeserializeUint31Compact (compactBytes (UInt32.ofNat token.loc.r))
      (UInt32.ofNat token.loc.r) :=
  ⟨(compactBytes_spec h.opt).2.1,
    (compactBytes_spec ((toNat_ofNat_of_lt h.l).trans_lt h.l)).2.1,
    (compactBytes_spec ((toNat_ofNat_of_lt h.r).trans_lt h.r)).2.1⟩

theorem deserializeToken_decodes {token : ContextToken} (h : token.Fits) :
    Decodes deserializeToken token.bytes token := by
  obtain ⟨hopt, hl, hr⟩ := h.compact
  refine (serializeValue_decodes token.type).bind (hopt.bind (hl.bind (hr.bind ?_)))
  rw [← append_nil token.value.bytes]
  refine (deserializeVariant_decodes h.value).bind ?_
  rw [toNat_ofNat_of_lt h.l, toNat_ofNat_of_lt h.r]
  exact .pure token

def TokenValue.size : TokenValue → ℕ
  | none | bin | vector | err => 1
  | str text => 1 + (text.1.length + 1)
  | dbl _ | ui64 _ => 1 + 8

def ContextToken.size (token : ContextToken) : ℕ :=
  4 + compactSize token.opt.toNat + compactSize token.loc.l + compactSize token.loc.r +
    token.value.size

def EvalContext.size (ctx : EvalContext) : ℕ :=
  compactSize ctx.stack.length + (ctx.stack.map ContextToken.size).sum

theorem TokenValue.length_bytes (value : TokenValue) : value.bytes.length = value.size := by
  cases value <;> simp [bytes, size, zbxSerializeUint64]
  omega

theorem ContextToken.length_bytes {token : ContextToken} (h : token.Fits) :
    token.bytes.length = token.size := by
  have hopt := (compactBytes_spec h.opt).1
  have hl := (compactBytes_spec ((toNat_ofNat_of_lt h.l).trans_lt h.l)).1
  have hr := (compactBytes_spec ((toNat_ofNat_of_lt h.r).trans_lt h.r)).1
  have htype : (zbxSerializeValue token.type).length = 4 := length_rawBytes 4 _
  rw [toNat_ofNat_of_lt h.l] at hl
  rw [toNat_ofNat_of_lt h.r] at hr
  simp only [bytes, length_append, htype, hopt, hl, hr, token.value.length_bytes, size]
  omega

def tokensBytes (tokens : List ContextToken) : List UInt8 :=
  (tokens.map ContextToken.bytes).flatten

variable {tokens : List ContextToken}

theorem serializeTokens_writes (h : ∀ token ∈ tokens, token.Fits) :
    Writes 0 (serializeTokens tokens) (tokensBytes tokens) := by
  induction tokens with
  | nil => exact .pure
  | cons token tokens ih =>
    obtain ⟨htoken, htokens⟩ := forall_mem_cons.mp h
    exact (serializeToken_writes htoken).bind (ih htokens) (.inl rfl)

theorem length_tokensBytes (h : ∀ token ∈ tokens, token.Fits) :
    (tokensBytes tokens).length = (tokens.map ContextToken.size).sum := by
  rw [tokensBytes, length_flatten, map_map]
  exact congrArg List.sum (map_congr_left fun token hmem =>
    ContextToken.length_bytes (h token hmem))

theorem length_le_size : tokens.length ≤ (tokens.map ContextToken.size).sum := by
  induction tokens with
  | nil => exact le_refl 0
  | cons token tokens ih =>
    have hpos : 1 ≤ token.size := by
      unfold ContextToken.size
      omega
    rw [map_cons, sum_cons, length_cons]
    omega

theorem repeated_tokens_decodes {α : Type} {d : StateT (List UInt8) Option α} {f : ContextToken → α}
    (h : ∀ token ∈ tokens, Decodes d token.bytes (f token)) :
    Decodes (repeated d tokens.length) (tokensBytes tokens) (tokens.map f) := by
  have hall : Forall₂ (Decodes d) (tokens.map ContextToken.bytes) (tokens.map f) := by
    rw [forall₂_map_left_iff, forall₂_map_right_iff]
    exact forall₂_same.mpr h
  have hrepeated := repeated_decodes hall
  rwa [length_map] at hrepeated

variable {ctx : EvalContext}

theorem stack_length_lt (hsize : ctx.size < 2 ^ 31) : ctx.stack.length < 2 ^ 31 :=
  lt_of_le_of_lt (le_trans length_le_size (Nat.le_add_left _ _)) hsize

variable (hfits : ∀ token ∈ ctx.stack, token.Fits)

include hfits

theorem serialize_run (hcount : ctx.stack.length < 2 ^ 31) :
    ∃ buffer, (do
        writeCompact (UInt32.ofNat ctx.stack.length)
        serializeTokens ctx.stack : StateT Buffer Option Unit).run staticBuffer =
          some ((), buffer) ∧
      buffer.data = compactBytes (UInt32.ofNat ctx.stack.length) ++ tokensBytes ctx.stack ∧
      buffer.data.length = ctx.size := by
  obtain ⟨hlength, -, hwrites⟩ := compactBytes_spec ((toNat_ofNat_of_lt hcount).trans_lt hcount)
  have hall := hwrites.bind (serializeTokens_writes hfits) (.inl rfl)
  obtain ⟨buffer, hrun, hdata, -⟩ := hall staticBuffer (by decide)
  have hdata : buffer.data =
      compactBytes (UInt32.ofNat ctx.stack.length) ++ tokensBytes ctx.stack := hdata
  refine ⟨buffer, hrun, hdata, ?_⟩
  rw [hdata, length_append, hlength, toNat_ofNat_of_lt hcount, length_tokensBytes hfits]
  rfl

theorem evalSerialize_eq (hsize : ctx.size < 2 ^ 31) :
    zbxEvalSerialize ctx = some (compactBytes (UInt32.ofNat ctx.size) ++
      (compactBytes (UInt32.ofNat ctx.stack.length) ++ tokensBytes ctx.stack)) := by
  obtain ⟨buffer, hrun, hdata, htotal⟩ := serialize_run hfits (stack_length_lt hsize)
  obtain ⟨front, hfront, -, -⟩ :=
    serializeUint31Compact_spec ((toNat_ofNat_of_lt hsize).trans_lt hsize)
  have hbytes : compactBytes (UInt32.ofNat ctx.size) = front := by
    rw [compactBytes, hfront, Option.getD_some]
  unfold zbxEvalSerialize
  rw [hrun]
  show (zbxSerializeUint31Compact (UInt32.ofNat buffer.data.length) >>= _) = _
  rw [htotal, hfront, hbytes, Option.bind_eq_bind, Option.bind_some, toNat_ofNat_of_lt hsize,
    ← htotal, take_length, hdata]
  rfl

theorem evalSerialize_eq_none (hcount : ctx.stack.length < 2 ^ 31) (hlarge : 2 ^ 31 ≤ ctx.size)
    (hsize : ctx.size < 2 ^ 32) :
    zbxEvalSerialize ctx = none := by
  obtain ⟨buffer, hrun, -, htotal⟩ := serialize_run hfits hcount
  have hlen : 2 ^ 31 ≤ (UInt32.ofNat ctx.size).toNat := by
    rw [UInt32.toNat_ofNat']
    omega
  unfold zbxEvalSerialize
  rw [hrun]
  show (zbxSerializeUint31Compact (UInt32.ofNat buffer.data.length) >>= _) = _
  rw [htotal, serializeUint31Compact_eq_none hlen]
  rfl

theorem deserializeStack_decodes (hsize : ctx.size < 2 ^ 31) :
    Decodes deserializeStack (compactBytes (UInt32.ofNat ctx.size) ++
      (compactBytes (UInt32.ofNat ctx.stack.length) ++ tokensBytes ctx.stack)) ctx.stack := by
  have hcount := stack_length_lt hsize
  have htokens := repeated_tokens_decodes fun token hmem =>
    deserializeToken_decodes (hfits token hmem)
  rw [map_id'] at htokens
  refine (compactBytes_spec ((toNat_ofNat_of_lt hsize).trans_lt hsize)).2.1.bind
    ((compactBytes_spec ((toNat_ofNat_of_lt hcount).trans_lt hcount)).2.1.bind ?_)
  rwa [toNat_ofNat_of_lt hcount]

omit hfits

theorem uint31Compact_prefix_free {value other : UInt32} {bytes bytes' : List UInt8}
    (hbytes : zbxSerializeUint31Compact value = some bytes)
    (hbytes' : zbxSerializeUint31Compact other = some bytes') (hbegins : bytes <+: bytes') :
    bytes = bytes' := by
  have hdecodes : ∀ {value bytes}, zbxSerializeUint31Compact value = some bytes →
      Decodes zbxDeserializeUint31Compact bytes value := by
    intro value bytes hbytes
    have hlt : value.toNat < 2 ^ 31 := by
      by_contra hle
      rw [serializeUint31Compact_eq_none (not_lt.mp hle)] at hbytes
      exact absurd hbytes (Option.some_ne_none bytes).symm
    obtain ⟨_, heq, -, hdecodes⟩ := serializeUint31Compact_spec hlt
    rwa [Option.some_inj.mp (hbytes.symm.trans heq)]
  obtain ⟨rest, rfl⟩ := hbegins
  -- both values are read from the longer one, the rest of it being left by the shorter one
  have hwhole := hdecodes hbytes' []
  rw [append_nil, hdecodes hbytes rest] at hwhole
  obtain ⟨-, rfl⟩ := Prod.mk.inj (Option.some_inj.mp hwhole)
  exact (append_nil bytes).symm

/-- The callers reserve 6 bytes for each number, those of `len_buff` included. -/
def compactReserve : ℕ := 6

theorem uint31Compact_code {value : UInt32} (h : value.toNat < 2 ^ 31) :
    ∃ bytes, zbxSerializeUint31Compact value = some bytes ∧ bytes.length ≤ compactReserve ∧
      (∀ rest, zbxDeserializeUint31Compact.run (bytes ++ rest) = some (value, rest)) ∧
      (∀ buffer : Buffer, buffer.data.length + compactReserve ≤ buffer.size →
        ∃ buffer', (writeCompact value).run buffer = some ((), buffer') ∧
          buffer'.data = buffer.data ++ bytes) ∧
      ∀ other bytes', zbxSerializeUint31Compact other = some bytes' →
        (bytes <+: bytes' ∨ bytes' <+: bytes) → bytes = bytes' := by
  obtain ⟨bytes, hbytes, hlength, hdecodes⟩ := serializeUint31Compact_spec h
  obtain ⟨-, -, hwrites⟩ := compactBytes_spec h
  rw [compactBytes, hbytes, Option.getD_some] at hwrites
  refine ⟨bytes, hbytes, hlength.trans_le (compactSize_le _), hdecodes, ?_, ?_⟩
  · intro buffer hroom
    obtain ⟨buffer', hrun, hdata, -⟩ := hwrites buffer hroom
    exact ⟨buffer', hrun, hdata⟩
  · rintro other bytes' hother (hbegins | hbegins)
    · exact uint31Compact_prefix_free hbytes hother hbegins
    · exact (uint31Compact_prefix_free hother hbytes hbegins).symm

theorem uint31Compact_code_largest :
    ∃ bytes, zbxSerializeUint31Compact 0x7fffffff = some bytes ∧ bytes.length ≤ compactReserve ∧
      zbxDeserializeUint31Compact.run (bytes ++ [0]) = some (0x7fffffff, [0]) := by
  obtain ⟨bytes, hbytes, hlength, hdecodes, -⟩ :=
    uint31Compact_code (show (0x7fffffff : UInt32).toNat < 2 ^ 31 by decide)
  exact ⟨bytes, hbytes, hlength, hdecodes [0]⟩

end Zabbix.Eval
