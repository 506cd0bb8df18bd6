import Zabbix.Foundation.Base64
import Zabbix.Foundation.Memory

/-!
# Base64 texts

`base64.c`. A text is its bytes before the terminator. Reads and writes are checked against the
text or the buffer.
-/

namespace Zabbix.Crypto

open Base64 Memory

def maxB64Len : ℕ := 16 * 1024

def isValidBase64Char (c : UInt8) : Bool :=
  (ascii 'A' ≤ c && ascii 'Z' ≥ c) || (ascii 'a' ≤ c && ascii 'z' ≥ c) ||
    (ascii '/' ≤ c && ascii '9' ≥ c) || ascii '+' = c

def charAt (text : List UInt8) (i : ℕ) : Option UInt8 := (text ++ [0])[i]?

def validateLoop (pStr : List UInt8) : ℕ → ℕ → Option Bool
  | 0, _ => none
  | fuel + 1, i =>
    (charAt pStr i).bind fun c =>
      if c ≠ 0 ∨ i % 4 = 0 then
        if i % 4 ≠ 0 then validateLoop pStr fuel (i + 1)
        else
          (block pStr (i - 4) 4).bind fun
            | [c₁, c₂, c₃, c₄] =>
              if isValidBase64Char c₁ && isValidBase64Char c₂ && isValidBase64Char c₃ &&
                  isValidBase64Char c₄ then
                if c = 0 then some true else validateLoop pStr fuel (i + 1)
              else if c = 0 then
                if isValidBase64Char c₁ && isValidBase64Char c₂ && c₃ = ascii '=' &&
                    c₄ = ascii '=' then some true
                else if isValidBase64Char c₁ && isValidBase64Char c₂ && isValidBase64Char c₃ &&
                    c₄ = ascii '=' then some true
                else if isValidBase64Char c₁ && isValidBase64Char c₂ && isValidBase64Char c₃ &&
                    isValidBase64Char c₄ then some true
                else some false
              else some false
            | _ => none
      else some false

def zbxBase64Validate (pStr : List UInt8) : Option Bool :=
  (charAt pStr 0).bind fun c => if c = 0 then some true else validateLoop pStr (pStr.length + 1) 1

def isBase64 (c : UInt8) : Bool :=
  (c ≥ ascii 'A' && c ≤ ascii 'Z') || (c ≥ ascii 'a' && c ≤ ascii 'z') ||
    (c ≥ ascii '0' && c ≤ ascii '9') || c = ascii '+' || c = ascii '/' || c = ascii '='

def base64Set : List UInt8 :=
  "ABCDEFGHIJKLMNOPQRSTUVWXYZabcdefghijklmnopqrstuvwxyz0123456789+/".toList.map ascii ++ [0]

def charBase64Encode (uc : UInt8) : Option UInt8 := base64Set[uc.toNat]?

def charBase64Decode (c : UInt8) : UInt8 :=
  if c ≥ ascii 'A' && c ≤ ascii 'Z' then c - ascii 'A'
  else if c ≥ ascii 'a' && c ≤ ascii 'z' then c - ascii 'a' + 26
  else if c ≥ ascii '0' && c ≤ ascii '9' then c - ascii '0' + 52
  else if c = ascii '+' then 62
  else 63

/-- The four characters for three bytes, of which the first `n` are there. -/
def encodeGroup (from1 from2 from3 : UInt8) (n : ℕ) : Option (List UInt8) := do
  let to1 := (from1 >>> 2) &&& 0x3f
  let to2 := ((from1 &&& 0x3) <<< 4) ||| (from2 >>> 4)
  let to3 := ((from2 &&& 0xf) <<< 2) ||| (from3 >>> 6)
  let to4 := from3 &&& 0x3f
  let c1 ← charBase64Encode to1
  let c2 ← charBase64Encode to2
  let c3 ← if 1 < n then charBase64Encode to3 else some (ascii '=')
  let c4 ← if 2 < n then charBase64Encode to4 else some (ascii '=')
  return [c1, c2, c3, c4]

/-- The loop of `zbx_base64_encode` from `p` on, with the buffer as memory. -/
def encodeLoop (pB64Str : ℕ) : List UInt8 → ℕ → List UInt8 → Option (ℕ × List UInt8)
  | [], p, memory => some (p, memory)
  | [from1], p, memory =>
    if p - pB64Str > maxB64Len - 5 then some (p, memory)
    else
      (encodeGroup from1 0 0 1).bind fun group =>
        (overwrite memory p group).bind fun memory => some (p + 4, memory)
  | [from1, from2], p, memory =>
    if p - pB64Str > maxB64Len - 5 then some (p, memory)
    else
      (encodeGroup from1 from2 0 2).bind fun group =>
        (overwrite memory p group).bind fun memory => some (p + 4, memory)
  | from1 :: from2 :: from3 :: rest, p, memory =>
    if p - pB64Str > maxB64Len - 5 then some (p, memory)
    else
      (encodeGroup from1 from2 from3 3).bind fun group =>
        (overwrite memory p group).bind fun memory => encodeLoop pB64Str rest (p + 4) memory

/-- `zbx_base64_encode`: the memory with the text at an offset. -/
def zbxBase64Encode (pStr : List UInt8) (pB64Str : ℕ) (memory : List UInt8) : Option (List UInt8) :=
  if pStr = [] then some memory
  else
    (encodeLoop pB64Str pStr pB64Str memory).bind fun (p, memory) => overwrite memory p [0]

def cPerBlock : ℕ := (maxB64Len - 1) / 4 * 3

def bPerBlock : ℕ := cPerBlock / 3 * 4

def encodeBlocks (pStr : List UInt8) : ℕ → ℕ → ℕ → List UInt8 → Option (ℕ × ℕ × List UInt8)
  | 0, pc, pcR, memory => some (pc, pcR, memory)
  | fullBlockNum + 1, pc, pcR, memory =>
    (block pStr pc cPerBlock).bind fun chunk =>
      (zbxBase64Encode chunk pcR memory).bind fun memory =>
        encodeBlocks pStr fullBlockNum (pc + cPerBlock) (pcR + bPerBlock) memory

/-- `zbx_base64_encode_dyn`: the memory that was allocated, which held anything. A size that is no
`int` is undefined. -/
def zbxBase64EncodeDyn (fresh : ℕ → UInt8) (pStr : List UInt8) : Option (List UInt8) :=
  let size := (pStr.length + 2) / 3 * 4 + 1
  if size ≥ 2 ^ 31 then none
  else
    let fullBlockNum := pStr.length / cPerBlock
    let bytesLeft := pStr.length % cPerBlock
    let bytesForLeft := (bytesLeft + 2) / 3 * 4
    (encodeBlocks pStr fullBlockNum 0 0 ((List.range size).map fresh)).bind
      fun (pc, pcR, memory) =>
        if bytesLeft ≠ 0 then
          (block pStr pc bytesLeft).bind fun left =>
            (zbxBase64Encode left pcR memory).bind fun memory =>
              overwrite memory (pcR + bytesForLeft) [0]
        else overwrite memory pcR [0]

/-- `*p_str++ = byte` with the count; true if the buffer is full then. -/
def putByte (maxsize : ℕ) (out : List UInt8) (byte : UInt8) : Option (Bool × List UInt8) :=
  if out.length < maxsize then some (out.length + 1 = maxsize, out ++ [byte]) else none

def putByteIf (maxsize : ℕ) (there : Bool) (byte : UInt8) :
    Bool × List UInt8 → Option (Bool × List UInt8)
  | (true, out) => some (true, out)
  | (false, out) => if there then putByte maxsize out byte else some (false, out)

def decodeBlock (maxsize : ℕ) (collected : List UInt8) (out : List UInt8) :
    Option (Bool × List UInt8) :=
  if collected = [] then some (false, out)
  else
    let chars (j : ℕ) := collected.getD j (ascii 'A')
    let bits (j : ℕ) := charBase64Decode (chars j)
    let lasti := collected.length - 1
    (putByteIf maxsize (1 ≤ lasti) ((bits 0 <<< 2) ||| (bits 1 >>> 4)) (false, out)).bind fun s =>
      (putByteIf maxsize (2 ≤ lasti && ascii '=' ≠ chars 2)
        (((bits 1 &&& 0xf) <<< 4) ||| (bits 2 >>> 2)) s).bind fun s =>
          putByteIf maxsize (3 = lasti && ascii '=' ≠ chars 3)
            (((bits 2 &&& 0x3) <<< 6) ||| bits 3) s

/-- The loop of `zbx_base64_decode`; `collected` is what is filled in of `from[]`. -/
def decodeLoop (maxsize : ℕ) : List UInt8 → List UInt8 → List UInt8 → Option (List UInt8)
  | [], collected, out => (decodeBlock maxsize collected out).map (·.2)
  | c :: p, collected, out =>
    if !isBase64 c then decodeLoop maxsize p collected out
    else if collected.length < 3 then decodeLoop maxsize p (collected ++ [c]) out
    else
      (decodeBlock maxsize (collected ++ [c]) out).bind fun (full, out) =>
        if full then some out else decodeLoop maxsize p [] out

def zbxBase64Decode (pB64Str : List UInt8) (maxsize : ℕ) : Option (List UInt8) :=
  if maxsize > 0 then decodeLoop maxsize pB64Str [] [] else none

end Zabbix.Crypto
