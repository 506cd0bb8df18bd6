import Mathlib.Tactic.IntervalCases
import Zabbix.Interval.Parse
import Zabbix.Json.Parser

/-!
# Ranges of IP addresses

`iprange.c` and `zbx_ip_in_list` of `ip.c`, with support for IPv6. A pointer into a text is the rest
of it; `stop` is how far `end` lies behind the start of the rest.
-/

namespace Zabbix.Ip

open Zabbix.Expr Zabbix.Interval Zabbix.Json

inductive IprangeType
  | v4
  | v6
  deriving DecidableEq

structure Range where
  -- `from` and `to`
  low : ℕ
  high : ℕ
  deriving DecidableEq

structure Iprange where
  range : List Range
  type : IprangeType
  mask : Bool
  deriving DecidableEq

def IprangeType.groups : IprangeType → ℕ
  | .v4 => 4
  | .v6 => 8

def IprangeType.groupBits : IprangeType → ℕ
  | .v4 => 8
  | .v6 => 16

/-- `zbx_is_hex_n_range`; a number that does not fit in 64 bits is above `max` as well. -/
def zbxIsHexNRange (s : List Char) (n max : ℕ) : Option ℕ :=
  if s = [] ∨ n = 0 ∨ (s.take n).all isxdigit = false then none
  else
    let value := (s.take n).foldl (fun value c => value * 16 + zbxHex2num c) 0
    if max < value then none else some value

def iprangeAddressLength (address : List Char) : ℕ :=
  (address.reverse.dropWhile isWhitespace).length

/-- `iprange_apply_mask`; `below` bits of a group are not in the mask. -/
def iprangeApplyMask (type : IprangeType) (bits : ℕ) (range : List Range) : List Range :=
  range.mapIdx fun i group =>
    let below := min type.groupBits (type.groups * type.groupBits - bits -
      (type.groups - 1 - i) * type.groupBits)
    ⟨group.low / 2 ^ below * 2 ^ below, group.high ||| (2 ^ below - 1)⟩

def parseGroup (number : List Char → ℕ → Option ℕ) (masked : Bool) (address : List Char) (ptr : ℕ) :
    Option Range :=
  let dash := address.idxOf '-'
  if dash < address.length ∧ masked then none
  else if dash < address.length ∧ dash ≤ ptr then do
    let low ← number address dash
    let high ← number (address.drop (dash + 1)) (ptr - (dash + 1))
    if high < low then none else some ⟨low, high⟩
  else do
    let low ← number address ptr
    some ⟨low, low⟩

def separator (c : Char) (address : List Char) (stop : ℕ) : ℕ :=
  if c ∈ address then address.idxOf c else stop

def parseMask (maxBits : ℕ) (address : List Char) : Option (Option ℕ × ℕ) :=
  let len := iprangeAddressLength address
  let slash := address.idxOf '/'
  if slash < address.length then
    (zbxIsUintNRange (address.drop (slash + 1)) (len - (slash + 1)) 0 maxBits).map fun bits =>
      (some bits, slash)
  else some (none, len)

/-- The loop of `iprangev4_parse` over at most `n` more groups. -/
def v4Loop (masked : Bool) : ℕ → List Char → ℕ → Option (List Range)
  | 0, _, _ => some []
  | n + 1, address, stop => do
    let ptr := separator '.' address stop
    let group ← parseGroup (fun s n => zbxIsUintNRange s n 0 255) masked address ptr
    if ptr < stop then do
      let rest ← v4Loop masked n (address.drop (ptr + 1)) (stop - (ptr + 1))
      some (group :: rest)
    else some [group]

def iprangev4Parse (address : List Char) : Option Iprange := do
  let (bits, stop) ← parseMask 30 address
  let range ← if 0 < stop then v4Loop bits.isSome 4 address stop else some []
  if range.length = 4 then
    some
      { range := bits.elim range fun bits => iprangeApplyMask .v4 bits range
        type := .v4
        mask := bits.isSome }
  else none

/-- `ptr[1]`, which for a `ptr` at the terminator is `stray`, a character that is not of the text. -/
def charBehind (stray : Char) (address : List Char) (ptr : ℕ) : Char :=
  if ptr < address.length then charAt (address.drop (ptr + 1)) else stray

/-- The loop of `iprangev6_parse`: the groups so far, one more after each round but the last, and
the place of the group for `::`. -/
def v6Loop (stray : Char) (masked : Bool) : ℕ → List Range → Option ℕ → List Char → ℕ →
    Option (List Range × Option ℕ)
  | 0, range, fill, _, _ => some (range, fill)
  | n + 1, range, fill, address, stop =>
    if 8 ≤ range.length then some (range, fill)
    else do
      let ptr := separator ':' address stop
      let range ←
        if ptr = 0 then if charBehind stray address 0 = ':' then some range else none
        else do
          let group ← parseGroup (fun s n => zbxIsHexNRange s n 65535) masked address ptr
          some (range ++ [group])
      if ptr < address.length ∧ charBehind stray address ptr = ':' then
        -- where there are eight groups already, this one is written behind the array
        if fill.isSome then none
        else if ptr + 2 < stop then
          v6Loop stray masked n (range ++ [⟨0, 0⟩]) (some range.length) (address.drop (ptr + 2))
            (stop - (ptr + 2))
        else some (range ++ [⟨0, 0⟩], some range.length)
      else if ptr < stop then
        v6Loop stray masked n range fill (address.drop (ptr + 1)) (stop - (ptr + 1))
      else some (range, fill)

def expandFill (range : List Range) : Option ℕ → Option (List Range)
  | some fill =>
    if range.length ≤ 8 then
      some (range.take (fill + 1) ++ List.replicate (8 - range.length) ⟨0, 0⟩ ++
        range.drop (fill + 1))
    else none
  | none => if range.length = 8 then some range else none

def iprangev6Parse (stray : Char) (address : List Char) : Option Iprange := do
  let (bits, stop) ← parseMask 128 address
  let (range, fill) ←
    if 0 < stop then v6Loop stray bits.isSome 9 [] none address stop else some ([], none)
  let range ← expandFill range fill
  some
    { range := bits.elim range fun bits => iprangeApplyMask .v6 bits range
      type := .v6
      mask := bits.isSome }

def zbxIprangeParse (stray : Char) (address : List Char) : Option Iprange :=
  let address := address.dropWhile isWhitespace
  if '.' ∈ address then iprangev4Parse address else iprangev6Parse stray address

def zbxIprangeFirst (iprange : Iprange) (stack : ℕ → ℤ) : ℕ → ℤ := fun i =>
  if i < iprange.type.groups then
    (iprange.range.getD i ⟨0, 0⟩).low +
      if iprange.type = .v4 ∧ iprange.mask ∧ i = iprange.type.groups - 1 then 1 else 0
  else stack i

def zbxIprangeValidate (iprange : Iprange) (address : ℕ → ℤ) : Bool :=
  (List.range iprange.type.groups).all fun i =>
    (iprange.range.getD i ⟨0, 0⟩).low ≤ address i ∧ address i ≤ (iprange.range.getD i ⟨0, 0⟩).high

/-- `zbx_ip_in_list`; `stray` tells what the buffer holds behind each of the texts between commas.
-/
def zbxIpInList (stack : ℕ → ℤ) (stray : ℕ → Char) (list ip : List Char) : Bool :=
  match zbxIprangeParse '\x00' ip with
  | none => false
  | some iprange =>
    let ipaddress := zbxIprangeFirst iprange stack
    (list.splitOn ',').zipIdx.any fun (address, i) =>
      (zbxIprangeParse (stray i) address).any fun iprange => zbxIprangeValidate iprange ipaddress

variable {list ip : List Char} {stack groups address : ℕ → ℤ} {stray : ℕ → Char}
  {iprange : Iprange} {family : IprangeType}

def Contains (iprange : Iprange) (address : ℕ → ℤ) : Prop :=
  ∀ i < iprange.type.groups, (iprange.range.getD i ⟨0, 0⟩).low ≤ address i ∧
    address i ≤ (iprange.range.getD i ⟨0, 0⟩).high

theorem zbxIprangeValidate_iff : zbxIprangeValidate iprange address = true ↔
    Contains iprange address := by
  simp [zbxIprangeValidate, Contains]

def InSome (families : IprangeType → Prop) (stray : ℕ → Char) (list : List Char)
    (address : ℕ → ℤ) : Prop :=
  ∃ element i, (element, i) ∈ (list.splitOn ',').zipIdx ∧
    ∃ iprange, zbxIprangeParse (stray i) element = some iprange ∧
      families iprange.type ∧ Contains iprange address

theorem zbxIpInList_iff (h : zbxIprangeParse '\x00' ip = some iprange) :
    zbxIpInList stack stray list ip = true ↔
      InSome (fun _ => True) stray list (zbxIprangeFirst iprange stack) := by
  unfold zbxIpInList InSome
  rw [h]
  simp only [List.any_eq_true, Option.any_eq_true, zbxIprangeValidate_iff, true_and, Prod.exists]

theorem inSome_split (family : IprangeType) : InSome (fun _ => True) stray list address ↔
    InSome (· = family) stray list address ∨ InSome (· ≠ family) stray list address := by
  constructor
  · rintro ⟨element, i, helement, found, hparse, -, hcontains⟩
    by_cases hfamily : found.type = family
    · exact .inl ⟨element, i, helement, found, hparse, hfamily, hcontains⟩
    · exact .inr ⟨element, i, helement, found, hparse, hfamily, hcontains⟩
  · rintro (⟨element, i, helement, found, hparse, -, hcontains⟩ |
      ⟨element, i, helement, found, hparse, -, hcontains⟩) <;>
      exact ⟨element, i, helement, found, hparse, trivial, hcontains⟩

def onStack (family : IprangeType) (groups stack : ℕ → ℤ) : ℕ → ℤ := fun i =>
  if i < family.groups then groups i else stack i

/-- The text is one of the address: where it is read, it is read as this address. -/
def StandsFor (ip : List Char) (family : IprangeType) (groups : ℕ → ℤ) : Prop :=
  ∀ iprange, zbxIprangeParse '\x00' ip = some iprange → iprange.type = family ∧
    ∀ stack i, i < family.groups → zbxIprangeFirst iprange stack i = groups i

theorem StandsFor.first_eq (h : StandsFor ip family groups)
    (hparse : zbxIprangeParse '\x00' ip = some iprange) :
    zbxIprangeFirst iprange stack = onStack family groups stack := by
  obtain ⟨htype, hgroups⟩ := h iprange hparse
  funext i
  by_cases hi : i < family.groups
  · rw [hgroups stack i hi, onStack, if_pos hi]
  · rw [zbxIprangeFirst, onStack, htype, if_neg hi, if_neg hi]

theorem inSome_onStack : InSome (· = family) stray list (onStack family groups stack) ↔
    InSome (· = family) stray list groups := by
  have hcontains : ∀ iprange : Iprange, iprange.type = family →
      (Contains iprange (onStack family groups stack) ↔ Contains iprange groups) := by
    rintro iprange rfl
    refine forall₂_congr fun i hi => ?_
    rw [onStack, if_pos hi]
  constructor <;> rintro ⟨element, i, helement, found, hparse, hfamily, h⟩ <;>
    exact ⟨element, i, helement, found, hparse, hfamily, by simpa [hcontains found hfamily] using h⟩

theorem standsFor_loopback : StandsFor "::1".toList .v6 fun i => if i = 7 then 1 else 0 := by
  intro iprange hparse
  have hread : zbxIprangeParse '\x00' "::1".toList =
      some ⟨List.replicate 7 ⟨0, 0⟩ ++ [⟨1, 1⟩], .v6, false⟩ := by decide
  obtain rfl := Option.some.inj (hread.symm.trans hparse)
  refine ⟨rfl, fun stack i hi => ?_⟩
  have hi : i < 8 := hi
  interval_cases i <;> rfl

/-- A range is compared over its own groups, whatever the family of the address is, and a text that
the parser of ranges does not read is in no list. -/
theorem ip_in_list_membership_iff (h : StandsFor ip family groups) :
    (zbxIpInList stack stray list ip = true ↔ InSome (· = family) stray list groups) ↔
      if (zbxIprangeParse '\x00' ip).isSome then
        InSome (· ≠ family) stray list (onStack family groups stack) →
          InSome (· = family) stray list groups
      else ¬InSome (· = family) stray list groups := by
  cases hparse : zbxIprangeParse '\x00' ip with
  | none => simp [zbxIpInList, hparse]
  | some iprange =>
    rw [zbxIpInList_iff hparse, h.first_eq hparse, inSome_split family, inSome_onStack,
      Option.isSome_some, if_pos rfl]
    tauto

theorem ip_in_list_membership_iff_mixed :
    (zbxIpInList (fun _ => 0) (fun _ => '\x00') "10.0.0.0/8,::1".toList "::1".toList = true ↔
      InSome (· = .v6) (fun _ => '\x00') "10.0.0.0/8,::1".toList fun i => if i = 7 then 1 else 0) ↔
      if (zbxIprangeParse '\x00' "::1".toList).isSome then
        InSome (· ≠ .v6) (fun _ => '\x00') "10.0.0.0/8,::1".toList
          (onStack .v6 (fun i => if i = 7 then 1 else 0) fun _ => 0) →
            InSome (· = .v6) (fun _ => '\x00') "10.0.0.0/8,::1".toList
              fun i => if i = 7 then 1 else 0
      else ¬InSome (· = .v6) (fun _ => '\x00') "10.0.0.0/8,::1".toList
        fun i => if i = 7 then 1 else 0 :=
  ip_in_list_membership_iff standsFor_loopback

/-- Every IPv6 address that starts with four small groups is in a list with an IPv4 range. -/
theorem ip_in_list_other_family :
    ¬∀ (list ip : List Char) (stack groups : ℕ → ℤ) (stray : ℕ → Char) (family : IprangeType),
      StandsFor ip family groups →
        (zbxIpInList stack stray list ip = true ↔ InSome (· = family) stray list groups) := by
  intro h
  have hlist : ("0.0.0.0/0".toList.splitOn ',').zipIdx = [("0.0.0.0/0".toList, 0)] := by decide
  have hin := (h "0.0.0.0/0".toList "::1".toList (fun _ => 0) (fun i => if i = 7 then 1 else 0)
    (fun _ => '\x00') .v6 standsFor_loopback).1 (by decide)
  obtain ⟨element, i, helement, iprange, hparse, hfamily, -⟩ := hin
  rw [hlist] at helement
  obtain ⟨rfl, rfl⟩ : element = "0.0.0.0/0".toList ∧ i = 0 := by simpa using helement
  have hv4 : (zbxIprangeParse '\x00' "0.0.0.0/0".toList).map Iprange.type = some .v4 := by decide
  rw [hparse] at hv4
  exact absurd (hfamily.symm.trans (Option.some.inj hv4)) (by decide)

end Zabbix.Ip
