import Mathlib.Data.List.Basic

/-!
# UTF-8 in lists of bytes

Texts as lists of bytes, one `Char` for each byte.
-/

namespace Zabbix.Utf8

open List

def encode (c : Char) : List Char := (String.utf8EncodeChar c).map fun b => Char.ofNat b.toNat

def encodeAll (text : List Char) : List Char := text.flatMap encode

variable {c d : Char}

@[simp] theorem encodeAll_nil : encodeAll [] = [] := rfl

@[simp] theorem encodeAll_cons (c : Char) (text : List Char) :
    encodeAll (c :: text) = encode c ++ encodeAll text := flatMap_cons

@[simp] theorem encodeAll_append (text text' : List Char) :
    encodeAll (text ++ text') = encodeAll text ++ encodeAll text' := flatMap_append

theorem toNat_ofNat {n : ℕ} (h : n < 256) : (Char.ofNat n).toNat = n := by
  have hvalid : n.isValidChar := .inl (by omega)
  rw [Char.ofNat, dif_pos hvalid]
  rfl

theorem byte_injective : Function.Injective fun b : UInt8 => Char.ofNat b.toNat := by
  intro b b' h
  have hnat := congrArg Char.toNat h
  simp only [toNat_ofNat b.toNat_lt, toNat_ofNat b'.toNat_lt] at hnat
  exact UInt8.toNat_inj.mp hnat

theorem encode_injective : Function.Injective encode := by
  intro c d h
  have hbytes := map_injective_iff.mpr byte_injective h
  have hc := @ByteArray.utf8DecodeChar?_utf8EncodeChar_append ByteArray.empty c
  have hd := @ByteArray.utf8DecodeChar?_utf8EncodeChar_append ByteArray.empty d
  rw [hbytes] at hc
  exact Option.some_inj.mp (hc.symm.trans hd)

def Continues (x : Char) : Prop := ∃ n < 64, x = Char.ofNat (n + 0x80)

theorem encode_cases (c : Char) :
    (c.toNat < 128 ∧ encode c = [c]) ∨
    (128 ≤ c.toNat ∧ ∃ n < 32, ∃ x, Continues x ∧ encode c = [Char.ofNat (n + 0xc0), x]) ∨
    (128 ≤ c.toNat ∧ ∃ n < 16, ∃ x y, Continues x ∧ Continues y ∧
      encode c = [Char.ofNat (n + 0xe0), x, y]) ∨
    (128 ≤ c.toNat ∧ ∃ n < 8, ∃ x y z, Continues x ∧ Continues y ∧ Continues z ∧
      encode c = [Char.ofNat (n + 0xf0), x, y, z]) := by
  have hbyte : ∀ n < 256, (UInt8.ofNat n).toNat = n := fun n hn =>
    (UInt8.toNat_ofNat' ..).trans (Nat.mod_eq_of_lt hn)
  have hcontinues : ∀ n, Continues (Char.ofNat (n % 64 + 0x80)) := fun n =>
    ⟨n % 64, Nat.mod_lt n (by decide), rfl⟩
  have hval : c.val.toNat = c.toNat := rfl
  unfold encode String.utf8EncodeChar
  simp only [hval]
  have hlast := hbyte (c.toNat % 0x40 + 0x80) (by omega)
  have hthird := hbyte (c.toNat / 64 % 0x40 + 0x80) (by omega)
  have hsecond := hbyte (c.toNat / 4096 % 0x40 + 0x80) (by omega)
  split_ifs with h1 h2 h3
  · refine .inl ⟨by omega, ?_⟩
    rw [map_singleton, hbyte c.toNat (by omega), Char.ofNat_toNat]
  · refine .inr (.inl ⟨by omega, c.toNat / 64 % 32, by omega, _, hcontinues c.toNat, ?_⟩)
    simp only [map_cons, map_nil, hbyte (c.toNat / 64 % 0x20 + 0xc0) (by omega), hlast]
  · refine .inr (.inr (.inl ⟨by omega, c.toNat / 4096 % 16, by omega, _, _,
      hcontinues (c.toNat / 64), hcontinues c.toNat, ?_⟩))
    simp only [map_cons, map_nil, hbyte (c.toNat / 4096 % 0x10 + 0xe0) (by omega), hthird, hlast]
  · refine .inr (.inr (.inr ⟨by omega, c.toNat / 262144 % 8, by omega, _, _, _,
      hcontinues (c.toNat / 4096), hcontinues (c.toNat / 64), hcontinues c.toNat, ?_⟩))
    simp only [map_cons, map_nil, hbyte (c.toNat / 262144 % 0x08 + 0xf0) (by omega),
      hsecond, hthird, hlast]

def isContinuation (b : Char) : Bool := b.toNat &&& 0xc0 = 0x80

theorem masks_lead_one : ∀ n < 128, ¬ n &&& 0xc0 = 0x80 := by decide

theorem masks_lead : ∀ n < 64, ¬ (n + 0xc0) &&& 0xc0 = 0x80 := by decide

theorem masks_continuation : ∀ n < 64, (n + 0x80) &&& 0xc0 = 0x80 := by decide

theorem isContinuation_lead {n : ℕ} (h : n < 64) :
    isContinuation (Char.ofNat (n + 0xc0)) = false := by
  unfold isContinuation
  rw [toNat_ofNat (by omega)]
  exact decide_eq_false (masks_lead n h)

theorem isContinuation_of_continues {x : Char} (h : Continues x) : isContinuation x = true := by
  obtain ⟨n, hn, rfl⟩ := h
  unfold isContinuation
  rw [toNat_ofNat (by omega)]
  exact decide_eq_true (masks_continuation n hn)

theorem encode_starts (c : Char) :
    ∃ b bs, encode c = b :: bs ∧ isContinuation b = false ∧ ∀ x ∈ bs, isContinuation x = true := by
  obtain ⟨hc, h⟩ | ⟨-, n, hn, x, hx, h⟩ | ⟨-, n, hn, x, y, hx, hy, h⟩ |
    ⟨-, n, hn, x, y, z, hx, hy, hz, h⟩ := encode_cases c
  · exact ⟨c, [], h, decide_eq_false (masks_lead_one c.toNat hc), forall_mem_nil _⟩
  · have hlead : isContinuation (Char.ofNat (n + 0xc0)) = false := isContinuation_lead (by omega)
    refine ⟨_, _, h, hlead, ?_⟩
    simp [isContinuation_of_continues hx]
  · have hlead : isContinuation (Char.ofNat (n + 32 + 0xc0)) = false :=
      isContinuation_lead (by omega)
    refine ⟨_, _, h, hlead, ?_⟩
    simp [isContinuation_of_continues hx, isContinuation_of_continues hy]
  · have hlead : isContinuation (Char.ofNat (n + 48 + 0xc0)) = false :=
      isContinuation_lead (by omega)
    refine ⟨_, _, h, hlead, ?_⟩
    simp [isContinuation_of_continues hx, isContinuation_of_continues hy,
      isContinuation_of_continues hz]

theorem encode_ascii (hc : c.toNat < 128) : encode c = [c] := by
  obtain ⟨-, h⟩ | ⟨h, -⟩ | ⟨h, -⟩ | ⟨h, -⟩ := encode_cases c
  · exact h
  all_goals omega

theorem encode_ne_nil (c : Char) : encode c ≠ [] := by
  obtain ⟨-, h⟩ | ⟨-, n, -, x, -, h⟩ | ⟨-, n, -, x, y, -, -, h⟩ | ⟨-, n, -, x, y, z, -, -, -, h⟩ :=
    encode_cases c <;> simp [h]

theorem encode_high (hc : 128 ≤ c.toNat) : ∀ b ∈ encode c, 128 ≤ b.toNat := by
  have hbyte : ∀ {n m : ℕ}, n + m < 256 → 128 ≤ m → 128 ≤ (Char.ofNat (n + m)).toNat := by
    intro n m hn hm
    rw [toNat_ofNat hn]
    omega
  have hcontinues : ∀ {x : Char}, Continues x → 128 ≤ x.toNat := by
    intro x hx
    obtain ⟨n, hn, rfl⟩ := hx
    exact hbyte (by omega) (by omega)
  obtain ⟨h, -⟩ | ⟨-, n, hn, x, hx, h⟩ | ⟨-, n, hn, x, y, hx, hy, h⟩ |
    ⟨-, n, hn, x, y, z, hx, hy, hz, h⟩ := encode_cases c
  · omega
  · simp only [h, forall_mem_cons]
    exact ⟨hbyte (by omega) (by omega), hcontinues hx, forall_mem_nil _⟩
  · simp only [h, forall_mem_cons]
    exact ⟨hbyte (by omega) (by omega), hcontinues hx, hcontinues hy, forall_mem_nil _⟩
  · simp only [h, forall_mem_cons]
    exact ⟨hbyte (by omega) (by omega), hcontinues hx, hcontinues hy, hcontinues hz,
      forall_mem_nil _⟩

theorem mem_encode_iff (hd : d.toNat < 128) : d ∈ encode c ↔ c = d := by
  constructor
  · intro hmem
    by_cases hc : c.toNat < 128
    · rw [encode_ascii hc, mem_singleton] at hmem
      exact hmem.symm
    · have hhigh := encode_high (c := c) (by omega) d hmem
      omega
  · rintro rfl
    rw [encode_ascii hd]
    exact mem_singleton_self c

theorem headD_encode_iff (hd : d.toNat < 128) {rest : List Char} {e : Char} :
    (encode c ++ rest).headD e = d ↔ c = d := by
  obtain ⟨b, bs, hc⟩ := exists_cons_of_ne_nil (encode_ne_nil c)
  rw [hc, cons_append, headD_cons]
  constructor
  · rintro rfl
    exact (mem_encode_iff hd).mp (hc ▸ mem_cons_self)
  · rintro rfl
    rw [encode_ascii hd] at hc
    exact (List.cons.inj hc).1.symm

theorem mem_encodeAll_iff (hd : d.toNat < 128) {text : List Char} :
    d ∈ encodeAll text ↔ d ∈ text := by
  unfold encodeAll
  simp only [mem_flatMap, mem_encode_iff hd, exists_eq_right]

theorem encodeAll_eq_append (hd : d.toNat < 128) : ∀ {text xs ys : List Char},
    encodeAll text = xs ++ d :: ys →
      ∃ front back, text = front ++ d :: back ∧ encodeAll front = xs ∧ encodeAll back = ys := by
  intro text
  induction text with
  | nil =>
    intro xs ys h
    exact absurd h.symm (append_ne_nil_of_right_ne_nil xs (cons_ne_nil d ys))
  | cons c text ih =>
    intro xs ys h
    rw [encodeAll_cons] at h
    -- the byte is behind the first character, or it is that character
    obtain ⟨zs, hxs, htext⟩ | ⟨zs, hc, hys⟩ := append_eq_append_iff.mp h
    · obtain ⟨front, back, rfl, hfront, hback⟩ := ih htext
      refine ⟨c :: front, back, rfl, ?_, hback⟩
      rw [encodeAll_cons, hfront, hxs]
    · cases zs with
      | nil =>
        have hys' : encodeAll text = [] ++ d :: ys := hys.symm
        obtain ⟨front, back, rfl, hfront, hback⟩ := ih hys'
        refine ⟨c :: front, back, rfl, ?_, hback⟩
        rw [encodeAll_cons, hfront, hc, append_nil, append_nil]
      | cons z zs =>
        obtain ⟨rfl, hback⟩ := List.cons.inj hys
        have hmem : d ∈ encode c := by
          rw [hc]
          exact mem_append_right xs mem_cons_self
        obtain rfl := (mem_encode_iff hd).mp hmem
        rw [encode_ascii hd] at hc
        obtain rfl : xs = [] := by
          cases xs with
          | nil => rfl
          | cons x xs =>
            have hlength := congrArg List.length hc
            simp only [length_cons, length_append, length_nil] at hlength
            omega
        obtain ⟨-, hzs⟩ := List.cons.inj hc
        refine ⟨[], text, rfl, rfl, ?_⟩
        rw [hback, ← hzs]
        rfl

theorem encodeAll_eq_nil {text : List Char} (h : encodeAll text = []) : text = [] := by
  cases text with
  | nil => rfl
  | cons c text => exact absurd (append_eq_nil_iff.mp h).1 (encode_ne_nil c)

theorem encodeAll_eq_ascii_append {word : List Char} (hword : ∀ c ∈ word, c.toNat < 128) :
    ∀ {text ys : List Char}, encodeAll text = word ++ ys →
      ∃ back, text = word ++ back ∧ encodeAll back = ys := by
  induction word with
  | nil =>
    intro text ys h
    exact ⟨text, rfl, h⟩
  | cons c word ih =>
    intro text ys h
    obtain ⟨hc, hword⟩ := forall_mem_cons.mp hword
    have hfirst : encodeAll text = [] ++ c :: (word ++ ys) := h
    obtain ⟨front, back, rfl, hfront, hback⟩ := encodeAll_eq_append hc hfirst
    obtain rfl := encodeAll_eq_nil hfront
    obtain ⟨back', rfl, hback'⟩ := ih hword hback
    exact ⟨back', rfl, hback'⟩

end Zabbix.Utf8
