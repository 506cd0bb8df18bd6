import Mathlib.Data.List.Basic

/-!
# Blocks of memory

A list is read as memory. A block is read or written at an offset; both are undefined where the block
does not lie within the memory.
-/

namespace Zabbix.Memory

open List

variable {α : Type*} {memory a b c d : List α} {offset n : ℕ}

def block (memory : List α) (offset n : ℕ) : Option (List α) :=
  if offset + n ≤ memory.length then some ((memory.drop offset).take n) else none

def overwrite (memory : List α) (offset : ℕ) (d : List α) : Option (List α) :=
  if offset + d.length ≤ memory.length then
    some (memory.take offset ++ d ++ memory.drop (offset + d.length))
  else none

def move (memory : List α) (target offset n : ℕ) : Option (List α) :=
  (block memory offset n).bind (overwrite memory target)

/-- A memory of another size that starts with what there was; new places hold `fresh`. -/
def resize (fresh : α) (memory : List α) (n : ℕ) : List α :=
  memory.take n ++ replicate (n - memory.length) fresh

theorem block_append (hoffset : offset = a.length) (hn : n = b.length) :
    block (a ++ b ++ c) offset n = some b := by
  rw [block, if_pos (by simp [hoffset, hn]), hoffset, hn, append_assoc, drop_left, take_left]

theorem overwrite_append (hoffset : offset = a.length) (hlength : d.length = b.length) :
    overwrite (a ++ b ++ c) offset d = some (a ++ d ++ c) := by
  have hdrop : (a ++ b ++ c).drop (a.length + d.length) = c := by
    rw [hlength, ← length_append, drop_left]
  have htake : (a ++ b ++ c).take a.length = a := by rw [append_assoc, take_left]
  rw [overwrite, if_pos (by simp [hoffset, hlength]), hoffset, hdrop, htake]

theorem length_overwrite (h : overwrite memory offset d = some a) : a.length = memory.length := by
  rw [overwrite] at h
  split at h
  · next hwithin =>
    rw [← Option.some_inj.mp h]
    simp only [length_append, length_take, length_drop]
    omega
  · cases h

theorem overwrite_within (hoffset : offset = a.length) (hlength : d.length ≤ b.length) :
    overwrite (a ++ b) offset d = some (a ++ d ++ b.drop d.length) := by
  have hwritten : overwrite (a ++ b.take d.length ++ b.drop d.length) offset d =
      some (a ++ d ++ b.drop d.length) := by
    apply overwrite_append hoffset
    rw [length_take, Nat.min_eq_left hlength]
  rwa [append_assoc, take_append_drop] at hwritten

theorem overwrite_one (x y : α) (hoffset : offset = a.length) :
    overwrite (a ++ x :: c) offset [y] = some (a ++ y :: c) := by
  have hwritten : overwrite (a ++ [x] ++ c) offset [y] = some (a ++ [y] ++ c) := by
    apply overwrite_append hoffset
    rfl
  simpa using hwritten

variable (fresh : α)

theorem resize_of_le (h : memory.length ≤ n) :
    resize fresh memory n = memory ++ replicate (n - memory.length) fresh := by
  rw [resize, take_of_length_le h]

theorem resize_append (hn : n = a.length) : resize fresh (a ++ b) n = a := by
  rw [resize, hn, take_left]
  simp

theorem resize_keeps (a b : List α) (n : ℕ) :
    ∃ rest, resize fresh (a ++ b) (a.length + n) = a ++ rest ∧ rest.length = n := by
  refine ⟨b.take n ++ replicate (n - b.length) fresh, ?_, ?_⟩
  · rw [resize, take_length_add_append, length_append, Nat.add_sub_add_left, append_assoc]
  · rw [length_append, length_take, length_replicate]
    omega

theorem length_resize (memory : List α) (n : ℕ) : (resize fresh memory n).length = n := by
  rw [resize, length_append, length_take, length_replicate]
  omega

theorem move_down {gap : List α} {target : ℕ} (htarget : target = a.length)
    (hoffset : offset = a.length + gap.length) (hn : n = b.length) :
    ∃ rest, move (a ++ gap ++ b ++ c) target offset n = some (a ++ b ++ rest) ∧
      rest.length = gap.length + c.length := by
  have hblock : block (a ++ gap ++ b ++ c) offset n = some b :=
    block_append (by rw [hoffset, length_append]) hn
  have hsplit : a ++ gap ++ b ++ c =
      a ++ (gap ++ b).take b.length ++ ((gap ++ b).drop b.length ++ c) := by
    calc a ++ gap ++ b ++ c
        = a ++ (gap ++ b) ++ c := by rw [append_assoc a gap b]
      _ = a ++ ((gap ++ b).take b.length ++ (gap ++ b).drop b.length) ++ c := by
          rw [take_append_drop]
      _ = a ++ (gap ++ b).take b.length ++ ((gap ++ b).drop b.length ++ c) := by
          simp only [append_assoc]
  refine ⟨(gap ++ b).drop b.length ++ c, ?_, ?_⟩
  · rw [move, hblock, Option.bind_some, hsplit]
    apply overwrite_append htarget
    simp
  · simp

theorem move_up_within {gap : List α} {target : ℕ} (htarget : target = a.length + gap.length)
    (hoffset : offset = a.length) (hn : n = b.length) :
    ∃ rest, move (a ++ b ++ gap ++ c) target offset n = some (a ++ rest ++ b ++ c) ∧
      rest.length = gap.length := by
  have hblock : block (a ++ b ++ gap ++ c) offset n = some b := by
    rw [append_assoc (a ++ b)]
    exact block_append hoffset hn
  have hsplit : a ++ b ++ gap ++ c =
      a ++ (b ++ gap).take gap.length ++ (b ++ gap).drop gap.length ++ c := by
    rw [append_assoc a ((b ++ gap).take gap.length), take_append_drop, append_assoc a]
  refine ⟨(b ++ gap).take gap.length, ?_, by simp⟩
  rw [move, hblock, Option.bind_some, hsplit]
  apply overwrite_append
  · simp [htarget]
  · simp

theorem move_up {gap : List α} {target : ℕ} (htarget : target = a.length + gap.length)
    (hoffset : offset = a.length) (hn : n = b.length) :
    ∃ rest, move (a ++ b ++ gap) target offset n = some (a ++ rest ++ b) ∧
      rest.length = gap.length := by
  obtain ⟨rest, hmove, hlength⟩ := move_up_within (c := []) htarget hoffset hn
  rw [append_nil, append_nil] at hmove
  exact ⟨rest, hmove, hlength⟩

end Zabbix.Memory
