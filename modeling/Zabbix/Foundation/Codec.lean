import Mathlib.Data.List.Basic
import Mathlib.Data.List.TakeWhile

/-!
# Decoders of a stream

A decoder takes a value from the front of a stream and leaves the rest.
-/

namespace Zabbix.Codec

open List

variable {σ α β : Type} {d : StateT (List σ) Option α} {f : α → StateT (List σ) Option β}
  {block block' : List σ} {x : α} {y : β}

/-- `d` takes `block` from a stream and gives `x`. -/
def Decodes (d : StateT (List σ) Option α) (block : List σ) (x : α) : Prop :=
  ∀ rest, d.run (block ++ rest) = some (x, rest)

theorem Decodes.pure (x : α) : Decodes (Pure.pure x : StateT (List σ) Option α) [] x := fun _ => rfl

theorem Decodes.bind (h : Decodes d block x) (h' : Decodes (f x) block' y) :
    Decodes (d >>= f) (block ++ block') y := by
  intro rest
  rw [StateT.run_bind, append_assoc, h, Option.bind_eq_bind, Option.bind_some]
  exact h' rest

theorem Decodes.map (g : α → β) (h : Decodes d block x) : Decodes (g <$> d) block (g x) := by
  intro rest
  rw [StateT.run_map, h]
  rfl

def item : StateT (List σ) Option σ
  | [] => none
  | s :: rest => some (s, rest)

theorem item_decodes (s : σ) : Decodes item [s] s := fun _ => rfl

def take (n : ℕ) : StateT (List σ) Option (List σ) := fun stream =>
  if n ≤ stream.length then some (stream.take n, stream.drop n) else none

theorem take_decodes (block : List σ) : Decodes (take block.length) block block := by
  intro rest
  show (if block.length ≤ (block ++ rest).length then _ else none) = _
  rw [if_pos (by simp), take_left, drop_left]

theorem notMem_takeWhile [DecidableEq σ] (stop : σ) (stream : List σ) :
    stop ∉ stream.takeWhile (· ≠ stop) := by
  intro h
  have hne := mem_takeWhile_imp h
  simp at hne

def takeUntil [DecidableEq σ] (stop : σ) : StateT (List σ) Option { block : List σ // stop ∉ block } :=
  fun stream =>
    if stop ∈ stream then
      some (⟨stream.takeWhile (· ≠ stop), notMem_takeWhile stop stream⟩,
        (stream.dropWhile (· ≠ stop)).tail)
    else none

theorem takeUntil_decodes [DecidableEq σ] {stop : σ} (block : { block : List σ // stop ∉ block }) :
    Decodes (takeUntil stop) (block.1 ++ [stop]) block := by
  intro rest
  have hkeep : ∀ s ∈ block.1, decide (s ≠ stop) = true := by
    rintro s hs
    exact decide_eq_true fun heq => block.2 (heq ▸ hs)
  show (if stop ∈ block.1 ++ [stop] ++ rest then _ else none) = _
  have htaken : (block.1 ++ ([stop] ++ rest)).takeWhile (· ≠ stop) = block.1 := by
    rw [takeWhile_append_of_pos hkeep]
    simp
  have hleft : ((block.1 ++ ([stop] ++ rest)).dropWhile (· ≠ stop)).tail = rest := by
    rw [dropWhile_append_of_pos hkeep]
    simp
  rw [if_pos (by simp)]
  simp only [append_assoc, htaken, hleft]

def repeated (d : StateT (List σ) Option α) : ℕ → StateT (List σ) Option (List α)
  | 0 => Pure.pure []
  | n + 1 => do
    let x ← d
    let xs ← repeated d n
    return x :: xs

theorem repeated_decodes {blocks : List (List σ)} {xs : List α}
    (h : List.Forall₂ (Decodes d) blocks xs) :
    Decodes (repeated d xs.length) blocks.flatten xs := by
  induction h with
  | nil => exact .pure []
  | cons hd hrest ih =>
    rw [flatten_cons]
    refine hd.bind ?_
    rw [← append_nil (List.flatten _)]
    exact ih.bind (.pure _)

end Zabbix.Codec
