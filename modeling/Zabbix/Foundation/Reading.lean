import Mathlib.Computability.Language
import Mathlib.Data.List.TakeWhile

/-!
# Reading words of a language off a text

A scanner goes from a place in a text to a place behind it. It reads a word of a language when
what lies between the two places is such a word.
-/

namespace Zabbix

open List Computability

variable {α : Type*} {L M : Language α} {a b c : List α}

def Reads (L : Language α) (a b : List α) : Prop := ∃ w ∈ L, w ++ b = a

namespace Reads

theorem refl (a : List α) : Reads 1 a a := ⟨[], rfl, rfl⟩

theorem mul (h : Reads L a b) (h' : Reads M b c) : Reads (L * M) a c := by
  obtain ⟨w, hw, rfl⟩ := h
  obtain ⟨v, hv, rfl⟩ := h'
  exact ⟨w ++ v, Language.append_mem_mul hw hv, append_assoc w v c⟩

theorem mono (hle : ∀ w ∈ L, w ∈ M) (h : Reads L a b) : Reads M a b := by
  obtain ⟨w, hw, rfl⟩ := h
  exact ⟨w, hle w hw, rfl⟩

theorem add_left (h : Reads L a b) : Reads (L + M) a b := h.mono fun _ hw => .inl hw

theorem add_right (h : Reads M a b) : Reads (L + M) a b := h.mono fun _ hw => .inr hw

theorem kstar_nil (L : Language α) (a : List α) : Reads L∗ a a :=
  ⟨[], Language.nil_mem_kstar L, rfl⟩

theorem kstar_cons (h : Reads L a b) (h' : Reads L∗ b c) : Reads L∗ a c := by
  rw [← Language.one_add_self_mul_kstar_eq_kstar]
  exact (h.mul h').add_right

theorem length_le (h : Reads L a b) : b.length ≤ a.length := by
  obtain ⟨w, -, rfl⟩ := h
  simp

theorem drop_sub (h : Reads L a b) : a.drop (a.length - b.length) = b := by
  obtain ⟨w, -, rfl⟩ := h
  simp

end Reads

def oneOf (p : α → Bool) : Language α := {w | ∃ c, p c ∧ w = [c]}

def single (c : α) : Language α := {[c]}

theorem reads_single (c : α) (a : List α) : Reads (single c) (c :: a) a := ⟨[c], rfl, rfl⟩

variable {p : α → Bool}

theorem reads_oneOf {c : α} (hc : p c) (a : List α) : Reads (oneOf p) (c :: a) a :=
  ⟨[c], ⟨c, hc, rfl⟩, rfl⟩

variable {w : List α}

theorem mem_kstar_oneOf : w ∈ (oneOf p)∗ ↔ ∀ c ∈ w, p c := by
  constructor
  · intro hw
    obtain ⟨parts, rfl, hparts⟩ := Language.mem_kstar.mp hw
    intro c hc
    obtain ⟨part, hpart, hcpart⟩ := mem_flatten.mp hc
    obtain ⟨d, hd, rfl⟩ := hparts part hpart
    rwa [mem_singleton.mp hcpart]
  · intro hw
    refine Language.mem_kstar.mpr ⟨w.map fun c => [c], ?_, ?_⟩
    · rw [← flatMap_def, flatMap_singleton']
    · intro part hpart
      obtain ⟨c, hc, rfl⟩ := mem_map.mp hpart
      exact ⟨c, hw c hc, rfl⟩

theorem reads_dropWhile (p : α → Bool) (a : List α) : Reads (oneOf p)∗ a (a.dropWhile p) := by
  refine ⟨a.takeWhile p, mem_kstar_oneOf.mpr ?_, takeWhile_append_dropWhile⟩
  intro c hc
  exact mem_takeWhile_imp hc

theorem dropWhile_append_of_mem {rest : List α} (hw : w ∈ (oneOf p)∗)
    (hrest : ∀ c ∈ rest.head?, p c = false) : (w ++ rest).dropWhile p = rest := by
  rw [dropWhile_append_of_pos (mem_kstar_oneOf.mp hw)]
  cases rest with
  | nil => rfl
  | cons c rest => exact dropWhile_cons_of_neg (by simp [hrest c rfl])

def separated (sep : α) (item : Language α) : Language α := item * (single sep * item)∗

variable {sep : α}

theorem mem_separated_of_mem (hw : w ∈ L) : w ∈ separated sep L :=
  ⟨w, hw, [], Language.nil_mem_kstar _, append_nil w⟩

theorem append_mem_separated {v : List α} (hw : w ∈ L) (hv : v ∈ separated sep L) :
    w ++ sep :: v ∈ separated sep L := by
  obtain ⟨u, hu, happend⟩ : Reads (separated sep L) (w ++ sep :: v) [] := by
    refine Reads.mul ⟨w, hw, rfl⟩ ?_
    rw [← Language.one_add_self_mul_kstar_eq_kstar, mul_assoc]
    exact ((reads_single sep v).mul ⟨v, hv, append_nil v⟩).add_right
  rwa [← happend, append_nil]

theorem reads_separated_last (h : Reads L a b) : Reads (separated sep L) a b := by
  obtain ⟨w, hw, rfl⟩ := h
  exact ⟨w, mem_separated_of_mem hw, rfl⟩

theorem reads_separated_cons (h : Reads L a (sep :: b)) (h' : Reads (separated sep L) b c) :
    Reads (separated sep L) a c := by
  obtain ⟨w, hw, rfl⟩ := h
  obtain ⟨v, hv, rfl⟩ := h'
  exact ⟨w ++ sep :: v, append_mem_separated hw hv, by simp⟩

theorem separated_induction {P : List α → Prop} (hlast : ∀ w ∈ L, P w)
    (hcons : ∀ w ∈ L, ∀ v ∈ separated sep L, P v → P (w ++ sep :: v)) (hw : w ∈ separated sep L) :
    P w := by
  obtain ⟨first, hfirst, others, hothers, rfl⟩ := hw
  obtain ⟨parts, rfl, hparts⟩ := Language.mem_kstar.mp hothers
  clear hothers
  induction parts generalizing first with
  | nil => simpa using hlast first hfirst
  | cons part parts ih =>
    obtain ⟨_, rfl, second, hsecond, rfl⟩ := hparts part mem_cons_self
    have htail := fun x hx => hparts x (mem_cons_of_mem _ hx)
    have hmem : second ++ parts.flatten ∈ separated sep L :=
      Language.append_mem_mul hsecond (Language.join_mem_kstar htail)
    exact hcons first hfirst _ hmem (ih second hsecond htail)

end Zabbix
