import Zabbix.Foundation.Memory
import Zabbix.Json.Limit

/-!
# The memory of the JSON builder

`struct zbx_json` in memory: its buffer is the array within the structure until a text does not fit
there, and allocated memory from then on. An access outside a buffer is undefined.
-/

namespace Zabbix.Json

open List Option Function

open Zabbix.Memory (overwrite move move_up_within overwrite_append overwrite_within)

inductive Place
  | null
  | bufStat (address : ℕ)
  | allocated (block : ℕ)
  deriving DecidableEq

structure JsonStruct where
  buffer : Place
  bufStat : List Char
  bufferAllocated : ℕ
  bufferOffset : ℕ
  bufferSize : ℕ
  status : JsonStatus
  level : ℕ

structure Heap where
  structs : ℕ → Option JsonStruct
  blocks : ℕ → Option (List Char)
  next : ℕ

structure Allocator where
  fresh : ℕ → ℕ → List Char
  length_fresh : ∀ block n, (fresh block n).length = n

def zbxJsonStatBufLen : ℕ := 4096

def Heap.memory (h : Heap) : Place → Option (List Char)
  | .null => none
  | .bufStat j => (h.structs j).map (·.bufStat)
  | .allocated block => h.blocks block

def Heap.setStruct (h : Heap) (j : ℕ) (x : JsonStruct) : Heap :=
  { h with structs := update h.structs j (some x) }

def Heap.setMemory (h : Heap) (memory : List Char) : Place → Heap
  | .null => h
  | .bufStat j =>
    { h with
      structs := update h.structs j
        ((h.structs j).map fun x => { x with bufStat := memory }) }
  | .allocated block => { h with blocks := update h.blocks block (some memory) }

def Heap.put (h : Heap) (j : ℕ) (x : JsonStruct) (memory : List Char) : Heap :=
  (h.setStruct j x).setMemory memory x.buffer

def Heap.allocate (h : Heap) (memory : List Char) : Heap :=
  { h with blocks := update h.blocks h.next (some memory), next := h.next + 1 }

def Heap.free (h : Heap) (block : ℕ) : Heap :=
  { h with blocks := update h.blocks block none }

section Functions

variable (al : Allocator)

/-- The loop of `__zbx_json_realloc`; a round at least doubles the size. -/
def growLoop (need : ℕ) : ℕ → ℕ → ℕ
  | 0, allocated => allocated
  | fuel + 1, allocated =>
    if need > allocated then growLoop need fuel (if allocated = 0 then 1024 else 2 * allocated)
    else allocated

def zbxJsonRealloc (h : Heap) (j need : ℕ) : Option Heap :=
  (h.structs j).bind fun x =>
    if x.buffer = .null then
      if need > zbxJsonStatBufLen then
        some ((h.allocate (al.fresh h.next need)).setStruct j
          { x with buffer := .allocated h.next, bufferAllocated := need })
      else some (h.setStruct j { x with buffer := .bufStat j, bufferAllocated := zbxJsonStatBufLen })
    else if need ≤ x.bufferAllocated then some h
    else
      let n := growLoop need need x.bufferAllocated
      let x' := { x with buffer := .allocated h.next, bufferAllocated := n }
      match x.buffer with
      | .allocated block =>
        (h.blocks block).map fun memory =>
          ((h.free block).allocate (memory.take n ++ (al.fresh h.next n).drop memory.length)).setStruct
            j x'
      | .bufStat k =>
        if k = j then
          (overwrite (al.fresh h.next n) 0 x.bufStat).map fun memory =>
            (h.allocate memory).setStruct j x'
        else none
      | .null => none

/-- What adding to the buffer has in common: the end is moved by `len`, `text` is written in front
of it, and the offset moves by `step`. -/
def insertText (h : Heap) (j len : ℕ) (text : List Char) (step : ℕ) (status : JsonStatus)
    (levels : ℕ) : Option Heap :=
  (h.structs j).bind fun x =>
    (zbxJsonRealloc al h j (x.bufferSize + len + 1)).bind fun h =>
      (h.structs j).bind fun x =>
        if x.bufferSize < x.bufferOffset then none
        else
          (((h.memory x.buffer).bind fun memory =>
            move memory (x.bufferOffset + len) x.bufferOffset
              (x.bufferSize - x.bufferOffset + 1)).bind fun memory =>
                overwrite memory x.bufferOffset text).map fun memory =>
                  h.put j
                    { x with
                      bufferOffset := x.bufferOffset + step
                      bufferSize := x.bufferSize + len
                      status := status
                      level := x.level + levels } memory

end Functions

variable {al : Allocator} {h h' : Heap} {j k n need : ℕ} {x x' y : JsonStruct}
  {memory memory' front rest : List Char} {z : ZbxJson} {g : Char}

structure At (h : Heap) (j : ℕ) (x : JsonStruct) (memory : List Char) : Prop where
  found : h.structs j = some x
  reads : h.memory x.buffer = some memory
  place : x.buffer = .bufStat j ∨ ∃ block < h.next, x.buffer = .allocated block
  bufStat : x.bufStat.length = zbxJsonStatBufLen
  allocated : memory.length = x.bufferAllocated

structure Beside (h : Heap) (j k : ℕ) (y : JsonStruct) (memory : List Char) : Prop where
  other : At h k y memory
  ne : k ≠ j
  apart : ∀ x, h.structs j = some x → x.buffer ≠ y.buffer

@[simp] theorem structs_setStruct (h : Heap) (j : ℕ) (x : JsonStruct) :
    (h.setStruct j x).structs j = some x :=
  update_self ..

@[simp] theorem structs_setMemory (h : Heap) (j : ℕ) (memory : List Char) :
    (h.setMemory memory (.bufStat j)).structs j =
      (h.structs j).map fun x => { x with bufStat := memory } :=
  update_self ..

theorem At.setStruct (hx : At h j x memory) (y : JsonStruct) (hbuffer : y.buffer = x.buffer)
    (hstat : y.bufStat = x.bufStat) (hallocated : y.bufferAllocated = x.bufferAllocated) :
    At (h.setStruct j y) j y memory where
  found := structs_setStruct h j y
  reads := by
    rw [← hx.reads, hbuffer]
    obtain hplace | ⟨block, -, hplace⟩ := hx.place
    · rw [hplace, Heap.memory, Heap.memory, hx.found, structs_setStruct, map_some, map_some, hstat]
    · rw [hplace]
      rfl
  place := by
    rw [hbuffer]
    exact hx.place
  bufStat := by
    rw [hstat]
    exact hx.bufStat
  allocated := by
    rw [hallocated]
    exact hx.allocated

theorem Beside.setStruct (hy : Beside h j k y memory) (hx : h.structs j = some x)
    (hbuffer : x'.buffer = x.buffer) : Beside (h.setStruct j x') j k y memory := by
  have hstructs : (h.setStruct j x').structs k = h.structs k := update_of_ne hy.ne ..
  refine ⟨⟨hstructs.trans hy.other.found, ?_, hy.other.place, hy.other.bufStat,
    hy.other.allocated⟩, hy.ne, ?_⟩
  · rw [← hy.other.reads]
    obtain hplace | ⟨block, -, hplace⟩ := hy.other.place
    · rw [hplace, Heap.memory, Heap.memory, hstructs]
    · rw [hplace]
      rfl
  · intro x'' hx''
    rw [structs_setStruct, some_inj] at hx''
    rw [← hx'', hbuffer]
    exact hy.apart x hx

theorem At.setMemory (hx : At h j x memory) (hlength : memory'.length = memory.length) :
    ∃ bufStat, At (h.setMemory memory' x.buffer) j { x with bufStat := bufStat } memory' := by
  have hallocated : memory'.length = x.bufferAllocated := hlength.trans hx.allocated
  obtain hplace | ⟨block, hblock, hplace⟩ := hx.place
  · have hreads : some x.bufStat = some memory := by
      rw [← hx.reads, hplace, Heap.memory, hx.found]
      rfl
    have hstat : memory'.length = zbxJsonStatBufLen := by
      rw [hlength, ← some_inj.mp hreads, hx.bufStat]
    have hfound : (h.setMemory memory' x.buffer).structs j = some { x with bufStat := memory' } := by
      rw [hplace, structs_setMemory, hx.found, ← hplace]
      rfl
    refine ⟨memory', hfound, ?_, .inl hplace, hstat, hallocated⟩
    change (h.setMemory memory' x.buffer).memory x.buffer = some memory'
    nth_rewrite 2 [hplace]
    rw [Heap.memory, hfound]
    rfl
  · have hset : h.setMemory memory' x.buffer =
        { h with blocks := update h.blocks block (some memory') } := by
      rw [hplace]
      rfl
    rw [hset]
    refine ⟨x.bufStat, hx.found, ?_, .inr ⟨block, hblock, hplace⟩, hx.bufStat, hallocated⟩
    change Heap.memory _ x.buffer = some memory'
    rw [hplace]
    exact update_self ..

theorem Beside.setMemory (hy : Beside h j k y memory) (hx : At h j x rest) :
    Beside (h.setMemory memory' x.buffer) j k y memory := by
  have hapart := hy.apart x hx.found
  obtain hplace | ⟨block, hblock, hplace⟩ := hx.place
  · rw [hplace]
    have hstructs : (h.setMemory memory' (.bufStat j)).structs k = h.structs k :=
      update_of_ne hy.ne ..
    refine ⟨⟨hstructs.trans hy.other.found, ?_, hy.other.place, hy.other.bufStat,
      hy.other.allocated⟩, hy.ne, ?_⟩
    · rw [← hy.other.reads]
      obtain hyplace | ⟨block, -, hyplace⟩ := hy.other.place
      · rw [hyplace, Heap.memory, Heap.memory, hstructs]
      · rw [hyplace]
        rfl
    · intro x'' hx''
      rw [structs_setMemory, hx.found, map_some, some_inj] at hx''
      rw [← hx'']
      exact hapart
  · rw [hplace]
    refine ⟨⟨hy.other.found, ?_, hy.other.place, hy.other.bufStat, hy.other.allocated⟩, hy.ne,
      hy.apart⟩
    rw [← hy.other.reads]
    obtain hyplace | ⟨block', -, hyplace⟩ := hy.other.place
    · rw [hyplace]
      rfl
    · have hne : block' ≠ block := by
        intro hsame
        apply hapart
        rw [hplace, hyplace, hsame]
      rw [hyplace]
      exact update_of_ne hne ..

theorem at_allocate (hbuffer : x'.buffer = .allocated h.next)
    (hstat : x'.bufStat.length = zbxJsonStatBufLen)
    (hlength : memory'.length = x'.bufferAllocated) :
    At ((h.allocate memory').setStruct j x') j x' memory' where
  found := by simp only [Heap.setStruct, update_self]
  reads := by
    rw [hbuffer]
    simp only [Heap.memory, Heap.setStruct, Heap.allocate, update_self]
  place := .inr ⟨h.next, Nat.lt_succ_self _, hbuffer⟩
  bufStat := hstat
  allocated := hlength

theorem Beside.allocate (hy : Beside h j k y memory) (hbuffer : x'.buffer = .allocated h.next) :
    Beside ((h.allocate memory').setStruct j x') j k y memory := by
  have hstructs : ((h.allocate memory').setStruct j x').structs k = h.structs k := by
    simp only [Heap.setStruct, Heap.allocate, update_of_ne hy.ne]
  refine ⟨⟨hstructs.trans hy.other.found, ?_, ?_, hy.other.bufStat, hy.other.allocated⟩, hy.ne, ?_⟩
  · rw [← hy.other.reads]
    obtain hplace | ⟨block, hblock, hplace⟩ := hy.other.place
    · rw [hplace, Heap.memory, Heap.memory, hstructs]
    · rw [hplace]
      simp only [Heap.memory, Heap.setStruct, Heap.allocate, update_of_ne (Nat.ne_of_lt hblock)]
  · obtain hplace | ⟨block, hblock, hplace⟩ := hy.other.place
    · exact .inl hplace
    · exact .inr ⟨block, Nat.lt_succ_of_lt hblock, hplace⟩
  · intro x'' hx''
    simp only [Heap.setStruct, update_self, some_inj] at hx''
    rw [← hx'', hbuffer]
    obtain hplace | ⟨block, hblock, hplace⟩ := hy.other.place
    · rw [hplace]
      exact fun h => nomatch h
    · rw [hplace]
      intro heq
      exact absurd (Place.allocated.inj heq) (Nat.ne_of_gt hblock)

theorem Beside.free {block : ℕ} (hy : Beside h j k y memory) (hx : h.structs j = some x)
    (hplace : x.buffer = .allocated block) : Beside (h.free block) j k y memory := by
  refine ⟨⟨hy.other.found, ?_, hy.other.place, hy.other.bufStat, hy.other.allocated⟩, hy.ne,
    hy.apart⟩
  rw [← hy.other.reads]
  obtain hyplace | ⟨block', -, hyplace⟩ := hy.other.place
  · rw [hyplace]
    rfl
  · have hne : block' ≠ block := by
      rintro rfl
      exact hy.apart x hx (hplace.trans hyplace.symm)
    rw [hyplace]
    simp only [Heap.memory, Heap.free, update_of_ne hne]

structure OnlyAt (j : ℕ) (h h' : Heap) : Prop where
  structs : ∀ k, k ≠ j → h'.structs k = h.structs k
  beside : ∀ k y memory, Beside h j k y memory → Beside h' j k y memory

theorem OnlyAt.refl (j : ℕ) (h : Heap) : OnlyAt j h h := ⟨fun _ _ => rfl, fun _ _ _ hy => hy⟩

theorem OnlyAt.trans {h'' : Heap} (hab : OnlyAt j h h') (hbc : OnlyAt j h' h'') : OnlyAt j h h'' where
  structs := by
    intro k hk
    rw [hbc.structs k hk, hab.structs k hk]
  beside := by
    intro k y memory hy
    exact hbc.beside k y memory (hab.beside k y memory hy)

theorem At.onlyAt_setStruct (hx : At h j x memory) (y : JsonStruct) (hbuffer : y.buffer = x.buffer) :
    OnlyAt j h (h.setStruct j y) where
  structs _ hk := update_of_ne hk ..
  beside _ _ _ hy := hy.setStruct hx.found hbuffer

theorem At.onlyAt_setMemory (hx : At h j x memory) (memory' : List Char) :
    OnlyAt j h (h.setMemory memory' x.buffer) where
  structs k hk := by
    obtain hplace | ⟨block, -, hplace⟩ := hx.place
    · rw [hplace]
      exact update_of_ne hk ..
    · rw [hplace]
      rfl
  beside _ _ _ hy := hy.setMemory hx

theorem onlyAt_allocate (hbuffer : x'.buffer = .allocated h.next) (memory' : List Char) :
    OnlyAt j h ((h.allocate memory').setStruct j x') where
  structs _ hk := update_of_ne hk ..
  beside _ _ _ hy := hy.allocate hbuffer

theorem le_growLoop (need fuel n : ℕ) : n ≤ growLoop need fuel n := by
  induction fuel generalizing n with
  | zero => exact Nat.le_refl n
  | succ fuel ih =>
    rw [growLoop]
    split
    · split
      · next hzero =>
        rw [hzero]
        exact Nat.zero_le _
      · exact (by omega : n ≤ 2 * n).trans (ih (2 * n))
    · exact Nat.le_refl n

theorem need_le_growLoop {fuel : ℕ} (hfuel : need ≤ n + fuel) : need ≤ growLoop need fuel n := by
  induction fuel generalizing n with
  | zero => exact hfuel
  | succ fuel ih =>
    rw [growLoop]
    split
    · apply ih
      split
      · omega
      · omega
    · omega

theorem zbxJsonRealloc_at (hx : At h j x memory) (al : Allocator) (need : ℕ) :
    ∃ h' x' rest, zbxJsonRealloc al h j need = some h' ∧ At h' j x' (memory ++ rest) ∧
      need ≤ (memory ++ rest).length ∧ x'.bufferOffset = x.bufferOffset ∧
      x'.bufferSize = x.bufferSize ∧ x'.status = x.status ∧ x'.level = x.level ∧
      OnlyAt j h h' := by
  have hnull : x.buffer ≠ .null := by
    obtain hplace | ⟨block, -, hplace⟩ := hx.place
    · rw [hplace]
      exact fun h => nomatch h
    · rw [hplace]
      exact fun h => nomatch h
  rw [zbxJsonRealloc, hx.found, bind_some, if_neg hnull]
  by_cases hneed : need ≤ x.bufferAllocated
  · rw [if_pos hneed]
    refine ⟨h, x, [], rfl, ?_, ?_, rfl, rfl, rfl, rfl, .refl j h⟩
    · rw [append_nil]
      exact hx
    · rw [append_nil, hx.allocated]
      exact hneed
  · rw [if_neg hneed]
    have hgrow : x.bufferAllocated ≤ growLoop need need x.bufferAllocated := le_growLoop _ _ _
    have henough : need ≤ growLoop need need x.bufferAllocated :=
      need_le_growLoop (Nat.le_add_left _ _)
    have hfresh := al.length_fresh h.next (growLoop need need x.bufferAllocated)
    have hlength : (memory ++ (al.fresh h.next (growLoop need need x.bufferAllocated)).drop
        memory.length).length = growLoop need need x.bufferAllocated := by
      rw [length_append, length_drop, hfresh, hx.allocated]
      omega
    obtain hplace | ⟨block, hblock, hplace⟩ := hx.place
    · have hreads : some x.bufStat = some memory := by
        rw [← hx.reads, hplace, Heap.memory, hx.found]
        rfl
      have hsame := some_inj.mp hreads
      have hcopy : overwrite (al.fresh h.next (growLoop need need x.bufferAllocated)) 0 x.bufStat =
          some (memory ++ (al.fresh h.next (growLoop need need x.bufferAllocated)).drop
            memory.length) := by
        rw [hsame]
        apply overwrite_within (a := []) rfl
        rw [hfresh, hx.allocated]
        exact hgrow
      simp only [hplace, if_true, hcopy, map_some]
      refine ⟨_, _, _, rfl, at_allocate rfl hx.bufStat hlength, ?_, rfl, rfl, rfl, rfl,
        onlyAt_allocate rfl _⟩
      rw [hlength]
      exact henough
    · have hreads : h.blocks block = some memory := by
        rw [← hx.reads, hplace]
        rfl
      have htake : memory.take (growLoop need need x.bufferAllocated) = memory := by
        apply take_of_length_le
        rw [hx.allocated]
        exact hgrow
      simp only [hplace, hreads, map_some, htake]
      have hfree : OnlyAt j h (h.free block) :=
        ⟨fun _ _ => rfl, fun k y n hy => hy.free hx.found hplace⟩
      refine ⟨_, _, _, rfl, at_allocate rfl hx.bufStat hlength, ?_, rfl, rfl, rfl, rfl,
        hfree.trans (onlyAt_allocate rfl _)⟩
      rw [hlength]
      exact henough

theorem zbxJsonRealloc_null (hx : h.structs j = some x) (hnull : x.buffer = .null)
    (hstat : x.bufStat.length = zbxJsonStatBufLen) (al : Allocator) (need : ℕ) :
    ∃ h' x' memory, zbxJsonRealloc al h j need = some h' ∧ At h' j x' memory ∧
      need ≤ memory.length ∧ 0 < memory.length ∧ x'.bufferOffset = x.bufferOffset ∧
      x'.bufferSize = x.bufferSize ∧ x'.status = x.status ∧ x'.level = x.level ∧
      ∀ k, k ≠ j → h'.structs k = h.structs k := by
  rw [zbxJsonRealloc, hx, bind_some, if_pos hnull]
  by_cases hneed : need > zbxJsonStatBufLen
  · rw [if_pos hneed]
    have hfresh := al.length_fresh h.next need
    refine ⟨_, _, _, rfl, at_allocate rfl hstat hfresh, ?_, ?_, rfl, rfl, rfl, rfl,
      fun _ hk => update_of_ne hk ..⟩
    · exact hfresh.ge
    · rw [hfresh]
      exact Nat.zero_lt_of_lt hneed
  · rw [if_neg hneed]
    refine ⟨_, _, x.bufStat, rfl, ⟨structs_setStruct .., ?_, .inl rfl, hstat, hstat⟩, ?_, ?_, rfl, rfl,
      rfl, rfl, fun _ hk => update_of_ne hk ..⟩
    · rw [Heap.memory, structs_setStruct]
      rfl
    · rw [hstat]
      exact Nat.le_of_not_lt hneed
    · rw [hstat]
      decide

/-- The structure and its memory stand for the builder `z`; behind the text stands `g`. -/
structure Represents (h : Heap) (j : ℕ) (z : ZbxJson) (g : Char) (x : JsonStruct)
    (memory : List Char) : Prop where
  place : At h j x memory
  text : ∃ rest, memory = z.buffer ++ g :: rest
  offset : x.bufferOffset = z.bufferOffset
  size : x.bufferSize = z.buffer.length
  status : x.status = z.status
  level : x.level = z.level

def Holding (h : Heap) (j : ℕ) (z : ZbxJson) (g : Char) : Prop :=
  ∃ x memory, Represents h j z g x memory

theorem Represents.insertText (hx : Represents h j z g x memory)
    (hz : z.bufferOffset ≤ z.buffer.length) (al : Allocator) (text : List Char) (step : ℕ)
    (status : JsonStatus) (levels : ℕ) :
    ∃ h', insertText al h j text.length text step status levels = some h' ∧
      Holding h' j (z.insert text step status levels) g ∧ OnlyAt j h h' := by
  obtain ⟨h₁, x₁, spare, hrealloc, hat, hlarge, hoffset, hsize, hstatus, hlevel, honly⟩ :=
    zbxJsonRealloc_at hx.place al (x.bufferSize + text.length + 1)
  obtain ⟨rest, htext⟩ := hx.text
  rw [hx.offset] at hoffset
  rw [hx.size] at hsize
  have hfront : (z.buffer.take z.bufferOffset).length = z.bufferOffset := by
    rw [length_take, Nat.min_eq_left hz]
  have hsplit : z.buffer.take z.bufferOffset ++ z.buffer.drop z.bufferOffset = z.buffer :=
    take_append_drop _ _
  have hend : (z.buffer.drop z.bufferOffset ++ [g]).length =
      z.buffer.length - z.bufferOffset + 1 := by
    rw [length_append, length_drop, length_singleton]
  -- the memory behind the text has room for what goes in
  have hroom : text.length ≤ (rest ++ spare).length := by
    rw [htext, hx.size] at hlarge
    simp only [length_append, length_cons] at hlarge ⊢
    omega
  have hgap : ((rest ++ spare).take text.length).length = text.length := by
    rw [length_take, Nat.min_eq_left hroom]
  have hmemory : memory ++ spare = z.buffer.take z.bufferOffset ++
      (z.buffer.drop z.bufferOffset ++ [g]) ++ (rest ++ spare).take text.length ++
        (rest ++ spare).drop text.length := by
    rw [htext, append_assoc _ ((rest ++ spare).take text.length), take_append_drop,
      ← append_assoc (z.buffer.take z.bufferOffset), hsplit]
    simp only [append_assoc, cons_append, nil_append]
  obtain ⟨moved, hmove, hmoved⟩ : ∃ moved,
      move (memory ++ spare) (z.bufferOffset + text.length) z.bufferOffset
        (z.buffer.length - z.bufferOffset + 1) =
          some (z.buffer.take z.bufferOffset ++ moved ++ (z.buffer.drop z.bufferOffset ++ [g]) ++
            (rest ++ spare).drop text.length) ∧
        moved.length = ((rest ++ spare).take text.length).length := by
    rw [hmemory]
    apply move_up_within
    · rw [hfront, hgap]
    · exact hfront.symm
    · exact hend.symm
  have hwrite : overwrite (z.buffer.take z.bufferOffset ++ moved ++
      (z.buffer.drop z.bufferOffset ++ [g]) ++ (rest ++ spare).drop text.length) z.bufferOffset
        text = some (z.buffer.take z.bufferOffset ++ text ++
          ((z.buffer.drop z.bufferOffset ++ [g]) ++ (rest ++ spare).drop text.length)) := by
    rw [append_assoc (z.buffer.take z.bufferOffset ++ moved)]
    apply overwrite_append hfront.symm
    rw [hmoved, hgap]
  have hwritten : (z.buffer.take z.bufferOffset ++ text ++
      ((z.buffer.drop z.bufferOffset ++ [g]) ++ (rest ++ spare).drop text.length)).length =
        (memory ++ spare).length := by
    rw [hmemory]
    simp only [length_append, hgap]
    omega
  have hset := hat.setStruct
    { x₁ with
      bufferOffset := x₁.bufferOffset + step
      bufferSize := x₁.bufferSize + text.length
      status := status
      level := x₁.level + levels } rfl rfl rfl
  obtain ⟨bufStat, hput⟩ := hset.setMemory hwritten
  have hwithin : ¬ x₁.bufferSize < x₁.bufferOffset := by
    rw [hoffset, hsize]
    exact Nat.not_lt.mpr hz
  have hafter := (honly.trans (hat.onlyAt_setStruct
    { x₁ with
      bufferOffset := x₁.bufferOffset + step
      bufferSize := x₁.bufferSize + text.length
      status := status
      level := x₁.level + levels } rfl)).trans (hset.onlyAt_setMemory (z.buffer.take z.bufferOffset ++
        text ++ ((z.buffer.drop z.bufferOffset ++ [g]) ++ (rest ++ spare).drop text.length)))
  refine ⟨_, ?_, ⟨_, _, hput, ?_, ?_, ?_, rfl, ?_⟩, hafter⟩
  · rw [Json.insertText, hx.place.found, bind_some, hrealloc, bind_some, hat.found,
      bind_some, if_neg hwithin, hat.reads, bind_some, hoffset, hsize, hmove,
      bind_some, hwrite, map_some]
    rfl
  · refine ⟨(rest ++ spare).drop text.length, ?_⟩
    simp only [ZbxJson.insert, append_assoc, cons_append, nil_append]
  · change x₁.bufferOffset + step = z.bufferOffset + step
    rw [hoffset]
  · change x₁.bufferSize + text.length = _
    rw [hsize, ZbxJson.insert, length_append, length_append, hfront, length_drop]
    omega
  · change x₁.level + levels = z.level + levels
    rw [hlevel, hx.level]

end Zabbix.Json
