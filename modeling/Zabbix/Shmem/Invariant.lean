import Zabbix.Foundation.Transition
import Zabbix.Shmem.Realloc

/-!
# Runs of a pool

A pool and the blocks its user holds.
-/

namespace Zabbix.Shmem

open List Function Zabbix.Transition

structure Block where
  ptr : ℕ
  size : ℕ
  deriving DecidableEq

structure State where
  pool : Info
  live : List Block

inductive Event
  | malloc (size : ℕ)
  | realloc (block : Block) (size : ℕ)
  | free (block : Block)
  /-- The word of the byte at `offset` changes. -/
  | store (block : Block) (offset value : ℕ)

/-- `zbx_shmem_malloc`, `zbx_shmem_realloc`, `zbx_shmem_free`. A request that cannot be met leaves
the blocks; one of a bad size ends the process. -/
def step (s : State) : Event → Option State
  | .malloc size =>
    if 0 < size ∧ size ≤ shmemMaxSize then
      let (chunk, pool) := memMalloc s.pool size
      if chunk = 0 then some { s with pool }
      else some ⟨pool, ⟨chunk + shmemSizeField, size⟩ :: s.live⟩
    else none
  | .realloc block size =>
    if block ∈ s.live ∧ 0 < size ∧ size ≤ shmemMaxSize then
      (memRealloc s.pool block.ptr size).map fun (chunk, pool) =>
        if chunk = 0 then { s with pool }
        else ⟨pool, ⟨chunk + shmemSizeField, size⟩ :: s.live.erase block⟩
    else none
  | .free block =>
    if block ∈ s.live then some ⟨memFree s.pool block.ptr, s.live.erase block⟩ else none
  | .store block offset value =>
    if block ∈ s.live ∧ offset < block.size then
      some { s with pool := s.pool.write (block.ptr + offset / 8 * 8) value }
    else none

structure Formed (info : Info) (chunks : List Chunk) (lists : ℕ → List ℕ) : Prop where
  tiles : Tiles info.loBound chunks info.hiBound
  fields : ∀ c ∈ chunks, c.kind ≠ .held ∧
    info.mem c.addr = c.word ∧ info.mem (c.addr + 8 + c.size) = c.word
  separate : chunks.IsChain fun c d => ¬(c.kind = .free ∧ d.kind = .free)
  heads : ∀ i, info.buckets i = (lists i).headD 0
  linked : ∀ i, DoublyLinked.Linked 8 16 info.mem 0 (lists i) 0
  nodup : ∀ i, (lists i).Nodup
  member : ∀ i p, p ∈ lists i ↔ FreeAt chunks i p
  total : info.usedSize + info.freeSize + 16 * chunks.length = info.totalSize + 16

structure WellFormed (s : State) : Prop where
  pool : ∃ chunks lists, Formed s.pool chunks lists
  live : s.live.Pairwise fun b d => b.ptr + b.size ≤ d.ptr ∨ d.ptr + d.size ≤ b.ptr

structure Owned (chunks : List Chunk) (live : List Block) : Prop where
  chunk : ∀ b ∈ live, ∃ c ∈ chunks, c.kind = .used ∧ c.addr + 8 = b.ptr ∧ b.size ≤ c.size
  ptrs : (live.map Block.ptr).Nodup

def Invariant (s : State) : Prop :=
  ∃ chunks lists, Tidy s.pool chunks lists ∧ Owned chunks s.live

variable {info info' : Info} {chunks : List Chunk} {lists : ℕ → List ℕ} {c d : Chunk}
  {live rest : List Block} {b : Block} {s t : State}

variable (h : Tidy info chunks lists)

include h

theorem Tidy.bytes : info.usedSize + info.freeSize + 16 * chunks.length = info.totalSize + 16 := by
  have hsum : ∀ (cs : List Chunk) (lo : ℕ), Tiles lo cs info.hiBound →
      (∀ c ∈ cs, c.kind ≠ .held) → lo + usedBytes cs + freeBytes cs + 16 * cs.length =
        info.hiBound := by
    intro cs
    induction cs with
    | nil =>
      rintro lo hlo -
      simpa [Tiles] using hlo
    | cons c cs ih =>
      rintro lo ⟨rfl, hcs⟩ hkind
      have hrest := ih c.stop hcs fun d hd => hkind d (mem_cons_of_mem _ hd)
      have hc := hkind c (mem_cons_self ..)
      rw [usedBytes_cons, freeBytes_cons, length_cons]
      unfold Chunk.stop at hrest
      cases hk : c.kind with
      | used | free =>
        simp only [if_true, reduceCtorEq, if_false]
        omega
      | held => exact absurd hk hc
  have hchunks := hsum chunks info.loBound h.shape.tiles h.settled
  have htotal := h.total
  have hused := h.used
  have hfree := h.free
  omega

theorem Tidy.formed : Formed info chunks lists where
  tiles := h.shape.tiles
  fields c hc := ⟨h.settled c hc, h.shape.words c hc (h.settled c hc)⟩
  separate := h.separate.imp fun c d hcd => by
    rintro ⟨hc, hd⟩
    rcases hcd with hused | hused
    · rw [hc] at hused
      cases hused
    · rw [hd] at hused
      cases hused
  heads := h.shape.heads
  linked := h.shape.linked
  nodup := h.shape.nodup
  member := h.shape.member
  total := h.bytes

theorem Owned.disjoint (howned : Owned chunks live) :
    live.Pairwise fun b d => b.ptr + b.size ≤ d.ptr ∨ d.ptr + d.size ≤ b.ptr := by
  refine (pairwise_map.mp howned.ptrs).imp_of_mem fun {b d} hb hd hne => ?_
  obtain ⟨c, hc, -, hcb, hcsize⟩ := howned.chunk b hb
  obtain ⟨e, he, -, hed, hesize⟩ := howned.chunk d hd
  rcases h.shape.tiles.apart hc he with rfl | hlt | hlt
  · exact absurd (hcb.symm.trans hed) hne
  · unfold Chunk.stop at hlt
    omega
  · unfold Chunk.stop at hlt
    omega

omit h

theorem Invariant.wellFormed (h : Invariant s) : WellFormed s := by
  obtain ⟨chunks, lists, htidy, howned⟩ := h
  exact ⟨⟨chunks, lists, htidy.formed⟩, howned.disjoint htidy⟩

theorem Placed.owned {other : Chunk → Prop} (h : Placed other info info' chunks d)
    (hrest : ∀ b ∈ rest, ∃ c ∈ chunks, other c ∧ c.kind = .used ∧ c.addr + 8 = b.ptr ∧
      b.size ≤ c.size) (hptrs : (rest.map Block.ptr).Nodup) {n : ℕ} (hn : n ≤ d.size) :
    Invariant ⟨info', ⟨d.addr + shmemSizeField, n⟩ :: rest⟩ := by
  obtain ⟨chunks', lists', htidy, hd, hothers⟩ := h.tidy
  refine ⟨chunks', lists', htidy, fun b hb => ?_, nodup_cons.mpr ⟨fun hmem => ?_, hptrs⟩⟩
  · rcases mem_cons.mp hb with rfl | hb
    · exact ⟨d, hd, h.used, rfl, hn⟩
    · obtain ⟨c, hc, hother, hused, hptr, hsize⟩ := hrest b hb
      exact ⟨c, (hothers c hc hused hother).1, hused, hptr, hsize⟩
  · obtain ⟨b, hb, heq⟩ := mem_map.mp hmem
    obtain ⟨c, hc, hother, hused, hptr, -⟩ := hrest b hb
    have hne := (hothers c hc hused hother).2.1
    have heq : b.ptr = d.addr + 8 := heq
    omega

theorem Owned.erase (h : Owned chunks live) (hb : b ∈ live) (hc : c.addr + 8 = b.ptr) :
    (∀ d ∈ live.erase b, ∃ e ∈ chunks, e ≠ c ∧ e.kind = .used ∧ e.addr + 8 = d.ptr ∧
      d.size ≤ e.size) ∧ ((live.erase b).map Block.ptr).Nodup := by
  refine ⟨fun d hd => ?_, h.ptrs.sublist (erase_sublist.map _)⟩
  obtain ⟨hdb, hd⟩ := h.ptrs.of_map.mem_erase_iff.mp hd
  obtain ⟨e, he, hused, hptr, hsize⟩ := h.chunk d hd
  refine ⟨e, he, ?_, hused, hptr, hsize⟩
  rintro rfl
  exact hdb (inj_on_of_nodup_map h.ptrs hd hb (hptr.symm.trans hc))

theorem step_malloc {size : ℕ} (h : Invariant s) (hstep : step s (.malloc size) = some t) :
    Invariant t := by
  obtain ⟨chunks, lists, htidy, howned⟩ := h
  simp only [step] at hstep
  split at hstep
  · next hsize =>
    rcases memMalloc_placed htidy hsize.2 with ⟨hnone, -⟩ | ⟨d, haddr, hdsize, hplaced⟩
    · rw [hnone, if_pos rfl] at hstep
      obtain rfl := Option.some.inj hstep
      exact ⟨chunks, lists, htidy, howned⟩
    · rw [haddr, if_neg hplaced.addr_ne_zero] at hstep
      obtain rfl := Option.some.inj hstep
      refine hplaced.owned (fun b hb => ?_) howned.ptrs ((le_memProperAllocSize size).trans hdsize)
      obtain ⟨c, hc, hrest⟩ := howned.chunk b hb
      exact ⟨c, hc, trivial, hrest⟩
  · cases hstep

theorem step_realloc {size : ℕ} (h : Invariant s) (hstep : step s (.realloc b size) = some t) :
    Invariant t := by
  obtain ⟨chunks, lists, htidy, howned⟩ := h
  simp only [step] at hstep
  split at hstep
  · next henabled =>
    obtain ⟨hb, -, hsize⟩ := henabled
    obtain ⟨c, hc, hused, hptr, -⟩ := howned.chunk b hb
    rw [← hptr] at hstep
    rcases memRealloc_resized htidy hc hused hsize with hnone | ⟨d, pool, hsome, hdsize, hresized⟩
    · rw [hnone] at hstep
      obtain rfl := Option.some.inj hstep
      exact ⟨chunks, lists, htidy, howned⟩
    · rw [hsome, Option.map_some, if_neg hresized.1.addr_ne_zero] at hstep
      obtain rfl := Option.some.inj hstep
      obtain ⟨hrest, hptrs⟩ := howned.erase hb hptr
      exact hresized.1.owned hrest hptrs ((le_memProperAllocSize size).trans hdsize)
  · cases hstep

theorem step_free (h : Invariant s) (hstep : step s (.free b) = some t) : Invariant t := by
  obtain ⟨chunks, lists, htidy, howned⟩ := h
  simp only [step] at hstep
  split at hstep
  · next hb =>
    obtain rfl := Option.some.inj hstep
    obtain ⟨c, hc, hused, hptr, -⟩ := howned.chunk b hb
    obtain ⟨hrest, hptrs⟩ := howned.erase hb hptr
    obtain ⟨pre, post, rfl⟩ := append_of_mem hc
    obtain ⟨chunks', lists', htidy', -, hkept⟩ := (memFree_freed htidy hused).kept
    rw [hptr] at htidy'
    refine ⟨chunks', lists', htidy', fun d hd => ?_, hptrs⟩
    obtain ⟨e, he, hne, hrest⟩ := hrest d hd
    exact ⟨e, (hkept e (mem_others_of_ne he hne) hrest.1).1, hrest⟩
  · cases hstep

theorem step_store {offset value : ℕ} (h : Invariant s)
    (hstep : step s (.store b offset value) = some t) : Invariant t := by
  obtain ⟨chunks, lists, htidy, howned⟩ := h
  simp only [step] at hstep
  split at hstep
  · next henabled =>
    obtain rfl := Option.some.inj hstep
    obtain ⟨c, hc, hused, hptr, hsize⟩ := howned.chunk b henabled.1
    have hgood := (htidy.shape.sizes c hc).2.1
    refine ⟨chunks, lists, htidy.payload hc hused fun a ha => ?_, howned⟩
    exact update_of_ne (by omega) _ _
  · cases hstep

theorem step_invariant (s : State) (e : Event) (t : State) (h : Invariant s)
    (hstep : step s e = some t) : Invariant t := by
  cases e with
  | malloc size => exact step_malloc h hstep
  | realloc block size => exact step_realloc h hstep
  | free block => exact step_free h hstep
  | store block offset value => exact step_store h hstep

def createLo (base : ℕ) (descr param : List Char) : ℕ :=
  align8 (align8 (align8 base + sizeofInfo) + 8 * zbxShmemBucketCount + descr.length + 1 +
    param.length + 1)

def createHi (base size : ℕ) : ℕ := align8 (base + size - 8)

def Room (base size : ℕ) (descr param : List Char) : Prop :=
  createLo base descr param + shmemMinAlloc + 2 * shmemSizeField ≤ createHi base size

def fresh (lo hi total : ℕ) (mem : ℕ → ℕ) : Info :=
  memSetNextChunk (memSetPrevChunk (memSetChunkSize
    { buckets := update (fun _ => 0) (memBucketBySize total) lo
      loBound := lo
      hiBound := hi
      freeSize := total
      usedSize := 0
      totalSize := total
      mem } lo total) lo 0) lo 0

theorem uint64_add_uint64 (a : ℕ) (n : ℤ) : uint64 (a + uint64 n - 8) = uint64 (a + n - 8) := by
  unfold uint64
  omega

theorem uint64_uint64_sub (n m : ℤ) : uint64 (uint64 n - m) = uint64 (n - m) := by
  unfold uint64
  omega

theorem uint64_of_lt {n : ℕ} (h : n < 2 ^ 64) : uint64 n = n := by
  unfold uint64
  omega

theorem zbxShmemCreate_eq {base size : ℕ} {descr param : List Char} {mem : ℕ → ℕ}
    (hend : base + size < 2 ^ 64) (h : zbxShmemCreate base size descr param mem = some info) :
    size ≤ shmemMaxSize ∧ info = fresh (createLo base descr param) (createHi base size)
      (uint64 (createHi base size - createLo base descr param - 2 * shmemSizeField)) mem := by
  unfold zbxShmemCreate at h
  split at h
  · next hsize =>
    refine ⟨hsize.2, ?_⟩
    have hmin := hsize.1
    unfold shmemMinSize at hmin
    obtain rfl := Option.some.inj h
    simp only [uint64_uint64_sub]
    have hwrap (start : ℕ) (n : ℤ) (hn : start + n = base + size) :
        uint64 (start + uint64 n - 8) = base + size - 8 := by
      rw [uint64_add_uint64, hn]
      unfold uint64
      omega
    rw [hwrap _ _ (by push_cast; omega)]
    rfl
  · cases h

theorem createLo_mod (base : ℕ) (descr param : List Char) : createLo base descr param % 8 = 0 :=
  Nat.mul_mod_left ..

theorem createHi_mod (base size : ℕ) : createHi base size % 8 = 0 := Nat.mul_mod_left ..

theorem lt_createLo (base : ℕ) (descr param : List Char) : base < createLo base descr param := by
  unfold createLo align8 sizeofInfo
  omega

theorem createHi_le (base size : ℕ) : createHi base size ≤ base + size := by
  unfold createHi align8
  omega

section Fresh

variable {lo hi total : ℕ} {mem : ℕ → ℕ}

theorem fresh_head : (fresh lo hi total mem).mem lo = total := by
  unfold fresh memSetNextChunk memSetPrevChunk memSetChunkSize shmemSizeField
  simp only [Info.write]
  rw [update_of_ne (by omega), update_of_ne (by omega), update_of_ne (by omega), update_self]

theorem fresh_tail (htotal : 16 ≤ total) : (fresh lo hi total mem).mem (lo + 8 + total) = total := by
  unfold fresh memSetNextChunk memSetPrevChunk memSetChunkSize shmemSizeField
  simp only [Info.write]
  rw [update_of_ne (by omega), update_of_ne (by omega), update_self]

theorem fresh_prev : (fresh lo hi total mem).mem (lo + 8) = 0 := by
  unfold fresh memSetNextChunk memSetPrevChunk shmemSizeField
  simp only [Info.write]
  rw [update_of_ne (by omega), update_self]

theorem fresh_next : (fresh lo hi total mem).mem (lo + 16) = 0 := update_self _ _ _

theorem fresh_tidy (hlo : 0 < lo) (hlo8 : lo % 8 = 0) (hsize : GoodSize total)
    (hhi : lo + total + 16 = hi) (hbound : hi < lo + 2 ^ 63) :
    Tidy (fresh lo hi total mem) [⟨lo, total, .free⟩]
      fun i => if i = memBucketBySize total then [lo] else [] where
  shape :=
    { low := ⟨hlo, hlo8, hbound⟩
      tiles := ⟨rfl, by unfold Chunk.stop; exact hhi⟩
      sizes := by simpa using hsize
      words := fun c hc _ => by
        obtain rfl := mem_singleton.mp hc
        have hmin := hsize.1
        unfold shmemMinAlloc at hmin
        exact ⟨fresh_head, fresh_tail (by omega)⟩
      heads := fun i => by
        show update (fun _ => 0) (memBucketBySize total) lo i = _
        rw [update_apply]
        split <;> rfl
      linked := fun i => by
        split
        · exact ⟨fresh_prev, fresh_next, trivial⟩
        · trivial
      nodup := fun i => by split <;> simp
      member := fun i p => by
        simp only [FreeAt, mem_singleton, exists_eq_left, true_and]
        split
        · next hi => simp [hi, eq_comm]
        · next hi => simp [Ne.symm hi] }
  settled := by simp
  separate := .singleton _
  used := rfl
  free := by simp [fresh, memSetNextChunk, memSetPrevChunk, memSetChunkSize, Info.write]
  total := hhi

theorem Formed.single {info : Info} {chunks : List Chunk} {lists : ℕ → List ℕ}
    (h : Formed info chunks lists) (hbytes : info.usedSize + info.freeSize = info.totalSize) :
    ∃ size, info.loBound + size + 16 = info.hiBound ∧
      info.mem info.loBound = info.mem (info.loBound + 8 + size) := by
  have hlength : chunks.length = 1 := by
    have htotal := h.total
    omega
  obtain ⟨c, rfl⟩ := length_eq_one_iff.mp hlength
  obtain ⟨haddr, hstop⟩ := h.tiles
  obtain ⟨-, hhead, htail⟩ := h.fields c (by simp)
  rw [haddr] at hhead htail
  refine ⟨c.size, ?_, hhead.trans htail.symm⟩
  unfold Chunk.stop at hstop
  rw [← haddr]
  exact hstop

theorem use_counts (h : info.Counts info') (chunk size : ℕ) :
    (info.account (info.usedSize + size) (info.freeSize - size)).Counts
      (memSetUsedChunkSize (info'.account (info'.usedSize + size) (info'.freeSize - size)) chunk
        size) := by
  refine ⟨h.loBound, h.hiBound, h.totalSize, ?_, ?_⟩
  · show info'.usedSize + size = info.usedSize + size
    rw [h.usedSize]
  · show info'.freeSize - size = info.freeSize - size
    rw [h.freeSize]

theorem fresh_malloc (hi : ℕ) (mem : ℕ → ℕ) (hlo : 0 < lo) (hbucket : total < shmemMinAlloc) :
    ∃ pool, memMalloc (fresh lo hi total mem) 24 = (lo, pool) ∧
      pool.mem lo = shmemFlgUsed ||| total ∧ pool.loBound = lo ∧ pool.hiBound = hi ∧
      pool.usedSize + pool.freeSize = pool.totalSize := by
  have hzero : memBucketBySize total = 0 := if_pos hbucket
  have hfind : findChunk (fresh lo hi total mem) 24 = lo := by
    have hhead : (fresh lo hi total mem).buckets 0 = lo := by
      show update (fun _ => 0) (memBucketBySize total) lo 0 = lo
      rw [hzero, update_self]
    have hindex : nextBucket (fresh lo hi total mem).buckets zbxShmemBucketCount
        (memBucketBySize 24) = 0 := by
      show nextBucket (fresh lo hi total mem).buckets (29 + 1) 0 = 0
      unfold nextBucket
      rw [if_neg (by rw [hhead]; omega)]
    unfold findChunk
    simp only [hindex, hhead]
    rfl
  have hsize : chunkSize (fresh lo hi total mem) lo = total := by
    unfold chunkSize
    rw [fresh_head]
    unfold shmemFlgUsed
    unfold shmemMinAlloc at hbucket
    rw [Nat.and_two_pow_sub_one_eq_mod, Nat.mod_eq_of_lt (by omega)]
  have hproper : memProperAllocSize 24 = 24 := rfl
  have hcounts := use_counts (memUnlinkChunk_counts (fresh lo hi total mem) lo) lo total
  refine ⟨_, ?_, ?_, hcounts.loBound, hcounts.hiBound, ?_⟩
  · unfold memMalloc
    simp only [hproper, hfind, hsize, hlo.ne', if_false]
    unfold splitChunk
    rw [if_pos (by unfold shmemMinAlloc at *; omega)]
  · unfold memSetUsedChunkSize shmemSizeField
    simp only [Info.write]
    rw [update_of_ne (by omega), update_self]
  · rw [hcounts.usedSize, hcounts.freeSize, hcounts.totalSize]
    show 0 + total + (total - total) = total
    omega

theorem not_wellFormed_of_fields {s : State} (total : ℕ) (hbytes : s.pool.usedSize + s.pool.freeSize =
      s.pool.totalSize) (htotal : s.pool.loBound + total + 16 = s.pool.hiBound)
    (hfields : s.pool.mem s.pool.loBound ≠ s.pool.mem (s.pool.loBound + 8 + total)) :
    ¬WellFormed s := by
  intro h
  obtain ⟨chunks, lists, hchunks⟩ := h.pool
  obtain ⟨size, hsize, heq⟩ := hchunks.single hbytes
  obtain rfl : size = total := by omega
  exact hfields heq

theorem fresh_broken (mem : ℕ → ℕ) (hlo : 0 < lo) (htotal : total = 0 ∨ total = 16)
    (hhi : lo + total + 16 = hi) :
    ∃ s, Reach (fun s => s = ⟨fresh lo hi total mem, []⟩) step anyEvent s ∧ ¬WellFormed s := by
  obtain ⟨pool, hpool, hword, hpoolLo, hpoolHi, hbytes⟩ := fresh_malloc hi mem hlo
    (show total < shmemMinAlloc by unfold shmemMinAlloc; omega)
  have hmalloc : step ⟨fresh lo hi total mem, []⟩ (.malloc 24) = some ⟨pool, [⟨lo + 8, 24⟩]⟩ := by
    simp only [step, hpool, hlo.ne', if_false]
    rfl
  have hstore : step ⟨pool, [⟨lo + 8, 24⟩]⟩ (.store ⟨lo + 8, 24⟩ total 0) =
      some ⟨pool.write (lo + 8 + total) 0, [⟨lo + 8, 24⟩]⟩ := by
    have hoffset : total / 8 * 8 = total := by omega
    simp only [step, mem_singleton, true_and, hoffset]
    rw [if_pos (by omega)]
  have hstart : Reach (fun s => s = ⟨fresh lo hi total mem, []⟩) step anyEvent
      ⟨fresh lo hi total mem, []⟩ := .start rfl
  refine ⟨_, (hstart.next trivial hmalloc).next trivial hstore,
    not_wellFormed_of_fields total hbytes ?_ ?_⟩
  · show pool.loBound + total + 16 = pool.hiBound
    omega
  · show (pool.write (lo + 8 + total) 0).mem pool.loBound ≠
      (pool.write (lo + 8 + total) 0).mem (pool.loBound + 8 + total)
    simp only [Info.write]
    rw [hpoolLo, update_self, update_of_ne (by omega), hword]
    rcases htotal with rfl | rfl <;> decide

end Fresh

variable {base size : ℕ} {descr param : List Char} {mem : ℕ → ℕ}

variable (hend : base + size < 2 ^ 64)

include hend

variable (hcreate : zbxShmemCreate base size descr param mem = some info)

include hcreate

theorem create_tidy (hroom : Room base size descr param) :
    ∃ lists, Tidy info [⟨createLo base descr param,
      createHi base size - createLo base descr param - 16, .free⟩] lists := by
  obtain ⟨hmax, rfl⟩ := zbxShmemCreate_eq hend hcreate
  have hlo := lt_createLo base descr param
  have hlo8 := createLo_mod base descr param
  have hhi8 := createHi_mod base size
  have hhi := createHi_le base size
  unfold Room shmemMinAlloc shmemSizeField at hroom
  unfold shmemMaxSize at hmax
  generalize createLo base descr param = lo at *
  generalize createHi base size = hi at *
  have htotal : uint64 (hi - lo - 2 * shmemSizeField) = hi - lo - 16 := by
    rw [show (hi - lo - 2 * shmemSizeField : ℤ) = (hi - lo - 16 : ℕ) by
      unfold shmemSizeField; omega]
    exact uint64_of_lt (by omega)
  rw [htotal]
  refine ⟨_, fresh_tidy (by omega) hlo8 ⟨?_, ?_, ?_⟩ (by omega) (by omega)⟩
  · unfold shmemMinAlloc
    omega
  · omega
  · omega

theorem create_invariant (hroom : Room base size descr param) : Invariant ⟨info, []⟩ := by
  obtain ⟨lists, htidy⟩ := create_tidy hend hcreate hroom
  exact ⟨_, lists, htidy, by simp, by simp⟩

theorem create_broken (hroom : ¬Room base size descr param) :
    ∃ s, Reach (fun s => s = ⟨info, []⟩) step anyEvent s ∧ ¬WellFormed s := by
  obtain ⟨-, rfl⟩ := zbxShmemCreate_eq hend hcreate
  have hlo := lt_createLo base descr param
  have hlo8 := createLo_mod base descr param
  have hhi8 := createHi_mod base size
  unfold Room shmemMinAlloc shmemSizeField at hroom
  generalize createLo base descr param = lo at *
  generalize createHi base size = hi at *
  have hstart (total : ℕ) : Reach (fun s => s = ⟨fresh lo hi total mem, []⟩) step anyEvent
      ⟨fresh lo hi total mem, []⟩ := .start rfl
  by_cases hfit : hi = lo + 16 ∨ hi = lo + 32
  · have htotal : uint64 (hi - lo - 2 * shmemSizeField) = hi - lo - 16 := by
      rw [show (hi - lo - 2 * shmemSizeField : ℤ) = (hi - lo - 16 : ℕ) by
        unfold shmemSizeField; omega]
      exact uint64_of_lt (by omega)
    rw [htotal]
    exact fresh_broken mem (by omega) (by omega) (by omega)
  · refine ⟨_, hstart _, fun h => ?_⟩
    obtain ⟨chunks, lists, hchunks⟩ := h.pool
    obtain ⟨size', hsize, hfields⟩ := hchunks.single (Nat.zero_add _)
    have hsize : lo + size' + 16 = hi := hsize
    -- what is left is a chunk of eight bytes, whose tail is also its link
    obtain rfl : size' = 8 := by omega
    have htotal : uint64 (hi - lo - 2 * shmemSizeField) = 8 := by
      rw [show (hi - lo - 2 * shmemSizeField : ℤ) = (8 : ℕ) by unfold shmemSizeField; omega]
      exact uint64_of_lt (by omega)
    rw [htotal] at hfields
    have hfields : (fresh lo hi 8 mem).mem lo = (fresh lo hi 8 mem).mem (lo + 16) := hfields
    rw [fresh_head, fresh_next] at hfields
    omega

omit hcreate

omit hend

/-- A pool stays well-formed in every run exactly when it has room for one chunk. -/
theorem wellFormed_iff_room (hend : base + size < 2 ^ 64)
    (hcreate : zbxShmemCreate base size descr param mem = some info) :
    (∀ s, Reach (fun s => s = ⟨info, []⟩) step anyEvent s → WellFormed s) ↔
      Room base size descr param := by
  constructor
  · intro h
    by_contra hroom
    obtain ⟨s, hs, hbroken⟩ := create_broken hend hcreate hroom
    exact hbroken (h s hs)
  · intro hroom s hs
    refine (hs.invariant (fun s hs => ?_) fun s e t hinv _ => step_invariant s e t hinv).wellFormed
    rw [hs]
    exact create_invariant hend hcreate hroom

theorem wellFormed_iff_room_page :
    (∃ info, zbxShmemCreate 4096 4096 ['c'] ['C'] (fun _ => 0) = some info ∧
      ((∀ s, Reach (fun s => s = ⟨info, []⟩) step anyEvent s → WellFormed s) ↔
        Room 4096 4096 ['c'] ['C'])) ∧ Room 4096 4096 ['c'] ['C'] :=
  ⟨⟨_, rfl, wellFormed_iff_room (by decide) rfl⟩, by unfold Room; decide⟩

/-- The smallest size that is accepted has no room for the header. -/
theorem create_smallest_broken :
    ∃ info, zbxShmemCreate 4096 128 [] [] (fun _ => 0) = some info ∧
      ¬∀ s, Reach (fun s => s = ⟨info, []⟩) step anyEvent s → WellFormed s := by
  refine ⟨_, rfl, fun h => ?_⟩
  have hcreate : zbxShmemCreate 4096 128 [] [] (fun _ => 0) = some _ := rfl
  obtain ⟨s, hs, hbroken⟩ := create_broken (by decide) hcreate (by unfold Room; decide)
  exact hbroken (h s hs)

end Zabbix.Shmem
