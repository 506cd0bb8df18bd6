import Zabbix.Shmem.Shape
import Mathlib.Data.List.Chain
import Mathlib.Data.List.Perm.Subperm
import Mathlib.Algebra.BigOperators.Group.List.Basic

/-!
# The operations of the allocator keep a pool tidy

A pool is tidy when nothing is held, no two free chunks are neighbours and the counters of
the pool agree with its chunks.
-/

namespace Zabbix.Shmem

open List Zabbix.DoublyLinked

variable {a n m : ℕ} {l r front back : List Chunk} {p : Chunk}

def usedBytes (chunks : List Chunk) : ℕ :=
  (chunks.map fun c => if c.kind = .used then c.size else 0).sum

def freeBytes (chunks : List Chunk) : ℕ :=
  (chunks.map fun c => if c.kind = .free then c.size else 0).sum

@[simp] theorem usedBytes_nil : usedBytes [] = 0 := rfl
@[simp] theorem freeBytes_nil : freeBytes [] = 0 := rfl

@[simp] theorem usedBytes_cons (c : Chunk) (cs : List Chunk) :
    usedBytes (c :: cs) = (if c.kind = .used then c.size else 0) + usedBytes cs := by
  simp [usedBytes]

@[simp] theorem freeBytes_cons (c : Chunk) (cs : List Chunk) :
    freeBytes (c :: cs) = (if c.kind = .free then c.size else 0) + freeBytes cs := by
  simp [freeBytes]

variable (cs ds : List Chunk)

@[simp] theorem usedBytes_append :
    usedBytes (cs ++ ds) = usedBytes cs + usedBytes ds := by
  simp [usedBytes]

@[simp] theorem freeBytes_append :
    freeBytes (cs ++ ds) = freeBytes cs + freeBytes ds := by
  simp [freeBytes]

def NextUsed (c d : Chunk) : Prop := c.kind = .used ∨ d.kind = .used

structure Tidy (info : Info) (chunks : List Chunk) (lists : ℕ → List ℕ) : Prop where
  shape : Shape info chunks lists
  settled : ∀ c ∈ chunks, c.kind ≠ .held
  separate : chunks.IsChain NextUsed
  used : info.usedSize = usedBytes chunks
  free : info.freeSize = freeBytes chunks
  total : info.loBound + info.totalSize + 16 = info.hiBound

structure Info.Counts (info info' : Info) : Prop where
  loBound : info'.loBound = info.loBound
  hiBound : info'.hiBound = info.hiBound
  totalSize : info'.totalSize = info.totalSize
  usedSize : info'.usedSize = info.usedSize
  freeSize : info'.freeSize = info.freeSize

theorem Info.Counts.trans {a b c : Info} (h : a.Counts b) (h' : b.Counts c) : a.Counts c :=
  ⟨h'.loBound.trans h.loBound, h'.hiBound.trans h.hiBound, h'.totalSize.trans h.totalSize,
    h'.usedSize.trans h.usedSize, h'.freeSize.trans h.freeSize⟩

theorem Tidy.next {info info' : Info} {chunks chunks' : List Chunk} {lists lists' : ℕ → List ℕ}
    (h : Tidy info chunks lists) (shape : Shape info' chunks' lists')
    (settled : ∀ c ∈ chunks', c.kind ≠ .held) (separate : chunks'.IsChain NextUsed)
    (hcounts : (info.account (usedBytes chunks') (freeBytes chunks')).Counts info') :
    Tidy info' chunks' lists' where
  shape := shape
  settled := settled
  separate := separate
  used := hcounts.usedSize
  free := hcounts.freeSize
  total := by
    rw [hcounts.loBound, hcounts.totalSize, hcounts.hiBound]
    exact h.total

theorem memUnlinkChunk_counts (info : Info) (chunk : ℕ) :
    info.Counts (memUnlinkChunk info chunk) := by
  rw [Shape.memUnlinkChunk_eq]
  exact ⟨rfl, rfl, rfl, rfl, rfl⟩

theorem release_counts (info : Info) (chunk size : ℕ) :
    info.Counts (memLinkChunk (memSetChunkSize info chunk size) chunk) := by
  rw [Shape.memLinkChunk_eq]
  exact ⟨rfl, rfl, rfl, rfl, rfl⟩

def cut (c : Chunk) (size : ℕ) : List Chunk :=
  if c.size < size + 2 * shmemSizeField + shmemMinAlloc then [c.withKind .used]
  else [⟨c.addr, size, .used⟩, ⟨c.addr + size + 16, c.size - size - 16, .free⟩]

theorem cut_tail_good {c : Chunk} {size : ℕ} (hc : GoodSize c.size) (hsize : GoodSize size)
    (hcut : ¬c.size < size + 2 * shmemSizeField + shmemMinAlloc) :
    GoodSize (c.size - size - 16) := by
  unfold GoodSize shmemSizeField shmemMinAlloc at *
  omega

variable {info : Info} {chunks pre post : List Chunk} {lists : ℕ → List ℕ} {c : Chunk} {size : ℕ}

def cutTwo (info : Info) (chunk size rest : ℕ) : Info :=
  memSetUsedChunkSize (memLinkChunk (memSetChunkSize info (chunk + size + 16) rest)
    (chunk + size + 16)) chunk size

theorem cutTwo_counts (info : Info) (chunk size rest : ℕ) :
    info.Counts (cutTwo info chunk size rest) := by
  have h := release_counts info (chunk + size + 16) rest
  exact ⟨h.loBound, h.hiBound, h.totalSize, h.usedSize, h.freeSize⟩

theorem memSetUsedChunkSize_payload (info : Info) {chunk size : ℕ} (hle : chunk + 8 ≤ a)
    (hlt : a < chunk + 8 + size) : (memSetUsedChunkSize info chunk size).mem a = info.mem a := by
  have htail : a ≠ chunk + shmemSizeField + size := by
    unfold shmemSizeField
    omega
  exact (Function.update_of_ne htail _ _).trans (Function.update_of_ne (by omega) _ _)

theorem Shape.cutTwo (h : Shape info (pre ++ c :: post) lists) (hheld : c.kind = .held)
    (hsize : GoodSize size) {rest : ℕ} (hrest : GoodSize rest) (hadd : size + 16 + rest = c.size) :
    (∃ lists', Shape (cutTwo info c.addr size rest)
      (pre ++ ⟨c.addr, size, .used⟩ :: ⟨c.addr + size + 16, rest, .free⟩ :: post) lists') ∧
    Undisturbed (pre ++ post) info (cutTwo info c.addr size rest) ∧
    ∀ a, c.addr + 8 ≤ a → a < c.addr + 8 + size →
      (cutTwo info c.addr size rest).mem a = info.mem a := by
  let first : Chunk := ⟨c.addr, size, .held⟩
  let second : Chunk := ⟨c.addr + size + 16, rest, .held⟩
  have hsplit : Shape info ((pre ++ [first]) ++ second :: post) lists := by
    have hcut := (show Shape info (pre ++ [c] ++ post) lists by simpa using h).retile
      [first, second] (by simp [hheld]) (by simp [first, second, hsize, hrest])
      (fun a b hab => by
        obtain ⟨haddr, hb⟩ := hab
        obtain rfl : c.stop = b := hb
        refine ⟨haddr, rfl, ?_⟩
        simp only [Tiles, second, Chunk.stop]
        omega)
    simpa using hcut
  obtain ⟨lists', hlinked⟩ := hsplit.release rfl
  have hothers := hsplit.release_undisturbed rfl
  have hheldFirst : Shape (memLinkChunk (memSetChunkSize info second.addr second.size) second.addr)
      (pre ++ first :: second.withKind .free :: post) lists' := by simpa using hlinked
  refine ⟨⟨lists', hheldFirst.setUsed rfl⟩, ?_, fun a hle hlt => ?_⟩
  · refine (hothers.subset (by simp)).trans
      ((hheldFirst.setUsed_undisturbed rfl).subset ?_)
    exact fun d hd => Shape.mem_of_others hd
  · refine (memSetUsedChunkSize_payload _ hle hlt).trans ?_
    exact hothers first (by simp) (by simp [first]) a (by simp only [first]; omega)
      (by simp only [first, Chunk.stop]; omega)

theorem splitChunk_counts (info : Info) (c : Chunk) (size : ℕ) :
    (info.account (info.usedSize + usedBytes (cut c size))
      (info.freeSize - c.size + freeBytes (cut c size))).Counts
        (splitChunk info c.addr c.size size) := by
  unfold splitChunk cut
  split
  · exact ⟨rfl, rfl, rfl, by simp [Info.account, memSetUsedChunkSize, Info.write],
      by simp [Info.account, memSetUsedChunkSize, Info.write]⟩
  · have hcounts := release_counts info (c.addr + shmemSizeField + size + shmemSizeField)
      (c.size - size - 2 * shmemSizeField)
    refine ⟨hcounts.loBound, hcounts.hiBound, hcounts.totalSize, ?_, ?_⟩
    · simp [Info.account, memSetUsedChunkSize, Info.write, hcounts.usedSize]
    · have hfree := hcounts.freeSize
      simp only [shmemSizeField] at hfree
      simp [Info.account, memSetUsedChunkSize, Info.write, hfree, shmemSizeField]

theorem Shape.splitChunk (h : Shape info (pre ++ c :: post) lists) (hheld : c.kind = .held)
    (hsize : GoodSize size) :
    (∃ lists', Shape (splitChunk info c.addr c.size size) (pre ++ cut c size ++ post) lists') ∧
    Undisturbed (pre ++ post) info (splitChunk info c.addr c.size size) ∧
    ∀ a, c.addr + 8 ≤ a → a < c.addr + 8 + min size c.size →
      (Shmem.splitChunk info c.addr c.size size).mem a = info.mem a := by
  have hc := h.sizes c (mem_append_right pre (mem_cons_self ..))
  unfold Shmem.splitChunk cut
  split
  · have haccount := h.account (info.usedSize + c.size) (info.freeSize - c.size)
    refine ⟨⟨lists, by simpa using haccount.setUsed hheld⟩, haccount.setUsed_undisturbed hheld,
      fun a hle hlt => memSetUsedChunkSize_payload _ hle (by omega)⟩
  · next hcut =>
    have htail := cut_tail_good hc hsize hcut
    have hle : size + 16 + (c.size - size - 16) = c.size := by
      unfold GoodSize shmemMinAlloc at htail
      omega
    obtain ⟨⟨lists', hshape⟩, hothers, hpayload⟩ := h.cutTwo hheld hsize htail hle
    have haddr : c.addr + shmemSizeField + size + shmemSizeField = c.addr + size + 16 := by
      unfold shmemSizeField
      omega
    rw [haddr]
    refine ⟨⟨lists', ?_⟩, hothers, fun a hge hlt => hpayload a hge (by omega)⟩
    rw [append_assoc]
    exact hshape.account _ _

theorem separate_used {c : Chunk} (hused : c.kind = .used) :
    (l ++ c :: r).IsChain NextUsed ↔ l.IsChain NextUsed ∧ r.IsChain NextUsed := by
  rw [isChain_append, isChain_cons]
  simp [NextUsed, hused]

theorem separate_free {c : Chunk} (hfree : c.kind = .free) :
    (l ++ c :: r).IsChain NextUsed ↔ l.IsChain NextUsed ∧ r.IsChain NextUsed ∧
      (∀ d ∈ l.getLast?, d.kind = .used) ∧ ∀ d ∈ r.head?, d.kind = .used := by
  rw [isChain_append, isChain_cons]
  simp [NextUsed, hfree]
  tauto

theorem separate_cutTwo {pre post : List Chunk} (hpre : pre.IsChain NextUsed)
    (hpost : post.IsChain NextUsed) (hnext : ∀ d ∈ post.head?, d.kind = .used) (a m b r : ℕ) :
    (pre ++ ([⟨a, m, .used⟩, ⟨b, r, .free⟩] : List Chunk) ++ post).IsChain NextUsed := by
  rw [append_assoc, cons_append, separate_used rfl]
  exact ⟨hpre, (separate_free (l := []) rfl).mpr ⟨.nil, hpost, by simp, hnext⟩⟩

theorem separate_cut {pre post : List Chunk} (hpre : pre.IsChain NextUsed)
    (hpost : post.IsChain NextUsed) (hnext : ∀ d ∈ post.head?, d.kind = .used) (c : Chunk)
    (size : ℕ) : (pre ++ cut c size ++ post).IsChain NextUsed := by
  unfold cut
  split
  · simpa using (separate_used (c := c.withKind .used) rfl).mpr ⟨hpre, hpost⟩
  · exact separate_cutTwo hpre hpost hnext _ _ _ _

theorem memProperAllocSize_good (h : n ≤ shmemMaxSize) : GoodSize (memProperAllocSize n) := by
  unfold GoodSize memProperAllocSize shmemMinAlloc shmemMaxSize at *
  split <;> omega

theorem le_memProperAllocSize (n : ℕ) : n ≤ memProperAllocSize n := by
  unfold memProperAllocSize
  split <;> omega

theorem memBucketBySize_eq (size : ℕ) :
    memBucketBySize size = min ((size - shmemMinAlloc) / 8) (zbxShmemBucketCount - 1) := by
  unfold memBucketBySize zbxShmemBucketCount zbxShmemMinBucketSize shmemMaxBucketSize shmemMinAlloc
  split
  · omega
  · split <;> omega

theorem memBucketBySize_mono (h : m ≤ n) : memBucketBySize m ≤ memBucketBySize n := by
  rw [memBucketBySize_eq, memBucketBySize_eq]
  omega

theorem le_of_memBucketBySize_le (hm : GoodSize m) (hn : GoodSize n)
    (hlt : memBucketBySize n < zbxShmemBucketCount - 1)
    (hle : memBucketBySize m ≤ memBucketBySize n) : m ≤ n := by
  rw [memBucketBySize_eq] at hlt hle
  rw [memBucketBySize_eq] at hle
  unfold GoodSize shmemMinAlloc at *
  omega

theorem nextBucket_spec (buckets : ℕ → ℕ) {i : ℕ} (hn : zbxShmemBucketCount - 1 ≤ i + n)
    (hi : i ≤ zbxShmemBucketCount - 1) :
    i ≤ nextBucket buckets n i ∧ nextBucket buckets n i ≤ zbxShmemBucketCount - 1 ∧
      (nextBucket buckets n i < zbxShmemBucketCount - 1 → buckets (nextBucket buckets n i) ≠ 0) ∧
      ∀ j, i ≤ j → j < nextBucket buckets n i → buckets j = 0 := by
  induction n generalizing i with
  | zero =>
    simp only [nextBucket]
    refine ⟨le_rfl, hi, fun hlt => ?_, fun j hle hlt => ?_⟩ <;> omega
  | succ n ih =>
    unfold nextBucket
    split
    · next hempty =>
      obtain ⟨hle, hbound, hne, hskip⟩ := ih (i := i + 1) (by omega) (by omega)
      refine ⟨by omega, hbound, hne, fun j hij hj => ?_⟩
      by_cases hj' : j = i
      · rw [hj']
        exact hempty.2
      · exact hskip j (by omega) hj
    · next hstop =>
      refine ⟨le_rfl, hi, fun hlt hzero => hstop ⟨hlt, hzero⟩, fun j hle hlt => ?_⟩
      omega

theorem firstFit_eq {mem : ℕ → ℕ} {prev : ℕ} {ps : List ℕ} {info : Info} {size fuel : ℕ}
    (hmem : info.mem = mem) (h : Linked 8 16 mem prev ps 0) (hzero : 0 ∉ ps)
    (hfuel : ps.length ≤ fuel) :
    firstFit info size fuel (ps.headD 0) = (ps.find? fun p => size ≤ chunkSize info p).getD 0 := by
  induction ps generalizing prev fuel with
  | nil => cases fuel <;> simp [firstFit]
  | cons p ps ih =>
    obtain ⟨-, hnext, hrest⟩ := h
    obtain ⟨fuel, rfl⟩ : ∃ n, fuel = n + 1 := ⟨fuel - 1, by simp at hfuel; omega⟩
    have hp : p ≠ 0 := fun heq => hzero (by simp [heq])
    unfold firstFit
    rw [headD_cons, List.find?_cons]
    by_cases hsize : size ≤ chunkSize info p
    · rw [if_neg (by omega)]
      simp [hsize]
    · rw [if_pos ⟨hp, by omega⟩]
      simp only [decide_eq_false hsize]
      have hstep : memGetNextChunk info p = ps.headD 0 := by
        rw [← hnext, ← hmem]
        rfl
      rw [hstep]
      exact ih hrest (fun hz => hzero (by simp [hz])) (by simpa using hfuel)

theorem Tiles.length_le {lo hi : ℕ} (h : Tiles lo chunks hi)
    (hsizes : ∀ c ∈ chunks, GoodSize c.size) : lo + 40 * chunks.length ≤ hi := by
  induction chunks generalizing lo with
  | nil => exact le_of_eq h
  | cons c cs ih =>
    obtain ⟨rfl, hcs⟩ := h
    have hc := (hsizes c (mem_cons_self ..)).1
    have := ih hcs fun d hd => hsizes d (mem_cons_of_mem _ hd)
    unfold Chunk.stop shmemMinAlloc at *
    simp only [length_cons]
    omega

theorem Tidy.lists_length_le (h : Tidy info chunks lists) (i : ℕ) :
    (lists i).length ≤ info.totalSize := by
  have hsub : lists i ⊆ chunks.map (·.addr) := by
    intro p hp
    obtain ⟨c, hc, hcp, -⟩ := (h.shape.member i p).mp hp
    exact mem_map.mpr ⟨c, hc, hcp⟩
  have hlength := ((h.shape.nodup i).subperm hsub).length_le
  rw [length_map] at hlength
  have htiles := h.shape.tiles.length_le h.shape.sizes
  have htotal := h.total
  omega

theorem Tidy.findChunk (h : Tidy info chunks lists) (hsize : GoodSize size) :
    (findChunk info size = 0 ∧ ∀ c ∈ chunks, c.kind = .free → c.size < size) ∨
      ∃ c ∈ chunks, c.kind = .free ∧ c.addr = findChunk info size ∧ size ≤ c.size := by
  have hlast : memBucketBySize size ≤ zbxShmemBucketCount - 1 := by
    rw [memBucketBySize_eq]
    exact Nat.min_le_right _ _
  obtain ⟨hle, hbound, hne, hskip⟩ := nextBucket_spec info.buckets
    (n := zbxShmemBucketCount) (by omega) hlast
  unfold Shmem.findChunk
  dsimp only
  generalize nextBucket info.buckets zbxShmemBucketCount (memBucketBySize size) = index at *
  have hfreeAt : ∀ p ∈ lists index, ∃ c ∈ chunks, c.addr = p ∧ c.kind = .free ∧
      memBucketBySize c.size = index := fun p hp => (h.shape.member index p).mp hp
  rw [h.shape.heads]
  split
  · next hindex =>
    -- first fit in the last bucket
    rw [firstFit_eq rfl (h.shape.linked index) (h.shape.zero_not_mem index)
      (h.lists_length_le index)]
    cases hfind : (lists index).find? fun p => size ≤ chunkSize info p with
    | none =>
      refine .inl ⟨rfl, fun c hc hfree => ?_⟩
      by_contra hbig
      have hbucket : memBucketBySize c.size = index := by
        have hmono := memBucketBySize_mono (Nat.le_of_not_lt hbig)
        by_contra hother
        have hlt : memBucketBySize c.size < index := by
          have := memBucketBySize_eq c.size
          omega
        have hempty := hskip _ hmono hlt
        rw [h.shape.heads] at hempty
        have hin := (h.shape.member _ c.addr).mpr ⟨c, hc, rfl, hfree, rfl⟩
        cases hlist : lists (memBucketBySize c.size) with
        | nil =>
          rw [hlist] at hin
          cases hin
        | cons p ps =>
          rw [hlist] at hempty
          obtain rfl : p = 0 := hempty
          exact h.shape.zero_not_mem (memBucketBySize c.size) (by rw [hlist]; simp)
      have hin := (h.shape.member index c.addr).mpr ⟨c, hc, rfl, hfree, hbucket⟩
      have hsmall := List.find?_eq_none.mp hfind c.addr hin
      rw [h.shape.chunkSize hc (by simp [hfree])] at hsmall
      simp only [decide_eq_true_eq] at hsmall
      exact hbig (by omega)
    | some p =>
      obtain ⟨c, hc, rfl, hfree, -⟩ := hfreeAt p (List.mem_of_find?_eq_some hfind)
      have hbig := List.find?_some hfind
      rw [h.shape.chunkSize hc (by simp [hfree])] at hbig
      exact .inr ⟨c, hc, hfree, rfl, by simpa using hbig⟩
  · next hindex =>
    have hlt : index < zbxShmemBucketCount - 1 := by omega
    have hfirst := hne hlt
    rw [h.shape.heads] at hfirst
    obtain ⟨c, hc, haddr, hfree, hbucket⟩ := hfreeAt _ (headD_mem hfirst)
    refine .inr ⟨c, hc, hfree, haddr, ?_⟩
    exact le_of_memBucketBySize_le hsize (h.shape.sizes c hc) (by omega) (by omega)

theorem cut_settled (c : Chunk) (size : ℕ) : ∀ d ∈ cut c size, d.kind ≠ .held := by
  unfold cut
  split <;> simp

theorem settled_replace (h : ∀ c ∈ pre ++ cs ++ post, c.kind ≠ .held)
    (hds : ∀ d ∈ ds, d.kind ≠ .held) : ∀ c ∈ pre ++ ds ++ post, c.kind ≠ .held := by
  simp only [forall_mem_append] at h ⊢
  exact ⟨⟨h.1.1, hds⟩, h.2⟩

theorem memMalloc_tidy (h : Tidy info chunks lists) (hn : n ≤ shmemMaxSize) :
    (memMalloc info n = (0, info) ∧ ∀ c ∈ chunks, c.kind = .free → c.size < memProperAllocSize n) ∨
    ∃ pre c post lists', chunks = pre ++ c :: post ∧ c.kind = .free ∧
      memProperAllocSize n ≤ c.size ∧ (memMalloc info n).1 = c.addr ∧
      Tidy (memMalloc info n).2 (pre ++ cut c (memProperAllocSize n) ++ post) lists' ∧
      Undisturbed (pre ++ post) info (memMalloc info n).2 := by
  have hsize := memProperAllocSize_good hn
  unfold memMalloc
  dsimp only
  rcases h.findChunk hsize with ⟨hnone, hsmall⟩ | ⟨c, hc, hfree, haddr, hle⟩
  · rw [if_pos hnone]
    exact .inl ⟨rfl, hsmall⟩
  · have hpos := h.shape.addr_pos hc
    rw [if_neg (by omega), ← haddr, h.shape.chunkSize hc (h.settled c hc)]
    obtain ⟨pre, post, rfl⟩ := append_of_mem hc
    obtain ⟨lists₁, hheld⟩ := h.shape.unlink hfree
    obtain ⟨⟨lists₂, hcut⟩, hothers, -⟩ := hheld.splitChunk rfl hsize
    have hused := h.used
    have hfreeBytes := h.free
    simp only [usedBytes_append, usedBytes_cons, hfree, reduceCtorEq, if_false] at hused
    simp only [freeBytes_append, freeBytes_cons, hfree, if_true] at hfreeBytes
    have hcounts : (info.account (usedBytes (pre ++ cut c (memProperAllocSize n) ++ post))
        (freeBytes (pre ++ cut c (memProperAllocSize n) ++ post))).Counts
          (splitChunk (memUnlinkChunk info c.addr) c.addr c.size (memProperAllocSize n)) := by
      have hunlink := memUnlinkChunk_counts info c.addr
      refine Info.Counts.trans ?_ (splitChunk_counts (memUnlinkChunk info c.addr) c _)
      refine ⟨hunlink.loBound, hunlink.hiBound, hunlink.totalSize, ?_, ?_⟩
      · simp only [Info.account, hunlink.usedSize, hused, usedBytes_append]
        omega
      · simp only [Info.account, hunlink.freeSize, hfreeBytes, freeBytes_append]
        omega
    have hseparate := (separate_free hfree).mp h.separate
    refine .inr ⟨pre, c, post, lists₂, rfl, hfree, hle, rfl, ?_, ?_⟩
    · exact h.next hcut (settled_replace [c] _ (by simpa using h.settled) (cut_settled c _))
        (separate_cut hseparate.1 hseparate.2.1 hseparate.2.2.2 c _) hcounts
    · exact (h.shape.unlink_undisturbed hfree).trans hothers

theorem Shape.merge {cs : List Chunk} (h : Shape info (front ++ cs ++ back) lists)
    (hcs : ∀ c ∈ cs, c.kind = .held) (htiles : ∀ x y, Tiles x cs y → x = a ∧ y = a + m + 16)
    (hm : m % 8 = 0) (hmin : shmemMinAlloc ≤ m) :
    (∃ lists', Shape (memLinkChunk (memSetChunkSize info a m) a)
      (front ++ ⟨a, m, .free⟩ :: back) lists') ∧
    Undisturbed (front ++ back) info (memLinkChunk (memSetChunkSize info a m) a) := by
  let merged : Chunk := ⟨a, m, .held⟩
  have hgood : GoodSize m := by
    obtain ⟨y, hstart, hback⟩ := tiles_append.mp h.tiles
    obtain ⟨x, hfront, hmid⟩ := tiles_append.mp hstart
    obtain ⟨rfl, rfl⟩ := htiles x y hmid
    have hlo := hfront.le
    have hhi := hback.le
    have hhigh := h.low.2.2
    exact ⟨hmin, hm, by omega⟩
  have hmerged : Shape info (front ++ merged :: back) lists := by
    have hretile := h.retile [merged] hcs (by simp [merged, hgood])
      (fun x y hxy => by
        obtain ⟨rfl, rfl⟩ := htiles x y hxy
        exact ⟨rfl, rfl⟩)
    simpa using hretile
  exact ⟨hmerged.release rfl, hmerged.release_undisturbed rfl⟩

theorem Tidy.prev_cases (h : Tidy info (pre ++ c :: post) lists) :
    (∃ front p, pre = front ++ [p] ∧ p.kind = .free ∧ p.stop = c.addr ∧
      (info.loBound < c.addr ∧ freeChunk info (c.addr - 8) = true) ∧
      chunkSize info (c.addr - 8) = p.size) ∨
    (¬(info.loBound < c.addr ∧ freeChunk info (c.addr - 8) = true) ∧
      ∀ d ∈ pre.getLast?, d.kind = .used) := by
  rcases eq_nil_or_concat' pre with rfl | ⟨front, p, rfl⟩
  · obtain ⟨haddr, -⟩ := h.shape.tiles
    exact .inr ⟨by omega, by simp⟩
  · have hp : p ∈ front ++ [p] ++ c :: post := by simp
    obtain ⟨mid, hfront, haddr, -⟩ := tiles_append.mp h.shape.tiles
    obtain ⟨start, -, hpaddr, hstop⟩ := tiles_append.mp hfront
    obtain rfl : p.stop = mid := hstop
    have hbounds := h.shape.tiles.bounds hp
    have htail : c.addr - 8 = p.addr + 8 + p.size := by
      unfold Chunk.stop at haddr
      omega
    rw [htail, h.shape.freeChunk_tail hp (h.settled p hp),
      h.shape.chunkSize_tail hp (h.settled p hp)]
    cases hkind : p.kind with
    | free =>
      refine .inl ⟨front, p, rfl, hkind, haddr.symm, ⟨?_, rfl⟩, rfl⟩
      unfold Chunk.stop at haddr
      omega
    | used => exact .inr ⟨by simp, by simp [hkind]⟩
    | held => exact absurd hkind (h.settled p hp)

theorem Tidy.next_cases (h : Tidy info (pre ++ c :: post) lists) :
    (∃ n back, post = n :: back ∧ n.kind = .free ∧ n.addr = c.stop ∧
      (c.stop < info.hiBound ∧ freeChunk info c.stop = true) ∧ chunkSize info c.stop = n.size) ∨
    (¬(c.stop < info.hiBound ∧ freeChunk info c.stop = true) ∧
      ∀ d ∈ post.head?, d.kind = .used) := by
  obtain ⟨mid, -, -, hpost⟩ := tiles_append.mp h.shape.tiles
  cases post with
  | nil =>
    have hstop : c.stop = info.hiBound := hpost
    exact .inr ⟨by omega, by simp⟩
  | cons n back =>
    have hn : n ∈ pre ++ c :: n :: back := by simp
    obtain ⟨haddr, -⟩ := hpost
    have hbounds := h.shape.tiles.bounds hn
    rw [← haddr, h.shape.freeChunk hn (h.settled n hn), h.shape.chunkSize hn (h.settled n hn)]
    cases hkind : n.kind with
    | free =>
      refine .inl ⟨n, back, rfl, hkind, rfl, ⟨?_, rfl⟩, rfl⟩
      unfold Chunk.stop at hbounds
      omega
    | used => exact .inr ⟨by simp, by simp [hkind]⟩
    | held => exact absurd hkind (h.settled n hn)

theorem Shape.join (left right : List Chunk)
    (h : Shape info (front ++ (left ++ c :: right) ++ back) lists) (hused : c.kind = .used)
    (hleft : ∀ d ∈ left, d.kind = .held) (hright : ∀ d ∈ right, d.kind = .held)
    (htiles : ∀ x y, Tiles x (left ++ c :: right) y → x = a ∧ y = a + m + 16) (hm : m % 8 = 0)
    (hmin : shmemMinAlloc ≤ m) :
    (∃ lists', Shape (memLinkChunk (memSetChunkSize info a m) a)
      (front ++ ⟨a, m, .free⟩ :: back) lists') ∧
    Undisturbed (front ++ back) info (memLinkChunk (memSetChunkSize info a m) a) := by
  have hheld : Shape info (front ++ (left ++ c.withKind .held :: right) ++ back) lists := by
    have hhold := (show Shape info ((front ++ left) ++ c :: (right ++ back)) lists by
      simpa using h).hold hused
    simpa using hhold
  refine hheld.merge (fun d hd => ?_) (fun x y hxy => htiles x y ?_) hm hmin
  · rw [mem_append, mem_cons] at hd
    rcases hd with hd | rfl | hd
    · exact hleft d hd
    · rfl
    · exact hright d hd
  · exact Shape.tiles_withKind hxy c.kind

def joinedSize (info : Info) (c : Chunk) : ℕ :=
  c.size +
    (if c.stop < info.hiBound ∧ freeChunk info c.stop = true then chunkSize info c.stop + 16
      else 0) +
    (if info.loBound < c.addr ∧ freeChunk info (c.addr - 8) = true then
      chunkSize info (c.addr - 8) + 16 else 0)

structure Freed (info info' : Info) (pre post : List Chunk) (c : Chunk) : Prop where
  result : ∃ front left right back m lists', pre = front ++ left ∧ post = right ++ back ∧
    (∀ d ∈ left ++ right, d.kind = .free) ∧ m.kind = .free ∧ m.size = joinedSize info c ∧
    Tidy info' (front ++ m :: back) lists' ∧ Undisturbed (front ++ back) info info'

theorem separate_split (cs : List Chunk) (h : (front ++ cs ++ back).IsChain NextUsed) :
    front.IsChain NextUsed ∧ back.IsChain NextUsed := by
  rw [isChain_append, isChain_append] at h
  exact ⟨h.1.1, h.2.1⟩

theorem separate_merged (hfront : front.IsChain NextUsed) (hback : back.IsChain NextUsed)
    (hprev : ∀ d ∈ front.getLast?, d.kind = .used) (hnext : ∀ d ∈ back.head?, d.kind = .used)
    (a m : ℕ) :
    (front ++ ⟨a, m, .free⟩ :: back).IsChain NextUsed :=
  (separate_free rfl).mpr ⟨hfront, hback, hprev, hnext⟩

theorem chunkSize_account (info : Info) (used free ptr : ℕ) :
    chunkSize (info.account used free) ptr = chunkSize info ptr := rfl

theorem usedBytes_of_free (h : ∀ d ∈ cs, d.kind = .free) : usedBytes cs = 0 :=
  List.sum_eq_zero (by
    simp only [mem_map]
    rintro x ⟨d, hd, rfl⟩
    simp [h d hd])

theorem Freed.joined {unlinked : Info} {lists' : ℕ → List ℕ} {free : ℕ} (left right : List Chunk)
    (h : Tidy info (pre ++ c :: post) lists) (hused : c.kind = .used)
    (hpre : pre = front ++ left) (hpost : post = right ++ back)
    (hfree : ∀ d ∈ left ++ right, d.kind = .free)
    (hshape : Shape unlinked (front ++ (left.map (·.withKind .held) ++
      c :: right.map (·.withKind .held)) ++ back) lists')
    (hcounts : (info.account (info.usedSize - c.size) free).Counts unlinked)
    (hbytes : free + freeBytes (left ++ right) = info.freeSize + m)
    (hothers : Undisturbed (front ++ back) info unlinked)
    (hprevUsed : ∀ d ∈ front.getLast?, d.kind = .used)
    (hnextUsed : ∀ d ∈ back.head?, d.kind = .used)
    (htiles : ∀ x y, Tiles x (left.map (·.withKind .held) ++
      c :: right.map (·.withKind .held)) y → x = a ∧ y = a + m + 16)
    (hm : m % 8 = 0) (hmin : shmemMinAlloc ≤ m) (hsize : m = joinedSize info c)
    (hresult : memFree info (c.addr + 8) = memLinkChunk (memSetChunkSize unlinked a m) a) :
    Freed info (memFree info (c.addr + 8)) pre post c := by
  subst hpre hpost
  obtain ⟨⟨lists₂, hjoined⟩, hjoin⟩ := Shape.join _ _ hshape hused (by simp) (by simp) htiles hm hmin
  have hleft := usedBytes_of_free left fun d hd => hfree d (by simp [hd])
  have hright := usedBytes_of_free right fun d hd => hfree d (by simp [hd])
  have hinfoUsed := h.used
  have hinfoFree := h.free
  simp only [usedBytes_append, usedBytes_cons, hused, hleft, hright, if_true] at hinfoUsed
  simp only [freeBytes_append, freeBytes_cons, hused, reduceCtorEq, if_false]
    at hinfoFree hbytes
  have hsplit := separate_split (left ++ c :: right) (by simpa using h.separate)
  rw [hresult]
  refine ⟨front, left, right, back, ⟨a, m, .free⟩, lists₂, rfl, rfl, hfree, rfl, hsize, ?_,
    hothers.trans hjoin⟩
  refine h.next hjoined ?_ (separate_merged hsplit.1 hsplit.2 hprevUsed hnextUsed _ _) ?_
  · simpa using settled_replace (left ++ c :: right) [⟨a, m, .free⟩] (by simpa using h.settled)
      (by simp)
  · refine Info.Counts.trans ?_ (hcounts.trans (release_counts _ _ _))
    refine ⟨rfl, rfl, rfl, ?_, ?_⟩ <;> simp [Info.account] <;> omega

theorem memFree_alone (h : Tidy info (pre ++ c :: post) lists) (hused : c.kind = .used)
    (hprev : ¬(info.loBound < c.addr ∧ freeChunk info (c.addr - 8) = true))
    (hprevUsed : ∀ d ∈ pre.getLast?, d.kind = .used)
    (hnext : ¬(c.stop < info.hiBound ∧ freeChunk info c.stop = true))
    (hnextUsed : ∀ d ∈ post.head?, d.kind = .used) :
    Freed info (memFree info (c.addr + 8)) pre post c := by
  have hc : c ∈ pre ++ c :: post := by simp
  have hgood := h.shape.sizes c hc
  have hsize := h.shape.chunkSize hc (h.settled c hc)
  have hstop : c.addr + 8 + c.size + 8 = c.stop := by
    unfold Chunk.stop
    omega
  refine Freed.joined [] [] h hused (by simp) (by simp) (by simp)
    (by simpa using h.shape.account (info.usedSize - c.size) (info.freeSize + c.size))
    ⟨rfl, rfl, rfl, rfl, rfl⟩ (by simp) (fun _ _ _ _ _ _ => rfl) hprevUsed hnextUsed
    (a := c.addr) (m := c.size) (fun x y hxy => ⟨hxy.1.symm, hxy.2.symm⟩) hgood.2.1 hgood.1
    (by simp [joinedSize, hprev, hnext]) ?_
  unfold memFree shmemSizeField
  simp only [Nat.add_sub_cancel, hsize, hstop, hprev, hnext, false_and, if_false]

theorem memFree_prev (h : Tidy info ((front ++ [p]) ++ c :: post) lists) (hused : c.kind = .used)
    (hpfree : p.kind = .free) (hpstop : p.stop = c.addr)
    (hprev : info.loBound < c.addr ∧ freeChunk info (c.addr - 8) = true)
    (hpsize : chunkSize info (c.addr - 8) = p.size)
    (hnext : ¬(c.stop < info.hiBound ∧ freeChunk info c.stop = true))
    (hnextUsed : ∀ d ∈ post.head?, d.kind = .used) :
    Freed info (memFree info (c.addr + 8)) (front ++ [p]) post c := by
  have hc : c ∈ (front ++ [p]) ++ c :: post := by simp
  have hp : p ∈ (front ++ [p]) ++ c :: post := by simp
  have hgood := h.shape.sizes c hc
  have hpgood := h.shape.sizes p hp
  have hsize := h.shape.chunkSize hc (h.settled c hc)
  have hpsize' := h.shape.chunkSize hp (h.settled p hp)
  have hstop : c.addr + 8 + c.size + 8 = c.stop := by
    unfold Chunk.stop
    omega
  have hpaddr : c.addr - 8 - p.size - 8 = p.addr := by
    unfold Chunk.stop at hpstop
    omega
  have hcounted : Shape (info.account (info.usedSize - c.size) (info.freeSize + c.size + 16))
      (front ++ p :: (c :: post)) lists := by
    simpa using h.shape.account (info.usedSize - c.size) (info.freeSize + c.size + 16)
  obtain ⟨lists₁, hunlinked⟩ := hcounted.unlink hpfree
  have hpused := ((separate_free hpfree).mp (by simpa using h.separate :
    (front ++ p :: (c :: post)).IsChain NextUsed)).2.2.1
  refine Freed.joined [p] [] h hused rfl (by simp) (by simp [hpfree])
    (by simpa using hunlinked) (memUnlinkChunk_counts _ _) (by simp [hpfree]; omega)
    (Undisturbed.subset (hcounted.unlink_undisturbed hpfree) fun d hd => Shape.mem_of_others hd)
    hpused hnextUsed (a := p.addr) (m := c.size + (16 + p.size)) (fun x y hxy => ?_)
    (by have := hgood.2.1; have := hpgood.2.1; omega) (by have := hgood.1; omega)
    (by simp [joinedSize, hprev, hnext, hpsize]; omega) ?_
  · obtain ⟨rfl, haddr, hy⟩ := hxy
    obtain rfl : c.stop = y := hy
    refine ⟨rfl, ?_⟩
    unfold Chunk.stop at hpstop ⊢
    omega
  · unfold memFree shmemSizeField
    simp only [Nat.add_sub_cancel, hsize, hstop, hprev, hnext, and_false, if_false, if_true,
      and_self, hpsize, hpaddr, chunkSize_account, hpsize']
    rfl

theorem memFree_next {n : Chunk} (h : Tidy info (pre ++ c :: (n :: back)) lists)
    (hused : c.kind = .used) (hnfree : n.kind = .free) (hnaddr : n.addr = c.stop)
    (hprev : ¬(info.loBound < c.addr ∧ freeChunk info (c.addr - 8) = true))
    (hprevUsed : ∀ d ∈ pre.getLast?, d.kind = .used)
    (hnext : c.stop < info.hiBound ∧ freeChunk info c.stop = true)
    (hnsize : chunkSize info c.stop = n.size) :
    Freed info (memFree info (c.addr + 8)) pre (n :: back) c := by
  have hc : c ∈ pre ++ c :: (n :: back) := by simp
  have hgood := h.shape.sizes c hc
  have hngood := h.shape.sizes n (by simp)
  have hsize := h.shape.chunkSize hc (h.settled c hc)
  have hstop : c.addr + 8 + c.size + 8 = c.stop := by
    unfold Chunk.stop
    omega
  have hcounted : Shape (info.account (info.usedSize - c.size) (info.freeSize + c.size + 16))
      ((pre ++ [c]) ++ n :: back) lists := by
    simpa using h.shape.account (info.usedSize - c.size) (info.freeSize + c.size + 16)
  obtain ⟨lists₁, hunlinked⟩ := hcounted.unlink hnfree
  have hnused := ((separate_free hnfree).mp (by simpa using h.separate :
    ((pre ++ [c]) ++ n :: back).IsChain NextUsed)).2.2.2
  refine Freed.joined [] [n] h hused (by simp) rfl (by simp [hnfree])
    (by simpa using hunlinked) (memUnlinkChunk_counts _ _) (by simp [hnfree]; omega)
    (Undisturbed.subset (hcounted.unlink_undisturbed hnfree) ?_) hprevUsed hnused
    (a := c.addr) (m := c.size + (16 + n.size)) (fun x y hxy => ?_)
    (by have := hgood.2.1; have := hngood.2.1; omega) (by have := hgood.1; omega)
    (by simp [joinedSize, hprev, hnext, hnsize]; omega) ?_
  · intro d hd
    rw [mem_append] at hd
    simp only [mem_append]
    tauto
  · obtain ⟨rfl, haddr, hy⟩ := hxy
    obtain rfl : n.stop = y := hy
    refine ⟨rfl, ?_⟩
    unfold Chunk.stop at hnaddr ⊢
    omega
  · unfold memFree shmemSizeField
    simp only [Nat.add_sub_cancel, hsize, hstop, hprev, hnext, false_and, if_false, if_true,
      and_self, chunkSize_account, hnsize, hnaddr]
    rfl

theorem memFree_both {n : Chunk} (h : Tidy info ((front ++ [p]) ++ c :: (n :: back)) lists)
    (hused : c.kind = .used) (hpfree : p.kind = .free) (hpstop : p.stop = c.addr)
    (hprev : info.loBound < c.addr ∧ freeChunk info (c.addr - 8) = true)
    (hpsize : chunkSize info (c.addr - 8) = p.size) (hnfree : n.kind = .free)
    (hnaddr : n.addr = c.stop) (hnext : c.stop < info.hiBound ∧ freeChunk info c.stop = true)
    (hnsize : chunkSize info c.stop = n.size) :
    Freed info (memFree info (c.addr + 8)) (front ++ [p]) (n :: back) c := by
  have hc : c ∈ (front ++ [p]) ++ c :: (n :: back) := by simp
  have hp : p ∈ (front ++ [p]) ++ c :: (n :: back) := by simp
  have hgood := h.shape.sizes c hc
  have hpgood := h.shape.sizes p hp
  have hngood := h.shape.sizes n (by simp)
  have hsize := h.shape.chunkSize hc (h.settled c hc)
  have hpsize' := h.shape.chunkSize hp (h.settled p hp)
  have hstop : c.addr + 8 + c.size + 8 = c.stop := by
    unfold Chunk.stop
    omega
  have hpaddr : c.addr - 8 - p.size - 8 = p.addr := by
    unfold Chunk.stop at hpstop
    omega
  let counted := info.account (info.usedSize - c.size) (info.freeSize + c.size + 32)
  have hcounted : Shape counted (front ++ p :: (c :: n :: back)) lists := by
    simpa using h.shape.account (info.usedSize - c.size) (info.freeSize + c.size + 32)
  obtain ⟨lists₁, hunlinked₁⟩ := hcounted.unlink hpfree
  have hunlinked : Shape (memUnlinkChunk counted p.addr)
      ((front ++ [p.withKind .held, c]) ++ n :: back) lists₁ := by simpa using hunlinked₁
  obtain ⟨lists₂, hunlinked₂⟩ := hunlinked.unlink hnfree
  have hpused := ((separate_free hpfree).mp (by simpa using h.separate :
    (front ++ p :: (c :: n :: back)).IsChain NextUsed)).2.2.1
  have hnused := ((separate_free hnfree).mp (by simpa using h.separate :
    ((front ++ [p, c]) ++ n :: back).IsChain NextUsed)).2.2.2
  refine Freed.joined [p] [n] h hused rfl rfl (by simp [hpfree, hnfree])
    (by simpa using hunlinked₂)
    ((memUnlinkChunk_counts counted _).trans (memUnlinkChunk_counts _ _))
    (by simp [hpfree, hnfree]; omega)
    ((Undisturbed.subset (hcounted.unlink_undisturbed hpfree) ?_).trans
      ((hunlinked.unlink_undisturbed hnfree).subset ?_)) hpused hnused
    (a := p.addr) (m := c.size + (32 + p.size + n.size)) (fun x y hxy => ?_)
    (by have := hgood.2.1; have := hpgood.2.1; have := hngood.2.1; omega)
    (by have := hgood.1; omega) (by simp [joinedSize, hprev, hnext, hpsize, hnsize]; omega) ?_
  · intro d hd
    rw [mem_append] at hd
    simp only [mem_append, mem_cons]
    tauto
  · intro d hd
    rw [mem_append] at hd
    simp only [mem_append]
    tauto
  · obtain ⟨rfl, haddr, haddr', hy⟩ := hxy
    obtain rfl : n.stop = y := hy
    refine ⟨rfl, ?_⟩
    unfold Chunk.stop at hpstop hnaddr ⊢
    omega
  · unfold memFree shmemSizeField
    simp only [Nat.add_sub_cancel, hsize, hstop, hprev, hnext, if_true, and_self, hpsize, hpaddr,
      chunkSize_account, hpsize', hnsize, hnaddr]
    rfl

theorem memFree_freed (h : Tidy info (pre ++ c :: post) lists) (hused : c.kind = .used) :
    Freed info (memFree info (c.addr + 8)) pre post c := by
  rcases h.prev_cases with ⟨front, p, rfl, hpfree, hpstop, hprev, hpsize⟩ | ⟨hprev, hprevUsed⟩ <;>
    rcases h.next_cases with ⟨n, back, rfl, hnfree, hnaddr, hnext, hnsize⟩ | ⟨hnext, hnextUsed⟩
  · exact memFree_both h hused hpfree hpstop hprev hpsize hnfree hnaddr hnext hnsize
  · exact memFree_prev h hused hpfree hpstop hprev hpsize hnext hnextUsed
  · exact memFree_next h hused hnfree hnaddr hprev hprevUsed hnext hnsize
  · exact memFree_alone h hused hprev hprevUsed hnext hnextUsed

end Zabbix.Shmem
