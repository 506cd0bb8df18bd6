import Zabbix.Foundation.DoublyLinked
import Zabbix.Shmem.Memalloc
import Mathlib.Data.List.Nodup
import Mathlib.Data.Nat.Bitwise

/-!
# The shape of a pool

The chunks of a pool, in the order of their addresses, and the bucket lists that their free
ones are in. While an operation is under way the chunks it works on are `held`: the words in
them mean nothing yet.
-/

namespace Zabbix.Shmem

open Nat List Function Zabbix.DoublyLinked

variable {hi i p a : ℕ} {info' : Info}

inductive Kind
  | used
  | free
  | held
  deriving DecidableEq

structure Chunk where
  addr : ℕ
  size : ℕ
  kind : Kind

namespace Chunk

def stop (c : Chunk) : ℕ := c.addr + c.size + 16

def word (c : Chunk) : ℕ := if c.kind = .used then shmemFlgUsed ||| c.size else c.size

def withKind (c : Chunk) (kind : Kind) : Chunk := { c with kind }

@[simp] theorem withKind_fields (c : Chunk) (kind : Kind) :
    (c.withKind kind).addr = c.addr ∧ (c.withKind kind).size = c.size ∧
      (c.withKind kind).stop = c.stop ∧ (c.withKind kind).kind = kind :=
  ⟨rfl, rfl, rfl, rfl⟩

end Chunk

def Tiles : ℕ → List Chunk → ℕ → Prop
  | lo, [], hi => lo = hi
  | lo, c :: cs, hi => c.addr = lo ∧ Tiles c.stop cs hi

variable {cs ds : List Chunk}

theorem tiles_append {lo : ℕ} :
    Tiles lo (cs ++ ds) hi ↔ ∃ mid, Tiles lo cs mid ∧ Tiles mid ds hi := by
  induction cs generalizing lo with
  | nil => simp [Tiles]
  | cons c cs ih =>
    simp only [cons_append, Tiles, ih]
    constructor
    · rintro ⟨hc, mid, hcs, hds⟩
      exact ⟨mid, ⟨hc, hcs⟩, hds⟩
    · rintro ⟨mid, ⟨hc, hcs⟩, hds⟩
      exact ⟨hc, mid, hcs, hds⟩

theorem Tiles.le {lo : ℕ} (h : Tiles lo cs hi) : lo ≤ hi := by
  induction cs generalizing lo with
  | nil => exact le_of_eq h
  | cons c cs ih =>
    obtain ⟨rfl, hcs⟩ := h
    have := ih hcs
    unfold Chunk.stop at this
    omega

theorem Tiles.bounds {lo : ℕ} (h : Tiles lo cs hi) {c : Chunk} (hc : c ∈ cs) :
    lo ≤ c.addr ∧ c.stop ≤ hi := by
  induction cs generalizing lo with
  | nil => cases hc
  | cons d cs ih =>
    obtain ⟨rfl, hcs⟩ := h
    rcases mem_cons.mp hc with rfl | hc
    · exact ⟨le_rfl, hcs.le⟩
    · have := ih hcs hc
      unfold Chunk.stop at this ⊢
      omega

theorem Tiles.apart {lo : ℕ} (h : Tiles lo cs hi) {c d : Chunk} (hc : c ∈ cs) (hd : d ∈ cs) :
    c = d ∨ c.stop ≤ d.addr ∨ d.stop ≤ c.addr := by
  induction cs generalizing lo with
  | nil => cases hc
  | cons e cs ih =>
    obtain ⟨rfl, hcs⟩ := h
    rcases mem_cons.mp hc with hc | hc <;> rcases mem_cons.mp hd with hd | hd
    · exact .inl (hc.trans hd.symm)
    · exact .inr (.inl (hc ▸ (hcs.bounds hd).1))
    · exact .inr (.inr (hd ▸ (hcs.bounds hc).1))
    · exact ih hcs hc hd

theorem Tiles.eq_of_addr {lo : ℕ} (h : Tiles lo cs hi) {c d : Chunk} (hc : c ∈ cs) (hd : d ∈ cs)
    (haddr : c.addr = d.addr) : c = d := by
  rcases h.apart hc hd with heq | hlt | hlt
  · exact heq
  · unfold Chunk.stop at hlt
    omega
  · unfold Chunk.stop at hlt
    omega

theorem Tiles.split {lo : ℕ} {pre post : List Chunk} {c : Chunk}
    (h : Tiles lo (pre ++ c :: post) hi) :
    (∀ d ∈ pre, d.stop ≤ c.addr) ∧ ∀ d ∈ post, c.stop ≤ d.addr := by
  obtain ⟨mid, hpre, rfl, hpost⟩ := tiles_append.mp h
  exact ⟨fun d hd => (hpre.bounds hd).2, fun d hd => (hpost.bounds hd).1⟩

theorem Tiles.replace {lo : ℕ} {pre post : List Chunk} (h : Tiles lo (pre ++ cs ++ post) hi)
    (hds : ∀ a b, Tiles a cs b → Tiles a ds b) :
    Tiles lo (pre ++ ds ++ post) hi := by
  obtain ⟨b, hpre, hpost⟩ := tiles_append.mp h
  obtain ⟨a, hpre, hcs⟩ := tiles_append.mp hpre
  exact tiles_append.mpr ⟨b, tiles_append.mpr ⟨a, hpre, hds a b hcs⟩, hpost⟩

def GoodSize (size : ℕ) : Prop := shmemMinAlloc ≤ size ∧ size % 8 = 0 ∧ size < 2 ^ 63

theorem and_flg_of_lt {size : ℕ} (h : size < 2 ^ 63) : size &&& shmemFlgUsed = 0 := by
  unfold shmemFlgUsed
  rw [and_two_pow, testBit_lt_two_pow h]
  rfl

theorem or_flg_and_flg (size : ℕ) : (shmemFlgUsed ||| size) &&& shmemFlgUsed ≠ 0 := by
  unfold shmemFlgUsed
  rw [and_two_pow, testBit_or, testBit_two_pow_self]
  simp

theorem Chunk.word_size {c : Chunk} (h : c.size < 2 ^ 63) :
    c.word &&& (shmemFlgUsed - 1) = c.size := by
  unfold Chunk.word shmemFlgUsed
  rw [and_two_pow_sub_one_eq_mod]
  split
  · have hor : 2 ^ 63 ||| c.size = 2 ^ 63 + c.size := by
      simpa using (two_pow_add_eq_or_of_lt h 1).symm
    rw [hor]
    omega
  · exact mod_eq_of_lt h

theorem Chunk.word_free {c : Chunk} (h : c.size < 2 ^ 63) :
    c.word &&& shmemFlgUsed = 0 ↔ c.kind ≠ .used := by
  unfold Chunk.word
  split
  · next hused => simp [hused, or_flg_and_flg]
  · next hused => simp [hused, and_flg_of_lt h]

def FreeAt (chunks : List Chunk) (i p : ℕ) : Prop :=
  ∃ c ∈ chunks, c.addr = p ∧ c.kind = .free ∧ memBucketBySize c.size = i

theorem freeAt_of_not_free {pre post : List Chunk} {c : Chunk} (h : c.kind ≠ .free) (i p : ℕ) :
    FreeAt (pre ++ c :: post) i p ↔ FreeAt (pre ++ post) i p := by
  unfold FreeAt
  constructor
  · rintro ⟨d, hd, hdp, hfree, hbucket⟩
    refine ⟨d, ?_, hdp, hfree, hbucket⟩
    rcases mem_append.mp hd with hd | hd
    · exact mem_append_left _ hd
    · rcases mem_cons.mp hd with rfl | hd
      · exact absurd hfree h
      · exact mem_append_right _ hd
  · rintro ⟨d, hd, hrest⟩
    refine ⟨d, ?_, hrest⟩
    rw [mem_append, mem_cons]
    rw [mem_append] at hd
    tauto

theorem freeAt_of_free {pre post : List Chunk} {c : Chunk} (h : c.kind = .free) (i p : ℕ) :
    FreeAt (pre ++ c :: post) i p ↔
      (c.addr = p ∧ memBucketBySize c.size = i) ∨ FreeAt (pre ++ post) i p := by
  unfold FreeAt
  constructor
  · rintro ⟨d, hd, hdp, hfree, hbucket⟩
    rcases mem_append.mp hd with hd | hd
    · exact .inr ⟨d, mem_append_left _ hd, hdp, hfree, hbucket⟩
    · rcases mem_cons.mp hd with rfl | hd
      · exact .inl ⟨hdp, hbucket⟩
      · exact .inr ⟨d, mem_append_right _ hd, hdp, hfree, hbucket⟩
  · rintro (⟨hdp, hbucket⟩ | ⟨d, hd, hrest⟩)
    · exact ⟨c, by simp, hdp, h, hbucket⟩
    · refine ⟨d, ?_, hrest⟩
      rw [mem_append, mem_cons]
      rw [mem_append] at hd
      tauto

structure Shape (info : Info) (chunks : List Chunk) (lists : ℕ → List ℕ) : Prop where
  low : 0 < info.loBound ∧ info.loBound % 8 = 0 ∧ info.hiBound < info.loBound + 2 ^ 63
  tiles : Tiles info.loBound chunks info.hiBound
  sizes : ∀ c ∈ chunks, GoodSize c.size
  words : ∀ c ∈ chunks, c.kind ≠ .held →
    info.mem c.addr = c.word ∧ info.mem (c.addr + 8 + c.size) = c.word
  heads : ∀ i, info.buckets i = (lists i).headD 0
  linked : ∀ i, Linked 8 16 info.mem 0 (lists i) 0
  nodup : ∀ i, (lists i).Nodup
  member : ∀ i p, p ∈ lists i ↔ FreeAt chunks i p

namespace Shape

variable {info : Info} {chunks pre post : List Chunk} {lists : ℕ → List ℕ} {c d : Chunk}

variable (h : Shape info chunks lists)

include h

theorem addr_pos (hc : c ∈ chunks) : 0 < c.addr := h.low.1.trans_le (h.tiles.bounds hc).1

theorem zero_not_mem (i : ℕ) : 0 ∉ lists i := by
  intro hzero
  obtain ⟨c, hc, haddr, -⟩ := (h.member i 0).mp hzero
  have := h.addr_pos hc
  omega

theorem fields_apart (hc : c ∈ chunks) (hd : d ∈ chunks) :
    (c.addr ≠ d.addr + 8 ∧ c.addr ≠ d.addr + 16) ∧
      c.addr + 8 + c.size ≠ d.addr + 8 ∧ c.addr + 8 + c.size ≠ d.addr + 16 ∧
      c.addr + 8 ≠ d.addr + 16 := by
  have hcs := (h.sizes c hc).1
  have hds := (h.sizes d hd).1
  unfold shmemMinAlloc at hcs hds
  rcases h.tiles.apart hc hd with rfl | hlt | hlt
  · omega
  · unfold Chunk.stop at hlt
    omega
  · unfold Chunk.stop at hlt
    omega

theorem apart (i : ℕ) : Apart 8 16 (lists i) := by
  intro p hp q hq
  obtain ⟨c, hc, rfl, -⟩ := (h.member i p).mp hp
  obtain ⟨d, hd, rfl, -⟩ := (h.member i q).mp hq
  exact (h.fields_apart hc hd).2.2.2

theorem ne_of_mem {j q : ℕ} (hij : i ≠ j) (hp : p ∈ lists i) (hq : q ∈ lists j) : p ≠ q := by
  rintro rfl
  obtain ⟨c, hc, hcp, -, rfl⟩ := (h.member i p).mp hp
  obtain ⟨d, hd, hdp, -, rfl⟩ := (h.member j p).mp hq
  obtain rfl := h.tiles.eq_of_addr hc hd (hcp.trans hdp.symm)
  exact hij rfl

theorem chunkSize (hc : c ∈ chunks) (hkind : c.kind ≠ .held) : chunkSize info c.addr = c.size := by
  unfold Shmem.chunkSize
  rw [(h.words c hc hkind).1]
  exact c.word_size (h.sizes c hc).2.2

theorem chunkSize_tail (hc : c ∈ chunks) (hkind : c.kind ≠ .held) :
    Shmem.chunkSize info (c.addr + 8 + c.size) = c.size := by
  unfold Shmem.chunkSize
  rw [(h.words c hc hkind).2]
  exact c.word_size (h.sizes c hc).2.2

theorem freeChunk (hc : c ∈ chunks) (hkind : c.kind ≠ .held) :
    freeChunk info c.addr = true ↔ c.kind = .free := by
  unfold Shmem.freeChunk
  rw [(h.words c hc hkind).1, decide_eq_true_eq, c.word_free (h.sizes c hc).2.2]
  cases hk : c.kind with
  | used | free => simp
  | held => exact absurd hk hkind

theorem freeChunk_tail (hc : c ∈ chunks) (hkind : c.kind ≠ .held) :
    Shmem.freeChunk info (c.addr + 8 + c.size) = true ↔ c.kind = .free := by
  unfold Shmem.freeChunk
  rw [(h.words c hc hkind).2, decide_eq_true_eq, c.word_free (h.sizes c hc).2.2]
  cases hk : c.kind with
  | used | free => simp
  | held => exact absurd hk hkind

theorem frame {mem : ℕ → ℕ} (hwords : ∀ d ∈ chunks, d.kind ≠ .held →
      mem d.addr = info.mem d.addr ∧ mem (d.addr + 8 + d.size) = info.mem (d.addr + 8 + d.size))
    (hlinks : ∀ d ∈ chunks, d.kind = .free →
      mem (d.addr + 8) = info.mem (d.addr + 8) ∧ mem (d.addr + 16) = info.mem (d.addr + 16)) :
    Shape { info with mem } chunks lists where
  low := h.low
  tiles := h.tiles
  sizes := h.sizes
  words d hd hkind := by
    have hw := h.words d hd hkind
    exact ⟨(hwords d hd hkind).1.trans hw.1, (hwords d hd hkind).2.trans hw.2⟩
  heads := h.heads
  linked i := (h.linked i).frame fun p hp => by
    obtain ⟨d, hd, rfl, hfree, -⟩ := (h.member i p).mp hp
    exact hlinks d hd hfree
  nodup := h.nodup
  member := h.member

theorem account (used free : ℕ) : Shape (info.account used free) chunks lists :=
  ⟨h.low, h.tiles, h.sizes, h.words, h.heads, h.linked, h.nodup, h.member⟩

omit h

theorem writeHeld (h : Shape info (pre ++ c :: post) lists) (hheld : c.kind = .held)
    (ha : c.addr ≤ a ∧ a < c.stop) (v : ℕ) : Shape (info.write a v) (pre ++ c :: post) lists := by
  have hother : ∀ d ∈ pre ++ c :: post, d.kind ≠ .held → d.stop ≤ c.addr ∨ c.stop ≤ d.addr := by
    intro d hd hkind
    rcases h.tiles.apart hd (mem_append_right pre (mem_cons_self ..)) with rfl | hlt | hlt
    · exact absurd hheld hkind
    · exact .inl hlt
    · exact .inr hlt
  refine h.frame (fun d hd hkind => ?_) fun d hd hfree => ?_
  · have hs := (h.sizes d hd).1
    have hd := hother d hd hkind
    unfold Chunk.stop shmemMinAlloc at *
    exact ⟨update_of_ne (by omega) _ _, update_of_ne (by omega) _ _⟩
  · have hs := (h.sizes d hd).1
    have hd := hother d hd (by simp [hfree])
    unfold Chunk.stop shmemMinAlloc at *
    exact ⟨update_of_ne (by omega) _ _, update_of_ne (by omega) _ _⟩

theorem mem_withKind {kind : Kind} (hd : d ∈ pre ++ c.withKind kind :: post) :
    d = c.withKind kind ∨ d ∈ pre ++ c :: post := by
  rw [mem_append, mem_cons] at hd ⊢
  tauto

theorem tiles_withKind {lo : ℕ} (h : Tiles lo (pre ++ c :: post) hi) (kind : Kind) :
    Tiles lo (pre ++ c.withKind kind :: post) hi := by
  obtain ⟨mid, hpre, hc, hpost⟩ := tiles_append.mp h
  exact tiles_append.mpr ⟨mid, hpre, hc, hpost⟩

theorem sizes_withKind (h : ∀ d ∈ pre ++ c :: post, GoodSize d.size) (kind : Kind) :
    ∀ d ∈ pre ++ c.withKind kind :: post, GoodSize d.size := by
  intro d hd
  rcases mem_withKind hd with rfl | hd
  · exact h c (mem_append_right pre (mem_cons_self ..))
  · exact h d hd

theorem hold (h : Shape info (pre ++ c :: post) lists) (hused : c.kind = .used) :
    Shape info (pre ++ c.withKind .held :: post) lists where
  low := h.low
  tiles := tiles_withKind h.tiles .held
  sizes := sizes_withKind h.sizes .held
  words d hd hkind := by
    rcases mem_withKind hd with rfl | hd
    · exact absurd rfl hkind
    · exact h.words d hd hkind
  heads := h.heads
  linked := h.linked
  nodup := h.nodup
  member i p := by rw [h.member, freeAt_of_not_free (by simp [hused]), freeAt_of_not_free (by simp)]

theorem setUsed (h : Shape info (pre ++ c :: post) lists) (hheld : c.kind = .held) :
    Shape (memSetUsedChunkSize info c.addr c.size) (pre ++ c.withKind .used :: post) lists := by
  have hwritten : Shape (memSetUsedChunkSize info c.addr c.size) (pre ++ c :: post) lists := by
    unfold memSetUsedChunkSize shmemSizeField
    refine (h.writeHeld hheld ?_ _).writeHeld hheld ?_ _ <;> unfold Chunk.stop <;> omega
  refine
    { low := hwritten.low
      tiles := tiles_withKind hwritten.tiles .used
      sizes := sizes_withKind hwritten.sizes .used
      words := fun d hd hkind => ?_
      heads := hwritten.heads
      linked := hwritten.linked
      nodup := hwritten.nodup
      member := fun i p => ?_ }
  · rcases mem_withKind hd with rfl | hd
    · have hword : (c.withKind .used).word = shmemFlgUsed ||| c.size := if_pos rfl
      rw [hword]
      have hne : c.addr ≠ c.addr + shmemSizeField + c.size := by
        unfold shmemSizeField
        omega
      exact ⟨(update_of_ne hne _ _).trans (update_self _ _ _), update_self _ _ _⟩
    · exact hwritten.words d hd hkind
  · rw [hwritten.member, freeAt_of_not_free (by simp [hheld]), freeAt_of_not_free (by simp)]

theorem memLinkChunk_eq (info : Info) (chunk : ℕ) :
    memLinkChunk info chunk =
      { info with
        mem := pushFront 8 16 info.mem
          (info.buckets (memBucketBySize (Shmem.chunkSize info chunk))) chunk
        buckets := update info.buckets
          (memBucketBySize (Shmem.chunkSize info chunk)) chunk } := by
  unfold memLinkChunk pushFront memSetPrevChunk memSetNextChunk Info.setBucket Info.write
    shmemSizeField
  by_cases h : info.buckets (memBucketBySize (Shmem.chunkSize info chunk)) = 0 <;> simp [h]

theorem memUnlinkChunk_eq (info : Info) (chunk : ℕ) :
    memUnlinkChunk info chunk =
      { info with
        mem := unlink 8 16 info.mem chunk
        buckets := if info.mem (chunk + 8) = 0 then
            update info.buckets (memBucketBySize (Shmem.chunkSize info chunk))
              (info.mem (chunk + 16))
          else info.buckets } := by
  unfold memUnlinkChunk unlink memGetPrevChunk memGetNextChunk memSetPrevChunk memSetNextChunk
    Info.setBucket Info.write shmemSizeField
  by_cases hprev : info.mem (chunk + 8) = 0 <;> by_cases hnext : info.mem (chunk + 16) = 0 <;>
    simp [hprev, hnext]

theorem link (h : Shape info (pre ++ c :: post) lists) (hheld : c.kind = .held)
    (hword : info.mem c.addr = c.size ∧ info.mem (c.addr + 8 + c.size) = c.size) :
    ∃ lists', Shape (memLinkChunk info c.addr) (pre ++ c.withKind .free :: post) lists' := by
  have hc : c ∈ pre ++ c :: post := mem_append_right pre (mem_cons_self ..)
  have hsize : Shmem.chunkSize info c.addr = c.size := by
    unfold Shmem.chunkSize shmemFlgUsed
    rw [hword.1, and_two_pow_sub_one_eq_mod, mod_eq_of_lt (h.sizes c hc).2.2]
  rw [memLinkChunk_eq, hsize]
  generalize hindex : memBucketBySize c.size = index
  -- `c` is in no list yet
  have hfresh : ∀ i, ∀ p ∈ lists i, c.addr ≠ p := by
    rintro i p hp heq
    obtain ⟨d, hd, hdp, hfree, -⟩ := (h.member i p).mp hp
    obtain rfl := h.tiles.eq_of_addr hd hc (hdp.trans heq.symm)
    rw [hheld] at hfree
    cases hfree
  have hapart : Apart 8 16 (c.addr :: lists index) := by
    have hfield : ∀ p ∈ c.addr :: lists index, ∃ d ∈ pre ++ c :: post, d.addr = p := by
      intro p hp
      rcases mem_cons.mp hp with rfl | hp
      · exact ⟨c, hc, rfl⟩
      · obtain ⟨d, hd, hdp, -⟩ := (h.member index p).mp hp
        exact ⟨d, hd, hdp⟩
    intro p hp q hq
    obtain ⟨d, hd, rfl⟩ := hfield p hp
    obtain ⟨e, he, rfl⟩ := hfield q hq
    exact (h.fields_apart hd he).2.2.2
  have hnodup : (c.addr :: lists index).Nodup :=
    nodup_cons.mpr ⟨fun hp => hfresh index c.addr hp rfl, h.nodup index⟩
  -- words other than the links of `c` and of the first chunk in its list
  have hmem : ∀ a, (a ≠ c.addr + 8 ∧ a ≠ c.addr + 16) →
      (∀ p ∈ lists index, a ≠ p + 8) →
      pushFront 8 16 info.mem (info.buckets index) c.addr a = info.mem a := by
    intro a ha hlist
    refine pushFront_of_ne ha fun hfirst => ?_
    rw [h.heads] at hfirst ⊢
    exact hlist _ (headD_mem hfirst)
  refine ⟨update lists index (c.addr :: lists index), ?_⟩
  refine
    { low := h.low
      tiles := tiles_withKind h.tiles .free
      sizes := sizes_withKind h.sizes .free
      words := fun d hd hkind => ?_
      heads := fun i => ?_
      linked := fun i => ?_
      nodup := fun i => ?_
      member := fun i p => ?_ }
  · have hd' : ∃ e ∈ pre ++ c :: post, e.addr = d.addr ∧ e.size = d.size ∧
        info.mem e.addr = d.word ∧ info.mem (e.addr + 8 + e.size) = d.word := by
      rcases mem_withKind hd with rfl | hd
      · exact ⟨c, hc, rfl, rfl, hword⟩
      · exact ⟨d, hd, rfl, rfl, h.words d hd hkind⟩
    obtain ⟨e, he, haddr, hesize, hhead, htail⟩ := hd'
    rw [← haddr, ← hesize]
    have hec := h.fields_apart he hc
    constructor
    · refine (hmem _ hec.1 fun p hp => ?_).trans hhead
      obtain ⟨f, hf, rfl, -⟩ := (h.member index p).mp hp
      exact (h.fields_apart he hf).1.1
    · refine (hmem _ ⟨hec.2.1, hec.2.2.1⟩ fun p hp => ?_).trans htail
      obtain ⟨f, hf, rfl, -⟩ := (h.member index p).mp hp
      exact (h.fields_apart he hf).2.1
  · by_cases hi : i = index
    · subst hi
      simp
    · simp only [update_of_ne hi]
      exact h.heads i
  · by_cases hi : i = index
    · subst hi
      simp only [update_self]
      rw [h.heads]
      exact pushFront_linked (h.linked i) hnodup hapart (h.zero_not_mem i)
    · simp only [update_of_ne hi]
      refine (h.linked i).frame fun p hp => ?_
      obtain ⟨d, hd, rfl, -⟩ := (h.member i p).mp hp
      have hdc := h.fields_apart hd hc
      have hcd := h.fields_apart hc hd
      have hne := hfresh i _ hp
      constructor
      · refine hmem _ ⟨by omega, hdc.2.2.2⟩ fun q hq => ?_
        have := h.ne_of_mem hi hp hq
        omega
      · refine hmem _ ⟨hcd.2.2.2.symm, by omega⟩ fun q hq => ?_
        obtain ⟨e, he, rfl, -⟩ := (h.member index q).mp hq
        exact (h.fields_apart he hd).2.2.2.symm
  · by_cases hi : i = index
    · subst hi
      simpa using hnodup
    · simp only [update_of_ne hi]
      exact h.nodup i
  · rw [freeAt_of_free rfl, ← freeAt_of_not_free (c := c) (by simp [hheld]), ← h.member]
    show _ ↔ (c.addr = p ∧ memBucketBySize c.size = i) ∨ p ∈ lists i
    rw [hindex]
    by_cases hi : i = index
    · subst hi
      simp [eq_comm]
    · simp [update_of_ne hi, Ne.symm hi]

theorem unlink (h : Shape info (pre ++ c :: post) lists) (hfree : c.kind = .free) :
    ∃ lists', Shape (memUnlinkChunk info c.addr) (pre ++ c.withKind .held :: post) lists' := by
  have hc : c ∈ pre ++ c :: post := mem_append_right pre (mem_cons_self ..)
  have hsize : Shmem.chunkSize info c.addr = c.size := h.chunkSize hc (by simp [hfree])
  rw [memUnlinkChunk_eq, hsize]
  generalize hindex : memBucketBySize c.size = index
  obtain ⟨front, back, hlist⟩ := append_of_mem
    ((h.member index c.addr).mpr ⟨c, hc, rfl, hfree, hindex⟩)
  have hlinked := h.linked index
  have hnodup := h.nodup index
  have hapart := h.apart index
  have hzero := h.zero_not_mem index
  rw [hlist] at hlinked hnodup hapart hzero
  -- words other than the links of the chunks that stay in the list
  have hmem : ∀ a, (∀ q ∈ front ++ back, a ≠ q + 8 ∧ a ≠ q + 16) →
      DoublyLinked.unlink 8 16 info.mem c.addr a = info.mem a := fun a ha => unlink_of_ne hlinked ha
  have hstay : ∀ q ∈ front ++ back, q ∈ lists index := by
    intro q hq
    rw [hlist]
    rw [mem_append] at hq
    rw [mem_append, mem_cons]
    tauto
  refine ⟨update lists index (front ++ back), ?_⟩
  refine
    { low := h.low
      tiles := tiles_withKind h.tiles .held
      sizes := sizes_withKind h.sizes .held
      words := fun d hd hkind => ?_
      heads := fun i => ?_
      linked := fun i => ?_
      nodup := fun i => ?_
      member := fun i p => ?_ }
  · rcases mem_withKind hd with rfl | hd
    · exact absurd rfl hkind
    · have hw := h.words d hd hkind
      constructor
      · refine (hmem _ fun q hq => ?_).trans hw.1
        obtain ⟨e, he, rfl, -⟩ := (h.member index q).mp (hstay q hq)
        exact (h.fields_apart hd he).1
      · refine (hmem _ fun q hq => ?_).trans hw.2
        obtain ⟨e, he, rfl, -⟩ := (h.member index q).mp (hstay q hq)
        have hfields := h.fields_apart hd he
        exact ⟨hfields.2.1, hfields.2.2.1⟩
  · have hhead := unlink_head hlinked hzero
    rw [← hlist, ← h.heads] at hhead
    by_cases hi : i = index
    · subst hi
      simp only [update_self]
      rw [← hhead]
      split <;> simp
    · simp only [update_of_ne hi]
      split
      · rw [update_of_ne hi]
        exact h.heads i
      · exact h.heads i
  · by_cases hi : i = index
    · subst hi
      simp only [update_self]
      exact unlink_linked hlinked hnodup hapart hzero
    · simp only [update_of_ne hi]
      refine (h.linked i).frame fun p hp => ?_
      obtain ⟨d, hd, rfl, -⟩ := (h.member i p).mp hp
      constructor
      · refine hmem _ fun q hq => ?_
        have hne := h.ne_of_mem hi hp (hstay q hq)
        obtain ⟨e, he, rfl, -⟩ := (h.member index q).mp (hstay q hq)
        exact ⟨by omega, (h.fields_apart hd he).2.2.2⟩
      · refine hmem _ fun q hq => ?_
        have hne := h.ne_of_mem hi hp (hstay q hq)
        obtain ⟨e, he, rfl, -⟩ := (h.member index q).mp (hstay q hq)
        exact ⟨(h.fields_apart he hd).2.2.2.symm, by omega⟩
  · by_cases hi : i = index
    · subst hi
      simp only [update_self]
      exact hnodup.sublist (List.Sublist.append_left (sublist_cons_self _ _) _)
    · simp only [update_of_ne hi]
      exact h.nodup i
  · have hmember := h.member i p
    rw [freeAt_of_free hfree, hindex] at hmember
    rw [freeAt_of_not_free (by simp)]
    by_cases hi : i = index
    · subst hi
      simp only [update_self]
      rw [hlist] at hmember
      have hfront : c.addr ∉ front ++ back := by
        intro hin
        rw [nodup_middle, nodup_cons] at hnodup
        exact hnodup.1 hin
      constructor
      · intro hp
        have hp' : p ∈ front ++ c.addr :: back := by
          rw [mem_append] at hp
          rw [mem_append, mem_cons]
          tauto
        rcases hmember.mp hp' with ⟨rfl, -⟩ | hfreeAt
        · exact absurd hp hfront
        · exact hfreeAt
      · intro hfreeAt
        have hp := hmember.mpr (.inr hfreeAt)
        rw [mem_append, mem_cons] at hp
        rw [mem_append]
        rcases hp with hp | rfl | hp
        · exact .inl hp
        · obtain ⟨d, hd, hdp, hdfree, -⟩ := hfreeAt
          exfalso
          have hsplit := h.tiles.split
          rcases mem_append.mp hd with hd | hd
          · have := hsplit.1 d hd
            unfold Chunk.stop at this
            omega
          · have := hsplit.2 d hd
            unfold Chunk.stop at this
            omega
        · exact .inr hp
    · simp only [update_of_ne hi, hmember]
      constructor
      · rintro (⟨-, heq⟩ | hfreeAt)
        · exact absurd heq.symm hi
        · exact hfreeAt
      · exact .inr

theorem retile (h : Shape info (pre ++ cs ++ post) lists) (ds : List Chunk)
    (hcs : ∀ c ∈ cs, c.kind = .held) (hds : ∀ d ∈ ds, d.kind = .held ∧ GoodSize d.size)
    (htiles : ∀ a b, Tiles a cs b → Tiles a ds b) : Shape info (pre ++ ds ++ post) lists where
  low := h.low
  tiles := h.tiles.replace htiles
  sizes d hd := by
    rw [mem_append, mem_append] at hd
    rcases hd with (hd | hd) | hd
    · exact h.sizes d (by simp [hd])
    · exact (hds d hd).2
    · exact h.sizes d (by simp [hd])
  words d hd hkind := by
    rw [mem_append, mem_append] at hd
    rcases hd with (hd | hd) | hd
    · exact h.words d (by simp [hd]) hkind
    · exact absurd (hds d hd).1 hkind
    · exact h.words d (by simp [hd]) hkind
  heads := h.heads
  linked := h.linked
  nodup := h.nodup
  member i p := by
    rw [h.member]
    constructor
    · rintro ⟨c, hc, hrest⟩
      rw [mem_append, mem_append] at hc
      rcases hc with (hc | hc) | hc
      · exact ⟨c, by simp [hc], hrest⟩
      · have hkind := hrest.2.1
        rw [hcs c hc] at hkind
        cases hkind
      · exact ⟨c, by simp [hc], hrest⟩
    · rintro ⟨d, hd, hrest⟩
      rw [mem_append, mem_append] at hd
      rcases hd with (hd | hd) | hd
      · exact ⟨d, by simp [hd], hrest⟩
      · have hkind := hrest.2.1
        rw [(hds d hd).1] at hkind
        cases hkind
      · exact ⟨d, by simp [hd], hrest⟩

theorem release (h : Shape info (pre ++ c :: post) lists) (hheld : c.kind = .held) :
    ∃ lists', Shape (memLinkChunk (memSetChunkSize info c.addr c.size) c.addr)
      (pre ++ c.withKind .free :: post) lists' := by
  have hwritten : Shape (memSetChunkSize info c.addr c.size) (pre ++ c :: post) lists := by
    unfold memSetChunkSize shmemSizeField
    refine (h.writeHeld hheld ?_ _).writeHeld hheld ?_ _ <;> unfold Chunk.stop <;> omega
  refine hwritten.link hheld ⟨?_, update_self _ _ _⟩
  have hne : c.addr ≠ c.addr + shmemSizeField + c.size := by
    unfold shmemSizeField
    omega
  exact (update_of_ne hne _ _).trans (update_self _ _ _)

end Shape

def Undisturbed (others : List Chunk) (info info' : Info) : Prop :=
  ∀ d ∈ others, d.kind ≠ .free → ∀ a, d.addr ≤ a → a < d.stop → info'.mem a = info.mem a

variable {others : List Chunk}

theorem Undisturbed.trans {info info'' : Info} (h : Undisturbed others info info')
    (h' : Undisturbed others info' info'') :
    Undisturbed others info info'' :=
  fun d hd hkind a hle hlt => (h' d hd hkind a hle hlt).trans (h d hd hkind a hle hlt)

theorem Undisturbed.subset {others' : List Chunk} {info : Info} (h : Undisturbed others info info')
    (hsub : others' ⊆ others) :
    Undisturbed others' info info' :=
  fun d hd => h d (hsub hd)

namespace Shape

variable {info : Info} {chunks pre post : List Chunk} {lists : ℕ → List ℕ} {c d : Chunk}

theorem ne_link (h : Shape info chunks lists) (hd : d ∈ chunks) (hkind : d.kind ≠ .free)
    (hp : p ∈ lists i) (hle : d.addr ≤ a) (hlt : a < d.stop) : a ≠ p + 8 ∧ a ≠ p + 16 := by
  obtain ⟨e, he, rfl, hfree, -⟩ := (h.member i p).mp hp
  have hs := (h.sizes e he).1
  unfold shmemMinAlloc at hs
  rcases h.tiles.apart hd he with rfl | hstop | hstop
  · exact absurd hfree hkind
  · omega
  · unfold Chunk.stop at hstop
    omega

theorem mem_of_others {pre post : List Chunk} {c d : Chunk} (hd : d ∈ pre ++ post) :
    d ∈ pre ++ c :: post := by
  rw [mem_append] at hd
  rw [mem_append, mem_cons]
  tauto

variable (h : Shape info (pre ++ c :: post) lists)

include h

theorem others_apart (hd : d ∈ pre ++ post) : d.stop ≤ c.addr ∨ c.stop ≤ d.addr := by
  rcases mem_append.mp hd with hd | hd
  · exact .inl (h.tiles.split.1 d hd)
  · exact .inr (h.tiles.split.2 d hd)

theorem unlink_undisturbed (hfree : c.kind = .free) :
    Undisturbed (pre ++ post) info (memUnlinkChunk info c.addr) := by
  intro d hd hkind a hle hlt
  have hc : c ∈ pre ++ c :: post := mem_append_right pre (mem_cons_self ..)
  obtain ⟨front, back, hlist⟩ := append_of_mem
    ((h.member _ c.addr).mpr ⟨c, hc, rfl, hfree, rfl⟩)
  have hlinked := h.linked (memBucketBySize c.size)
  rw [hlist] at hlinked
  rw [memUnlinkChunk_eq]
  refine unlink_of_ne hlinked fun q hq => ?_
  have hqlist : q ∈ lists (memBucketBySize c.size) := by
    rw [hlist]
    rw [mem_append] at hq
    rw [mem_append, mem_cons]
    tauto
  exact h.ne_link (mem_of_others hd) hkind hqlist hle hlt

theorem writeHeld_undisturbed (ha : c.addr ≤ a ∧ a < c.stop) (v : ℕ)
    : Undisturbed (pre ++ post) info (info.write a v) := by
  intro d hd _ b hle hlt
  have := h.others_apart hd
  exact update_of_ne (by omega) _ _

theorem setUsed_undisturbed (hheld : c.kind = .held) :
    Undisturbed (pre ++ post) info (memSetUsedChunkSize info c.addr c.size) := by
  unfold memSetUsedChunkSize shmemSizeField
  have haddr : c.addr ≤ c.addr ∧ c.addr < c.stop := by
    unfold Chunk.stop
    omega
  have htail : c.addr ≤ c.addr + 8 + c.size ∧ c.addr + 8 + c.size < c.stop := by
    unfold Chunk.stop
    omega
  exact (h.writeHeld_undisturbed haddr _).trans
    ((h.writeHeld hheld haddr _).writeHeld_undisturbed htail _)

theorem release_undisturbed (hheld : c.kind = .held) :
    Undisturbed (pre ++ post) info
      (memLinkChunk (memSetChunkSize info c.addr c.size) c.addr) := by
  have haddr : c.addr ≤ c.addr ∧ c.addr < c.stop := by
    unfold Chunk.stop
    omega
  have htail : c.addr ≤ c.addr + 8 + c.size ∧ c.addr + 8 + c.size < c.stop := by
    unfold Chunk.stop
    omega
  have hfirst := h.writeHeld hheld haddr c.size
  have hwritten : Shape (memSetChunkSize info c.addr c.size) (pre ++ c :: post) lists :=
    hfirst.writeHeld hheld htail c.size
  have hsizes : Undisturbed (pre ++ post) info (memSetChunkSize info c.addr c.size) :=
    (h.writeHeld_undisturbed haddr _).trans (hfirst.writeHeld_undisturbed htail _)
  refine hsizes.trans fun d hd hkind a hle hlt => ?_
  have hapart := h.others_apart hd
  have hs := (h.sizes c (mem_append_right pre (mem_cons_self ..))).1
  unfold shmemMinAlloc at hs
  rw [memLinkChunk_eq]
  refine pushFront_of_ne ?_ fun hne => ?_
  · unfold Chunk.stop at hapart
    unfold Chunk.stop at hlt
    omega
  · rw [hwritten.heads] at hne ⊢
    exact (hwritten.ne_link (mem_of_others hd) hkind (headD_mem hne) hle hlt).1

omit h

end Shape

end Zabbix.Shmem
