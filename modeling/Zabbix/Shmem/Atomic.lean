import Zabbix.Shmem.Realloc

/-!
# A reallocation as a whole

To a caller `__mem_realloc` either fails and leaves everything as it was, or gives a block with
the bytes of the old one, and the bytes of all other blocks stay.
-/

namespace Zabbix.Shmem

open List

variable {info info' : Info} {chunks : List Chunk} {lists : ℕ → List ℕ} {c d : Chunk}

def byteAt (info : Info) (a : ℕ) : ℕ := info.mem (a / 8 * 8) / 256 ^ (a % 8) % 256

theorem Tiles.addr_mod {lo hi : ℕ} (h : Tiles lo chunks hi) (hlo : lo % 8 = 0)
    (hsizes : ∀ c ∈ chunks, GoodSize c.size) (hc : c ∈ chunks) : c.addr % 8 = 0 := by
  induction chunks generalizing lo with
  | nil => exact absurd hc not_mem_nil
  | cons e chunks ih =>
    obtain ⟨haddr, hrest⟩ := h
    obtain rfl | hc := mem_cons.mp hc
    · exact haddr ▸ hlo
    · have hmod := (hsizes e mem_cons_self).2.1
      refine ih hrest ?_ (fun f hf => hsizes f (mem_cons_of_mem e hf)) hc
      unfold Chunk.stop
      omega

theorem Tidy.addr_mod (h : Tidy info chunks lists) (hc : c ∈ chunks) : c.addr % 8 = 0 :=
  h.shape.tiles.addr_mod h.shape.low.2.1 h.shape.sizes hc

theorem byteAt_eq {a b i : ℕ} (ha : a % 8 = 0) (hb : b % 8 = 0)
    (hword : info'.mem (a + i / 8 * 8) = info.mem (b + i / 8 * 8)) :
    byteAt info' (a + i) = byteAt info (b + i) := by
  have haddr : (a + i) / 8 * 8 = a + i / 8 * 8 := by omega
  have hbddr : (b + i) / 8 * 8 = b + i / 8 * 8 := by omega
  have hoffset : (a + i) % 8 = (b + i) % 8 := by omega
  rw [byteAt, byteAt, haddr, hbddr, hword, hoffset]

structure Moved (info info' : Info) (chunks chunks' : List Chunk) (c d : Chunk) (n : ℕ) : Prop where
  used : d ∈ chunks' ∧ d.kind = .used
  big : n ≤ d.size
  bytes : ∀ i < min c.size n, byteAt info' (d.addr + 8 + i) = byteAt info (c.addr + 8 + i)
  others : ∀ e ∈ chunks, e.kind = .used → e ≠ c → e ∈ chunks' ∧ e.addr ≠ d.addr ∧
    ∀ i < e.size, byteAt info' (e.addr + 8 + i) = byteAt info (e.addr + 8 + i)

theorem Resized.moved (h : Resized info info' chunks c d) (htidy : Tidy info chunks lists)
    (hc : c ∈ chunks) {n : ℕ} (hn : n ≤ d.size) :
    ∃ chunks' lists', Tidy info' chunks' lists' ∧ Moved info info' chunks chunks' c d n := by
  obtain ⟨hplaced, hdata⟩ := h
  obtain ⟨chunks', lists', htidy', hd, hothers⟩ := hplaced.tidy
  have hcaddr := htidy.addr_mod hc
  have hdaddr := htidy'.addr_mod hd
  refine ⟨chunks', lists', htidy', ⟨hd, hplaced.used⟩, hn, fun i hi => ?_, fun e he hused hne => ?_⟩
  · exact byteAt_eq (by omega) (by omega) (hdata _ (by omega) (by omega))
  · obtain ⟨he', haddr, hwords⟩ := hothers e he hused hne
    have headdr := htidy.addr_mod he
    refine ⟨he', haddr, fun i hi => byteAt_eq (by omega) (by omega) (hwords _ (by omega) ?_)⟩
    unfold Chunk.stop
    omega

/-- A reallocation fails without any change or gives a block with the old data; the process never
ends for want of the memory that was just released. -/
theorem mem_realloc_atomic (h : Tidy info chunks lists) (hc : c ∈ chunks) (hused : c.kind = .used)
    (n : ℕ) (hn : n ≤ shmemMaxSize) :
    memRealloc info (c.addr + 8) n = some (0, info) ∨
      ∃ d info' chunks' lists', memRealloc info (c.addr + 8) n = some (d.addr, info') ∧
        d.addr ≠ 0 ∧ Tidy info' chunks' lists' ∧ Moved info info' chunks chunks' c d n := by
  obtain hnone | ⟨d, info', hresult, hsize, hresized⟩ := memRealloc_resized h hc hused hn
  · exact .inl hnone
  · have hn' : n ≤ d.size := (le_memProperAllocSize n).trans hsize
    obtain ⟨chunks', lists', htidy, hmoved⟩ := hresized.moved h hc hn'
    exact .inr ⟨d, info', chunks', lists', hresult, hresized.1.addr_ne_zero, htidy, hmoved⟩

def fullPool : Info where
  buckets _ := 0
  loBound := 64
  hiBound := 104
  freeSize := 0
  usedSize := 24
  totalSize := 24
  mem _ := shmemFlgUsed ||| 24

theorem fullPool_tidy : Tidy fullPool [⟨64, 24, .used⟩] fun _ => [] where
  shape :=
    { low := by decide
      tiles := ⟨rfl, rfl⟩
      sizes := by simp [GoodSize, shmemMinAlloc]
      words := fun c hc _ => by
        obtain rfl := mem_singleton.mp hc
        exact ⟨rfl, rfl⟩
      heads := fun _ => rfl
      linked := fun _ => trivial
      nodup := fun _ => nodup_nil
      member := fun i p => by simp [FreeAt] }
  settled := by simp
  separate := .singleton _
  used := rfl
  free := rfl
  total := rfl

theorem mem_realloc_atomic_fullPool :
    memRealloc fullPool 72 40 = some (0, fullPool) ∨
      ∃ d info' chunks' lists', memRealloc fullPool 72 40 = some (d.addr, info') ∧
        d.addr ≠ 0 ∧ Tidy info' chunks' lists' ∧
          Moved fullPool info' [⟨64, 24, .used⟩] chunks' ⟨64, 24, .used⟩ d 40 :=
  mem_realloc_atomic fullPool_tidy (mem_singleton_self _) rfl 40 (by decide)

end Zabbix.Shmem
