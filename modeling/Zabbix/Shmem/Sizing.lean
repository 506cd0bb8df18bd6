import Zabbix.Shmem.Invariant

/-!
# The size of a pool

`zbx_shmem_required_size` is to cover everything that a number of allocations needs besides
the bytes they ask for.
-/

namespace Zabbix.Shmem

open List

def allocate : Info → List ℕ → Option Info
  | info, [] => some info
  | info, size :: sizes =>
    let (chunk, info) := memMalloc info size
    if chunk = 0 then none else allocate info sizes

def neededBytes (sizes : List ℕ) : ℕ := (sizes.map fun size => memProperAllocSize size + 16).sum

@[simp] theorem neededBytes_nil : neededBytes [] = 0 := rfl

@[simp] theorem neededBytes_cons (size : ℕ) (sizes : List ℕ) :
    neededBytes (size :: sizes) = memProperAllocSize size + 16 + neededBytes sizes := by
  simp [neededBytes]

theorem neededBytes_perm {sizes sizes' : List ℕ} (h : sizes.Perm sizes') :
    neededBytes sizes = neededBytes sizes' :=
  (h.map _).sum_eq

theorem shmemMinAlloc_le (size : ℕ) : shmemMinAlloc ≤ memProperAllocSize size := by
  unfold memProperAllocSize
  split <;> omega

variable {info : Info} {pre : List Chunk} {lists : ℕ → List ℕ} {f : Chunk} {sizes : List ℕ}

theorem allocate_none (h : Tidy info pre lists) (hused : ∀ c ∈ pre, c.kind = .used) {size : ℕ}
    (hsize : size ≤ shmemMaxSize) : allocate info (size :: sizes) = none := by
  rcases memMalloc_tidy h hsize with ⟨hnone, -⟩ | ⟨front, c, back, lists', rfl, hfree, -⟩
  · unfold allocate
    rw [hnone]
    rfl
  · rw [hused c (by simp)] at hfree
    cases hfree

theorem eq_last {front back : List Chunk} {c : Chunk} (hused : ∀ c ∈ pre, c.kind = .used)
    (h : pre ++ [f] = front ++ c :: back) (hfree : c.kind = .free) :
    front = pre ∧ c = f ∧ back = [] := by
  rcases eq_nil_or_concat' back with rfl | ⟨back, d, rfl⟩
  · obtain ⟨rfl, hlast⟩ := append_inj' h rfl
    exact ⟨rfl, (List.cons.inj hlast).1.symm, rfl⟩
  · have hsplit : pre ++ [f] = (front ++ c :: back) ++ [d] := by simpa using h
    obtain ⟨rfl, -⟩ := append_inj' hsplit rfl
    rw [hused c (by simp)] at hfree
    cases hfree

theorem used_concat {c : Chunk} (h : ∀ c ∈ pre, c.kind = .used) (hc : c.kind = .used) :
    ∀ d ∈ pre ++ [c], d.kind = .used := by
  intro d hd
  rcases mem_append.mp hd with hd | hd
  · exact h d hd
  · rwa [mem_singleton.mp hd]

theorem allocate_isSome_iff (hsizes : ∀ size ∈ sizes, size ≤ shmemMaxSize)
    (h : Tidy info (pre ++ [f]) lists) (hused : ∀ c ∈ pre, c.kind = .used)
    (hfree : f.kind = .free) :
    (allocate info sizes).isSome ↔ sizes = [] ∨ neededBytes sizes ≤ f.size + 16 := by
  induction sizes generalizing info pre f lists with
  | nil => simp [allocate]
  | cons size sizes ih =>
    have hsize := hsizes size (mem_cons_self ..)
    have hrest : ∀ size ∈ sizes, size ≤ shmemMaxSize := fun s hs => hsizes s (mem_cons_of_mem _ hs)
    simp only [neededBytes_cons, reduceCtorEq, false_or]
    rcases memMalloc_tidy h hsize with
      ⟨hnone, hsmall⟩ | ⟨front, c, back, lists', hsplit, hcfree, hle, haddr, htidy, -⟩
    · have hf := hsmall f (by simp) hfree
      unfold allocate
      rw [hnone]
      simp only [if_true, Option.isSome_none, Bool.false_eq_true, false_iff]
      omega
    · obtain ⟨rfl, rfl, rfl⟩ := eq_last hused hsplit hcfree
      have hpos := (h.shape.addr_pos (c := c) (by simp)).ne'
      unfold allocate
      dsimp only
      rw [haddr, if_neg hpos]
      unfold cut at htidy
      split at htidy
      · -- the rest of the chunk is too small to be split off
        next habsorbed =>
        unfold shmemSizeField shmemMinAlloc at habsorbed
        cases sizes with
        | nil =>
          simp only [allocate, Option.isSome_some, neededBytes_nil, true_iff]
          omega
        | cons next sizes =>
          have hmin := shmemMinAlloc_le next
          unfold shmemMinAlloc at hmin
          rw [append_nil] at htidy
          rw [allocate_none htidy (used_concat hused rfl) (hrest next (by simp))]
          simp only [Option.isSome_none, Bool.false_eq_true, neededBytes_cons, false_iff]
          omega
      · next hcut =>
        unfold shmemSizeField shmemMinAlloc at hcut
        have hnext : Tidy (memMalloc info size).2
            ((front ++ [⟨c.addr, memProperAllocSize size, .used⟩]) ++
              [⟨c.addr + memProperAllocSize size + 16, c.size - memProperAllocSize size - 16, .free⟩])
            lists' := by simpa using htidy
        rw [ih hrest hnext (used_concat hused rfl) rfl]
        constructor
        · rintro (rfl | hle')
          · simp only [neededBytes_nil]
            omega
          · simp only at hle'
            omega
        · intro hle'
          refine .inr ?_
          simp only
          omega

variable {base size : ℕ} {descr param : List Char} {mem : ℕ → ℕ}

theorem create_allocate_iff (hend : base + size < 2 ^ 64)
    (hcreate : zbxShmemCreate base size descr param mem = some info)
    (hroom : Room base size descr param) (hsizes : ∀ size ∈ sizes, size ≤ shmemMaxSize) :
    (allocate info sizes).isSome ↔
      sizes = [] ∨ createLo base descr param + neededBytes sizes ≤ createHi base size := by
  obtain ⟨lists, htidy⟩ := create_tidy hend hcreate hroom
  rw [allocate_isSome_iff hsizes (show Tidy info ([] ++ [_]) lists from htidy) (by simp) rfl]
  unfold Room shmemMinAlloc shmemSizeField at hroom
  simp only
  refine or_congr Iff.rfl ?_
  omega

theorem neededBytes_mod (sizes : List ℕ) : neededBytes sizes % 8 = 0 := by
  induction sizes with
  | nil => rfl
  | cons size sizes ih =>
    have hmod : memProperAllocSize size % 8 = 0 := by
      unfold memProperAllocSize shmemMinAlloc
      split <;> omega
    rw [neededBytes_cons]
    omega

theorem neededBytes_le (hpos : ∀ size ∈ sizes, 0 < size) :
    neededBytes sizes ≤ sizes.sum + 39 * sizes.length := by
  induction sizes with
  | nil => simp
  | cons size sizes ih =>
    have hsize := hpos size (mem_cons_self ..)
    have hrest := ih fun s hs => hpos s (mem_cons_of_mem _ hs)
    have hproper : memProperAllocSize size ≤ size + 23 := by
      unfold memProperAllocSize shmemMinAlloc
      split <;> omega
    rw [neededBytes_cons, sum_cons, length_cons]
    omega

theorem sum_le_max (hsizes : ∀ size ∈ sizes, size ≤ shmemMaxSize) :
    sizes.sum ≤ shmemMaxSize * sizes.length := by
  induction sizes with
  | nil => simp
  | cons size sizes ih =>
    have hsize := hsizes size (mem_cons_self ..)
    have hrest := ih fun s hs => hsizes s (mem_cons_of_mem _ hs)
    rw [sum_cons, length_cons, Nat.mul_succ]
    omega

def estimate (descr param : List Char) (sizes : List ℕ) : ℕ :=
  uint64 (zbxShmemRequiredSize sizes.length descr param + sizes.sum : ℕ)

theorem estimate_eq (hstrings : descr.length + param.length < 2 ^ 63)
    (hsizes : ∀ size ∈ sizes, size ≤ shmemMaxSize) (hpos : sizes ≠ [])
    (hlength : 23 * sizes.length < 2 ^ 31) :
    estimate descr param sizes =
      366 + descr.length + param.length + 39 * sizes.length + sizes.sum := by
  have hsum := sum_le_max hsizes
  have hne := length_pos_iff.mpr hpos
  unfold shmemMaxSize at hsum
  unfold estimate zbxShmemRequiredSize uint64 sizeofInfo zbxShmemBucketCount shmemMaxBucketSize
    zbxShmemMinBucketSize shmemMinAlloc shmemSizeField
  rw [Int.bmod_eq_of_le (by omega) (by omega)]
  omega

theorem header_le (base : ℕ) (descr param : List Char) :
    createLo base descr param ≤ base + 359 + descr.length + param.length := by
  unfold createLo align8 sizeofInfo zbxShmemBucketCount shmemMaxBucketSize zbxShmemMinBucketSize
    shmemMinAlloc
  omega

/-- A pool of the estimated size satisfies its `n` allocations in any order. -/
def Covers (n : ℕ) : Prop :=
  ∀ (base : ℕ) (descr param : List Char) (mem : ℕ → ℕ) (sizes order : List ℕ) (info : Info),
    sizes.length = n → (∀ size ∈ sizes, 0 < size ∧ size ≤ shmemMaxSize) →
    descr.length + param.length < 2 ^ 63 → base + estimate descr param sizes < 2 ^ 64 →
    zbxShmemCreate base (estimate descr param sizes) descr param mem = some info →
    order.Perm sizes → (allocate info order).isSome

theorem covers_of_lt {n : ℕ} (h : 23 * n < 2 ^ 31) : Covers n := by
  intro base descr param mem sizes order info hlength hsizes hstrings hend hcreate hperm
  have hmax : ∀ size ∈ order, size ≤ shmemMaxSize := fun size hs => (hsizes size (hperm.subset hs)).2
  by_cases hnil : sizes = []
  · subst hnil
    rw [hperm.eq_nil]
    rfl
  have hestimate := estimate_eq hstrings (fun size hs => (hsizes size hs).2) hnil (by omega)
  have hneeded := neededBytes_le fun size hs => (hsizes size hs).1
  have hmod := neededBytes_mod sizes
  have hhi8 := createHi_mod base (estimate descr param sizes)
  have hlo8 := createLo_mod base descr param
  have hheader := header_le base descr param
  have hhi : base + estimate descr param sizes - 8 ≤
      createHi base (estimate descr param sizes) := by
    unfold createHi align8
    omega
  have hfit : createLo base descr param + neededBytes sizes ≤
      createHi base (estimate descr param sizes) := by omega
  have hroom : Room base (estimate descr param sizes) descr param := by
    have hlow : 40 ≤ neededBytes sizes := by
      cases sizes with
      | nil => exact absurd rfl hnil
      | cons size sizes =>
        have hmin := shmemMinAlloc_le size
        unfold shmemMinAlloc at hmin
        rw [neededBytes_cons]
        omega
    unfold Room shmemMinAlloc shmemSizeField
    omega
  rw [create_allocate_iff hend hcreate hroom hmax, neededBytes_perm hperm]
  exact .inr hfit

def largeAndSmall (n : ℕ) : List ℕ := 2 ^ 32 :: replicate n 1

theorem neededBytes_largeAndSmall (n : ℕ) :
    neededBytes (largeAndSmall n) = 2 ^ 32 + 16 + 40 * n := by
  have hsmall : neededBytes (replicate n 1) = n * 40 := by
    unfold neededBytes
    rw [map_replicate, sum_replicate_nat]
    rfl
  have hlarge : memProperAllocSize (2 ^ 32) = 2 ^ 32 := rfl
  unfold largeAndSmall
  rw [neededBytes_cons, hsmall, hlarge]
  omega

theorem bmod_le {n : ℕ} (h : 2 ^ 31 ≤ n) :
    -2 ^ 31 ≤ Int.bmod n (2 ^ 32) ∧ Int.bmod n (2 ^ 32) < 2 ^ 31 ∧
      Int.bmod n (2 ^ 32) + 2 ^ 32 ≤ n := by
  rw [Int.bmod_def]
  split <;> omega

theorem uint64_uint64_add (n : ℤ) (m : ℕ) : uint64 (uint64 n + m : ℕ) = uint64 (n + m) := by
  unfold uint64
  omega

theorem uint64_of_nonneg {n : ℤ} (h : 0 ≤ n) (hlt : n < 2 ^ 64) : (uint64 n : ℤ) = n := by
  unfold uint64
  omega

theorem estimate_largeAndSmall {n : ℕ} (hn : n + 1 < 2 ^ 31) (h : 2 ^ 31 ≤ 23 * (n + 1)) :
    2 ^ 31 ≤ estimate [] [] (largeAndSmall n) ∧
      estimate [] [] (largeAndSmall n) ≤ shmemMaxSize ∧
      estimate [] [] (largeAndSmall n) ≤ 405 + 40 * n := by
  have hsum : (largeAndSmall n).sum = 2 ^ 32 + n := by
    unfold largeAndSmall
    rw [sum_cons, sum_replicate_nat, Nat.mul_one]
  have hlength : (largeAndSmall n).length = n + 1 := by
    unfold largeAndSmall
    rw [length_cons, length_replicate]
  obtain ⟨hlow, hbound, hhigh⟩ := bmod_le h
  have hproduct : ((n + 1 : ℕ) : ℤ) * ((shmemMinAlloc : ℤ) - 1) = (23 * (n + 1) : ℕ) := by
    unfold shmemMinAlloc
    omega
  unfold estimate zbxShmemRequiredSize
  rw [hsum, hlength, hproduct]
  generalize Int.bmod (23 * (n + 1) : ℕ) (2 ^ 32) = product at *
  rw [uint64_uint64_add]
  have hexact := uint64_of_nonneg (n := 382 + 16 * n + product + (2 ^ 32 + n)) (by omega) (by omega)
  unfold sizeofInfo zbxShmemBucketCount shmemMaxBucketSize zbxShmemMinBucketSize
    shmemMinAlloc shmemSizeField shmemMaxSize
  rw [show (7 + (96 : ℕ) + (8 - 1) + 8 * ((256 - 24) / 8 + 1 : ℕ) + (([] : List Char).length + 1) +
      (([] : List Char).length + 1) + (((8 : ℕ) - 1) + 8) + (((8 : ℕ) - 1) + 8) +
      ((n + 1 : ℕ) - 1) * (8 : ℕ) * 2 + product + (2 ^ 32 + n : ℕ) : ℤ) =
        382 + 16 * n + product + (2 ^ 32 + n) by simp only [length_nil]; omega]
  omega

theorem zbxShmemCreate_isSome (base : ℕ) {size : ℕ} (descr param : List Char) (mem : ℕ → ℕ)
    (hmin : shmemMinSize ≤ size) (hmax : size ≤ shmemMaxSize) :
    ∃ info, zbxShmemCreate base size descr param mem = some info := by
  unfold zbxShmemCreate
  rw [if_pos ⟨hmin, hmax⟩]
  exact ⟨_, rfl⟩

theorem not_covers {n : ℕ} (hn : n + 1 < 2 ^ 31) (h : 2 ^ 31 ≤ 23 * (n + 1)) : ¬Covers (n + 1) := by
  intro hcovers
  obtain ⟨hmin, hmax, hshort⟩ := estimate_largeAndSmall hn h
  have hneeded := neededBytes_largeAndSmall n
  have hsizes : ∀ size ∈ largeAndSmall n, 0 < size ∧ size ≤ shmemMaxSize := by
    intro size hs
    unfold largeAndSmall at hs
    unfold shmemMaxSize
    rcases mem_cons.mp hs with rfl | hs
    · omega
    · rw [eq_of_mem_replicate hs]
      omega
  have hlength : (largeAndSmall n).length = n + 1 := by
    unfold largeAndSmall
    rw [length_cons, length_replicate]
  generalize hlist : largeAndSmall n = sizes at *
  generalize hsize : estimate [] [] sizes = size at *
  obtain ⟨info, hcreate⟩ := zbxShmemCreate_isSome 4096 [] [] (fun _ => 0)
    (by unfold shmemMinSize; omega) hmax
  have hend : 4096 + size < 2 ^ 64 := by
    unfold shmemMaxSize at hmax
    omega
  have hall := hcovers 4096 [] [] (fun _ => 0) sizes sizes info hlength hsizes (by decide)
    (by rw [hsize]; exact hend) (by rw [hsize]; exact hcreate) (.refl _)
  have hroom : Room 4096 size [] [] := by
    have hheader := header_le 4096 [] []
    have hhi : 4096 + size - 8 ≤ createHi 4096 size := by
      unfold createHi align8
      omega
    unfold Room shmemMinAlloc shmemSizeField
    simp only [length_nil] at hheader
    omega
  rw [create_allocate_iff hend hcreate hroom fun s hs => (hsizes s hs).2] at hall
  have hlo := lt_createLo 4096 [] []
  have hhi := createHi_le 4096 size
  rcases hall with rfl | hfit
  · simp at hlength
  · omega

/-- The estimate covers `n` allocations exactly when its `int` product does not overflow. -/
theorem covers_iff {n : ℕ} (hn : n < 2 ^ 31) : Covers n ↔ 23 * n < 2 ^ 31 := by
  refine ⟨fun hcovers => ?_, covers_of_lt⟩
  by_contra hover
  obtain ⟨m, rfl⟩ : ∃ m, n = m + 1 := ⟨n - 1, by omega⟩
  exact not_covers hn (by omega) hcovers

theorem covers_iff_small : (Covers 1000 ↔ 23 * 1000 < 2 ^ 31) ∧ 1000 < 2 ^ 31 :=
  ⟨covers_iff (by decide), by decide⟩

/-- The smallest number of allocations that is too big. -/
theorem not_covers_overflow : ¬Covers 93368855 := not_covers (by decide) (by decide)

end Zabbix.Shmem
