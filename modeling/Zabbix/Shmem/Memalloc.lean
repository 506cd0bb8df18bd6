import Mathlib.Algebra.Group.Int.Defs
import Mathlib.Algebra.Group.Nat.Defs
import Mathlib.Data.List.Basic

/-!
# The shared memory allocator

`memalloc.c`. The memory is a map from addresses to 64-bit words; the allocator only reads
and writes words at multiples of eight. Pointers are addresses and `NULL` is zero.
-/

namespace Zabbix.Shmem

open Function

def shmemSizeField : ℕ := 8

def shmemMinAlloc : ℕ := 24

def zbxShmemMinBucketSize : ℕ := shmemMinAlloc

def shmemMaxBucketSize : ℕ := 256

def zbxShmemBucketCount : ℕ := (shmemMaxBucketSize - zbxShmemMinBucketSize) / 8 + 1

def shmemFlgUsed : ℕ := 2 ^ 63

def shmemMinSize : ℕ := 128

def shmemMaxSize : ℕ := 0x1000000000

/-- `zbx_shmem_info_t` without the fields for messages, and the memory it manages. -/
structure Info where
  buckets : ℕ → ℕ
  loBound : ℕ
  hiBound : ℕ
  freeSize : ℕ
  usedSize : ℕ
  totalSize : ℕ
  mem : ℕ → ℕ

def freeChunk (info : Info) (ptr : ℕ) : Bool := info.mem ptr &&& shmemFlgUsed = 0

def chunkSize (info : Info) (ptr : ℕ) : ℕ := info.mem ptr &&& (shmemFlgUsed - 1)

def align8 (ptr : ℕ) : ℕ := (ptr + 7) / 8 * 8

def memProperAllocSize (size : ℕ) : ℕ :=
  if shmemMinAlloc ≤ size then size + (8 - size % 8) % 8 else shmemMinAlloc

def memBucketBySize (size : ℕ) : ℕ :=
  if size < zbxShmemMinBucketSize then 0
  else if size < shmemMaxBucketSize then (size - zbxShmemMinBucketSize) / 8
  else zbxShmemBucketCount - 1

def Info.write (info : Info) (ptr value : ℕ) : Info :=
  { info with mem := update info.mem ptr value }

def memSetChunkSize (info : Info) (chunk size : ℕ) : Info :=
  (info.write chunk size).write (chunk + shmemSizeField + size) size

def memSetUsedChunkSize (info : Info) (chunk size : ℕ) : Info :=
  (info.write chunk (shmemFlgUsed ||| size)).write (chunk + shmemSizeField + size)
    (shmemFlgUsed ||| size)

def memGetPrevChunk (info : Info) (chunk : ℕ) : ℕ := info.mem (chunk + shmemSizeField)

def memSetPrevChunk (info : Info) (chunk prev : ℕ) : Info :=
  info.write (chunk + shmemSizeField) prev

/-- `ZBX_PTR_SIZE` is 8. -/
def memGetNextChunk (info : Info) (chunk : ℕ) : ℕ := info.mem (chunk + shmemSizeField + 8)

def memSetNextChunk (info : Info) (chunk next : ℕ) : Info :=
  info.write (chunk + shmemSizeField + 8) next

def Info.setBucket (info : Info) (index chunk : ℕ) : Info :=
  { info with buckets := update info.buckets index chunk }

def memLinkChunk (info : Info) (chunk : ℕ) : Info :=
  let index := memBucketBySize (chunkSize info chunk)
  let first := info.buckets index
  let info := if first ≠ 0 then memSetPrevChunk info first chunk else info
  let info := memSetPrevChunk info chunk 0
  let info := memSetNextChunk info chunk first
  info.setBucket index chunk

def memUnlinkChunk (info : Info) (chunk : ℕ) : Info :=
  let index := memBucketBySize (chunkSize info chunk)
  let prev := memGetPrevChunk info chunk
  let next := memGetNextChunk info chunk
  let info := if prev ≠ 0 then memSetNextChunk info prev next else info.setBucket index next
  if next ≠ 0 then memSetPrevChunk info next prev else info

def nextBucket (buckets : ℕ → ℕ) : ℕ → ℕ → ℕ
  | 0, index => index
  | n + 1, index =>
    if index < zbxShmemBucketCount - 1 ∧ buckets index = 0 then nextBucket buckets n (index + 1)
    else index

/-- First fit in the list that starts with `chunk`, within `fuel` chunks. -/
def firstFit (info : Info) (size : ℕ) : ℕ → ℕ → ℕ
  | 0, chunk => chunk
  | fuel + 1, chunk =>
    if chunk ≠ 0 ∧ chunkSize info chunk < size then
      firstFit info size fuel (memGetNextChunk info chunk)
    else chunk

/-- The chunk `__mem_malloc` takes for a request of `size` bytes. -/
def findChunk (info : Info) (size : ℕ) : ℕ :=
  let index := nextBucket info.buckets zbxShmemBucketCount (memBucketBySize size)
  let chunk := info.buckets index
  if index = zbxShmemBucketCount - 1 then firstFit info size info.totalSize chunk else chunk

def Info.account (info : Info) (used free : ℕ) : Info :=
  { info with usedSize := used, freeSize := free }

def splitChunk (info : Info) (chunk chunkSize size : ℕ) : Info :=
  if chunkSize < size + 2 * shmemSizeField + shmemMinAlloc then
    let info := info.account (info.usedSize + chunkSize) (info.freeSize - chunkSize)
    memSetUsedChunkSize info chunk chunkSize
  else
    let newChunk := chunk + shmemSizeField + size + shmemSizeField
    let newChunkSize := chunkSize - size - 2 * shmemSizeField
    let info := memSetChunkSize info newChunk newChunkSize
    let info := memLinkChunk info newChunk
    let info := info.account (info.usedSize + size) (info.freeSize - chunkSize + newChunkSize)
    memSetUsedChunkSize info chunk size

def memMalloc (info : Info) (size : ℕ) : ℕ × Info :=
  let size := memProperAllocSize size
  let chunk := findChunk info size
  if chunk = 0 then (0, info)
  else
    let size' := chunkSize info chunk
    (chunk, splitChunk (memUnlinkChunk info chunk) chunk size' size)

def memFree (info : Info) (ptr : ℕ) : Info :=
  let chunk := ptr - shmemSizeField
  let size := chunkSize info chunk
  let next := chunk + shmemSizeField + size + shmemSizeField
  let prevFree := info.loBound < chunk ∧ freeChunk info (chunk - shmemSizeField)
  let nextFree := next < info.hiBound ∧ freeChunk info next
  let prev := chunk - shmemSizeField - chunkSize info (chunk - shmemSizeField) - shmemSizeField
  let info := info.account (info.usedSize - size) (info.freeSize + size)
  if prevFree ∧ nextFree then
    let info := info.account info.usedSize (info.freeSize + 4 * shmemSizeField)
    let size := size + (4 * shmemSizeField + chunkSize info prev + chunkSize info next)
    let info := memUnlinkChunk info prev
    let info := memUnlinkChunk info next
    memLinkChunk (memSetChunkSize info prev size) prev
  else if prevFree then
    let info := info.account info.usedSize (info.freeSize + 2 * shmemSizeField)
    let size := size + (2 * shmemSizeField + chunkSize info prev)
    let info := memUnlinkChunk info prev
    memLinkChunk (memSetChunkSize info prev size) prev
  else if nextFree then
    let info := info.account info.usedSize (info.freeSize + 2 * shmemSizeField)
    let size := size + (2 * shmemSizeField + chunkSize info next)
    let info := memUnlinkChunk info next
    memLinkChunk (memSetChunkSize info chunk size) chunk
  else memLinkChunk (memSetChunkSize info chunk size) chunk

def memcpy (info : Info) (dst : ℕ) (src : ℕ → ℕ) (start len : ℕ) : Info :=
  { info with mem := fun a =>
      if dst ≤ a ∧ a < dst + len then src (start + (a - dst)) else info.mem a }

/-- `__mem_realloc` for a block that does not get bigger. -/
def memShrink (info : Info) (chunk size : ℕ) : Info :=
  let chunkSize' := chunkSize info chunk
  let next := chunk + shmemSizeField + chunkSize' + shmemSizeField
  let newChunk := chunk + shmemSizeField + size + shmemSizeField
  if chunkSize' / 4 < size then info
  else if next < info.hiBound ∧ freeChunk info next then
    let info := info.account (info.usedSize - (chunkSize' - size))
      (info.freeSize + (chunkSize' - size))
    let newChunkSize := chunkSize info next + (chunkSize' - size)
    let info := memUnlinkChunk info next
    let info := memLinkChunk (memSetChunkSize info newChunk newChunkSize) newChunk
    memSetUsedChunkSize info chunk size
  else
    let info := info.account (info.usedSize - (chunkSize' - size))
      (info.freeSize + (chunkSize' - size - 2 * shmemSizeField))
    let newChunkSize := chunkSize' - size - 2 * shmemSizeField
    let info := memLinkChunk (memSetChunkSize info newChunk newChunkSize) newChunk
    memSetUsedChunkSize info chunk size

/-- `__mem_realloc` into the free chunk behind the block. -/
def memGrow (info : Info) (chunk size : ℕ) : Info :=
  let chunkSize' := chunkSize info chunk
  let next := chunk + shmemSizeField + chunkSize' + shmemSizeField
  let info := info.account (info.usedSize - chunkSize')
    (info.freeSize + (chunkSize' + 2 * shmemSizeField))
  let chunkSize' := chunkSize' + (2 * shmemSizeField + chunkSize info next)
  splitChunk (memUnlinkChunk info next) chunk chunkSize' size

/-- `__mem_realloc`: the chunk of the block, zero when there is no memory for it; `none` where
the process ends because the memory just freed is not found again. -/
def memRealloc (info : Info) (old size : ℕ) : Option (ℕ × Info) :=
  let size := memProperAllocSize size
  let chunk := old - shmemSizeField
  let chunkSize' := chunkSize info chunk
  let next := chunk + shmemSizeField + chunkSize' + shmemSizeField
  let nextFree := next < info.hiBound ∧ freeChunk info next
  let data := chunk + shmemSizeField
  if size ≤ chunkSize' then some (chunk, memShrink info chunk size)
  else if nextFree ∧ size ≤ chunkSize' + 2 * shmemSizeField + chunkSize info next then
    some (chunk, memGrow info chunk size)
  else
    let (newChunk, moved) := memMalloc info size
    if newChunk ≠ 0 then
      some (newChunk,
        memFree (memcpy moved (newChunk + shmemSizeField) moved.mem data chunkSize') old)
    else
      let joined := chunkSize' +
        (if nextFree then chunkSize info next + 2 * shmemSizeField else 0)
      let joined := joined +
        (if info.loBound < chunk ∧ freeChunk info (chunk - shmemSizeField) then
          chunkSize info (chunk - shmemSizeField) + 2 * shmemSizeField
        else 0)
      if joined < size then some (0, info)
      else
        let (newChunk, placed) := memMalloc (memFree info old) size
        if newChunk = 0 then none
        else
          some (newChunk, memcpy placed (newChunk + shmemSizeField) info.mem data chunkSize')

def uint64 (n : ℤ) : ℕ := (n % 2 ^ 64).toNat

def sizeofInfo : ℕ := 96

/-- `zbx_shmem_create` in a segment of `size` bytes attached at `base`, the memory in it being
`mem`; `none` when the size is refused. -/
def zbxShmemCreate (base size : ℕ) (descr param : List Char) (mem : ℕ → ℕ) : Option Info :=
  if shmemMinSize ≤ size ∧ size ≤ shmemMaxSize then
    let info := align8 base
    let size := uint64 (size - (info + sizeofInfo - base : ℤ))
    let base := info + sizeofInfo
    let buckets := align8 base
    let size := uint64 (size - (buckets + 8 * zbxShmemBucketCount - base : ℤ))
    let base := buckets + 8 * zbxShmemBucketCount
    let size := uint64 (size - (descr.length + 1))
    let base := base + descr.length + 1
    let size := uint64 (size - (param.length + 1))
    let base := base + param.length + 1
    let loBound := align8 base
    let hiBound := align8 (uint64 (base + size - 8))
    let totalSize := uint64 (hiBound - loBound - 2 * shmemSizeField)
    let index := memBucketBySize totalSize
    let pool : Info :=
      { buckets := update (fun _ => 0) index loBound
        loBound
        hiBound
        freeSize := totalSize
        usedSize := 0
        totalSize
        mem }
    let pool := memSetChunkSize pool loBound totalSize
    let pool := memSetPrevChunk pool loBound 0
    some (memSetNextChunk pool loBound 0)
  else none

/-- `zbx_shmem_required_size`; the last product is one of two `int`. -/
def zbxShmemRequiredSize (chunksNum : ℤ) (descr param : List Char) : ℕ :=
  uint64 (7 + sizeofInfo + (8 - 1) + 8 * zbxShmemBucketCount + (descr.length + 1) +
    (param.length + 1) + ((shmemSizeField - 1) + 8) + ((shmemSizeField - 1) + 8) +
    (chunksNum - 1) * shmemSizeField * 2 + Int.bmod (chunksNum * (shmemMinAlloc - 1)) (2 ^ 32))

end Zabbix.Shmem
