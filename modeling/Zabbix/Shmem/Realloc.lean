import Zabbix.Shmem.Operations

/-!
# Changing the size of a block

`__mem_realloc` shrinks a block in place, grows it into the free chunk behind, moves it, or
releases it and allocates again.
-/

namespace Zabbix.Shmem

open List

variable {info info' : Info} {chunks pre post : List Chunk} {lists : ℕ → List ℕ} {c d : Chunk}
  {size : ℕ}
variable {other : Chunk → Prop} {back : List Chunk} {dst len n : ℕ}

structure Placed (other : Chunk → Prop) (info info' : Info) (chunks : List Chunk) (d : Chunk) :
    Prop where
  used : d.kind = .used
  tidy : ∃ chunks' lists', Tidy info' chunks' lists' ∧ d ∈ chunks' ∧
    ∀ e ∈ chunks, e.kind = .used → other e → e ∈ chunks' ∧ e.addr ≠ d.addr ∧
      ∀ a, e.addr ≤ a → a < e.stop → info'.mem a = info.mem a

theorem Placed.addr_ne_zero (h : Placed other info info' chunks d) : d.addr ≠ 0 := by
  obtain ⟨chunks', lists', htidy, hd, -⟩ := h.tidy
  exact (htidy.shape.addr_pos hd).ne'

theorem mem_others {e : Chunk} {cs : List Chunk} (he : e ∈ pre ++ cs ++ post)
    (hcs : ∀ c ∈ cs, e ≠ c) : e ∈ pre ++ post := by
  rw [mem_append, mem_append] at he
  rw [mem_append]
  rcases he with (he | he) | he
  · exact .inl he
  · exact absurd rfl (hcs e he)
  · exact .inr he

theorem Placed.replace (other : Chunk → Prop) (cs : List Chunk) {ds : List Chunk} {lists' : ℕ → List ℕ}
    (h : Tidy info (pre ++ cs ++ post) lists)
    (hother : ∀ e, e.kind = .used → other e → ∀ c ∈ cs, e ≠ c)
    (h' : Tidy info' (pre ++ ds ++ post) lists') (hothers : Undisturbed (pre ++ post) info info')
    (hd : d ∈ ds) (hused : d.kind = .used) (haddr : ∃ c ∈ cs, c.addr = d.addr) :
    Placed other info info' (pre ++ cs ++ post) d where
  used := hused
  tidy := by
    refine ⟨pre ++ ds ++ post, lists', h', by simp [hd], fun e he heused heother => ?_⟩
    have hcs := hother e heused heother
    have hmem := mem_others he hcs
    refine ⟨?_, fun heq => ?_, hothers e hmem (by simp [heused])⟩
    · rw [mem_append] at hmem
      rw [mem_append, mem_append]
      tauto
    · obtain ⟨c, hc, hcaddr⟩ := haddr
      exact hcs c hc (h.shape.tiles.eq_of_addr he (by simp [hc]) (heq.trans hcaddr.symm))

def Resized (info info' : Info) (chunks : List Chunk) (c d : Chunk) : Prop :=
  Placed (· ≠ c) info info' chunks d ∧
    ∀ i, i < c.size → i < d.size → info'.mem (d.addr + 8 + i) = info.mem (c.addr + 8 + i)

theorem memShrink_split (h : Tidy info (pre ++ c :: post) lists) (hused : c.kind = .used)
    (hsize : GoodSize size) (hquarter : size ≤ c.size / 4)
    (hnext : ¬(c.stop < info.hiBound ∧ freeChunk info c.stop = true))
    (hnextUsed : ∀ d ∈ post.head?, d.kind = .used) :
    Resized info (memShrink info c.addr size) (pre ++ c :: post) c ⟨c.addr, size, .used⟩ := by
  have hc : c ∈ pre ++ c :: post := by simp
  have hgood := h.shape.sizes c hc
  have hcsize := h.shape.chunkSize hc (h.settled c hc)
  have hstop : c.addr + 8 + c.size + 8 = c.stop := by
    unfold Chunk.stop
    omega
  have hrest : GoodSize (c.size - size - 16) := by
    unfold GoodSize shmemMinAlloc at *
    omega
  have hadd : size + 16 + (c.size - size - 16) = c.size := by
    unfold GoodSize shmemMinAlloc at *
    omega
  let counted := info.account (info.usedSize - (c.size - size)) (info.freeSize + (c.size - size - 16))
  have hheld : Shape counted (pre ++ c.withKind .held :: post) lists :=
    (h.shape.account _ _).hold hused
  obtain ⟨⟨lists', hcut⟩, hcutOthers, hdata⟩ := hheld.cutTwo rfl hsize hrest hadd
  have hothers : Undisturbed (pre ++ post) info (cutTwo counted c.addr size (c.size - size - 16)) :=
    hcutOthers
  have hshrink : memShrink info c.addr size = cutTwo counted c.addr size (c.size - size - 16) := by
    unfold memShrink cutTwo shmemSizeField
    simp only [hcsize, hstop, hnext, if_false]
    rw [if_neg (by omega), show c.addr + 8 + size + 8 = c.addr + size + 16 by omega]
  have hinfoUsed := h.used
  have hinfoFree := h.free
  simp only [usedBytes_append, usedBytes_cons, hused, if_true] at hinfoUsed
  simp only [freeBytes_append, freeBytes_cons, hused, reduceCtorEq, if_false] at hinfoFree
  have hseparate := (separate_used hused).mp h.separate
  rw [hshrink]
  refine ⟨?_, fun i _ hi => hdata _ (by simp) (by simpa using hi)⟩
  have htidy : Tidy (cutTwo counted c.addr size (c.size - size - 16)) (pre ++
      [⟨c.addr, size, .used⟩, ⟨c.addr + size + 16, c.size - size - 16, .free⟩] ++ post) lists' := by
    refine h.next (by simpa using hcut) ?_
      (separate_cutTwo hseparate.1 hseparate.2 hnextUsed _ _ _ _) ?_
    · exact settled_replace [c] _ (by simpa using h.settled) (by simp)
    · refine Info.Counts.trans ?_ (cutTwo_counts _ _ _ _)
      refine ⟨rfl, rfl, rfl, ?_, ?_⟩ <;> simp [counted, Info.account, hinfoUsed, hinfoFree] <;> omega
  have hplaced := Placed.replace (· ≠ c) [c] (by simpa using h)
    (fun e _ he d hd => by simpa using (mem_singleton.mp hd) ▸ he) htidy hothers
    (mem_cons_self ..) rfl ⟨c, by simp, rfl⟩
  simpa using hplaced

theorem exists_cut_used {size : ℕ} (hle : size ≤ c.size) :
    ∃ d ∈ cut c size, d.kind = .used ∧ d.addr = c.addr ∧ size ≤ d.size ∧ d.size ≤ c.size := by
  unfold cut
  split
  · exact ⟨c.withKind .used, by simp, rfl, rfl, hle, le_rfl⟩
  · exact ⟨⟨c.addr, size, .used⟩, by simp, rfl, rfl, le_rfl, hle⟩

section Pair

variable {n : Chunk} (h : Tidy info (pre ++ c :: n :: back) lists)

include h

theorem Tidy.holdNext (hused : c.kind = .used) (hnfree : n.kind = .free) (hnaddr : n.addr = c.stop)
    (used free : ℕ) :
    (∃ lists', Shape (memUnlinkChunk (info.account used free) n.addr)
      (pre ++ ⟨c.addr, c.size + 16 + n.size, .held⟩ :: back) lists') ∧
    Undisturbed (pre ++ [c] ++ back) info (memUnlinkChunk (info.account used free) n.addr) := by
  have hcounted : Shape (info.account used free) ((pre ++ [c]) ++ n :: back) lists := by
    simpa using h.shape.account used free
  obtain ⟨lists', hunlinked⟩ := hcounted.unlink hnfree
  refine ⟨⟨lists', ?_⟩, hcounted.unlink_undisturbed hnfree⟩
  have hheld := (show Shape (memUnlinkChunk (info.account used free) n.addr)
    (pre ++ c :: (n.withKind .held :: back)) lists' by simpa using hunlinked).hold hused
  have hc := h.shape.sizes c (by simp)
  have hn := h.shape.sizes n (by simp)
  have hgood : GoodSize (c.size + 16 + n.size) := by
    have hcbounds := h.shape.tiles.bounds (c := c) (by simp)
    have hnbounds := h.shape.tiles.bounds (c := n) (by simp)
    have hhigh := h.shape.low.2.2
    unfold GoodSize shmemMinAlloc Chunk.stop at *
    omega
  have hretile := (show Shape (memUnlinkChunk (info.account used free) n.addr)
    (pre ++ [c.withKind .held, n.withKind .held] ++ back) lists' by simpa using hheld).retile
    [⟨c.addr, c.size + 16 + n.size, .held⟩] (by simp) (by simp [hgood])
    (fun a b hab => by
      obtain ⟨haddr, haddr', hb⟩ := hab
      obtain rfl : n.stop = b := hb
      refine ⟨haddr, ?_⟩
      simp only [Tiles]
      unfold Chunk.stop at hnaddr ⊢
      simp only
      omega)
  simpa using hretile

theorem Tidy.pair (hused : c.kind = .used) (hnfree : n.kind = .free) :
    info.usedSize = usedBytes pre + (c.size + usedBytes back) ∧
    info.freeSize = freeBytes pre + (n.size + freeBytes back) ∧
    pre.IsChain NextUsed ∧ back.IsChain NextUsed ∧ ∀ d ∈ back.head?, d.kind = .used := by
  have hseparate := (separate_used hused).mp h.separate
  have hback := (separate_free (l := []) hnfree).mp hseparate.2
  refine ⟨?_, ?_, hseparate.1, hback.2.1, hback.2.2.2⟩
  · simp [h.used, hused, hnfree]
  · simp [h.free, hused, hnfree]

theorem Placed.pair {ds : List Chunk} {lists' : ℕ → List ℕ} (hnfree : n.kind = .free)
    (h' : Tidy info' (pre ++ ds ++ back) lists') (hothers : Undisturbed (pre ++ back) info info')
    (hd : d ∈ ds) (hused : d.kind = .used) (haddr : d.addr = c.addr) :
    Placed (· ≠ c) info info' (pre ++ c :: n :: back) d := by
  have hplaced := Placed.replace (· ≠ c) [c, n] (by simpa using h)
    (fun e heused he d hd => by
      rcases mem_cons.mp hd with rfl | hd
      · exact he
      · obtain rfl := mem_singleton.mp hd
        rintro rfl
        rw [hnfree] at heused
        cases heused) h' hothers hd hused ⟨c, by simp, haddr.symm⟩
  simpa using hplaced

theorem memShrink_merge (hused : c.kind = .used) (hsize : GoodSize size)
    (hquarter : size ≤ c.size / 4) (hnfree : n.kind = .free) (hnaddr : n.addr = c.stop)
    (hnext : c.stop < info.hiBound ∧ freeChunk info c.stop = true)
    (hnsize : chunkSize info c.stop = n.size) :
    Resized info (memShrink info c.addr size) (pre ++ c :: n :: back) c ⟨c.addr, size, .used⟩ := by
  have hgood := h.shape.sizes c (by simp)
  have hngood := h.shape.sizes n (by simp)
  have hcsize := h.shape.chunkSize (c := c) (by simp) (h.settled c (by simp))
  have hstop : c.addr + 8 + c.size + 8 = c.stop := by
    unfold Chunk.stop
    omega
  obtain ⟨⟨lists₁, hheld⟩, hunlinked⟩ := h.holdNext hused hnfree hnaddr
    (info.usedSize - (c.size - size)) (info.freeSize + (c.size - size))
  have hadd : size + 16 + (n.size + (c.size - size)) = c.size + 16 + n.size := by
    unfold GoodSize shmemMinAlloc at *
    omega
  have hrest : GoodSize (n.size + (c.size - size)) := by
    have hgoodHeld := (hheld.sizes ⟨c.addr, c.size + 16 + n.size, .held⟩ (by simp)).2.2
    unfold GoodSize shmemMinAlloc at *
    simp only at hgoodHeld
    omega
  obtain ⟨⟨lists', hcut⟩, hothers, hdata⟩ := hheld.cutTwo rfl hsize hrest hadd
  have hshrink : memShrink info c.addr size = cutTwo (memUnlinkChunk (info.account
      (info.usedSize - (c.size - size)) (info.freeSize + (c.size - size))) n.addr) c.addr size
        (n.size + (c.size - size)) := by
    unfold memShrink cutTwo shmemSizeField
    simp only [hcsize, hstop, hnext, and_self, if_true, chunkSize_account, hnsize, hnaddr]
    rw [if_neg (by omega), show c.addr + 8 + size + 8 = c.addr + size + 16 by omega]
  obtain ⟨hinfoUsed, hinfoFree, hpre, hback, hbackUsed⟩ := h.pair hused hnfree
  rw [hshrink]
  have htidy : Tidy (cutTwo (memUnlinkChunk (info.account (info.usedSize - (c.size - size))
      (info.freeSize + (c.size - size))) n.addr) c.addr size (n.size + (c.size - size)))
      (pre ++ [⟨c.addr, size, .used⟩,
        ⟨c.addr + size + 16, n.size + (c.size - size), .free⟩] ++ back) lists' := h.next
    (by simpa using hcut) (settled_replace [c, n] _ (by simpa using h.settled) (by simp))
    (separate_cutTwo hpre hback hbackUsed _ _ _ _) (by
      refine Info.Counts.trans ?_ (cutTwo_counts _ _ _ _)
      refine Info.Counts.trans ?_ (memUnlinkChunk_counts _ _)
      refine ⟨rfl, rfl, rfl, ?_, ?_⟩ <;> simp [Info.account, hinfoUsed, hinfoFree] <;> omega)
  refine ⟨?_, fun i hi hi' => ?_⟩
  · exact .pair h hnfree htidy
      ((hunlinked.subset fun d hd => by simpa using Shape.mem_of_others hd).trans hothers) (mem_cons_self ..) rfl rfl
  · refine (hdata _ (by simp) (by simpa using hi')).trans ?_
    exact hunlinked c (by simp) (by simp [hused]) _ (by simp only; omega)
      (by unfold Chunk.stop; simp only; omega)

theorem memGrow_resized (hused : c.kind = .used) (hsize : GoodSize size) (hlt : c.size < size)
    (hle : size ≤ c.size + 16 + n.size) (hnfree : n.kind = .free) (hnaddr : n.addr = c.stop)
    (hnsize : chunkSize info c.stop = n.size) :
    ∃ d, d.addr = c.addr ∧ size ≤ d.size ∧
      Resized info (memGrow info c.addr size) (pre ++ c :: n :: back) c d := by
  have hcsize := h.shape.chunkSize (c := c) (by simp) (h.settled c (by simp))
  have hstop : c.addr + 8 + c.size + 8 = c.stop := by
    unfold Chunk.stop
    omega
  let joined : Chunk := ⟨c.addr, c.size + 16 + n.size, .held⟩
  let counted := info.account (info.usedSize - c.size) (info.freeSize + (c.size + 16))
  obtain ⟨⟨lists₁, hheld⟩, hunlinked⟩ := h.holdNext hused hnfree hnaddr
    (info.usedSize - c.size) (info.freeSize + (c.size + 16))
  obtain ⟨⟨lists', hcut⟩, hothers, hdata⟩ := hheld.splitChunk rfl hsize
  have hgrow : memGrow info c.addr size =
      splitChunk (memUnlinkChunk counted n.addr) joined.addr joined.size size := by
    unfold memGrow shmemSizeField
    simp only [hcsize, hstop, chunkSize_account, hnsize, hnaddr]
    rw [show c.size + (2 * 8 + n.size) = joined.size by simp only [joined]; omega]
  obtain ⟨hinfoUsed, hinfoFree, hpre, hback, hbackUsed⟩ := h.pair hused hnfree
  obtain ⟨d, hd, hdused, hdaddr, hdsize, -⟩ := exists_cut_used (c := joined) hle
  refine ⟨d, hdaddr, hdsize, ?_⟩
  rw [hgrow]
  have htidy : Tidy (splitChunk (memUnlinkChunk counted n.addr) joined.addr joined.size size)
      (pre ++ cut joined size ++ back) lists' := by
    refine h.next hcut
      (settled_replace [c, n] _ (by simpa using h.settled) (cut_settled joined size))
      (separate_cut hpre hback hbackUsed joined size) ?_
    have hunlink := memUnlinkChunk_counts counted n.addr
    refine Info.Counts.trans ?_ (splitChunk_counts _ joined size)
    refine ⟨hunlink.loBound, hunlink.hiBound, hunlink.totalSize, ?_, ?_⟩
    · show (memUnlinkChunk counted n.addr).usedSize + _ = _
      rw [hunlink.usedSize]
      simp only [counted, Info.account, hinfoUsed, usedBytes_append]
      omega
    · show (memUnlinkChunk counted n.addr).freeSize - _ + _ = _
      rw [hunlink.freeSize]
      simp only [counted, Info.account, hinfoFree, freeBytes_append, joined]
      omega
  refine ⟨?_, fun i hi hi' => ?_⟩
  · exact .pair h hnfree htidy
      ((hunlinked.subset fun d hd => by simpa using Shape.mem_of_others hd).trans hothers) hd hdused hdaddr
  · rw [hdaddr]
    refine (hdata _ (by simp only [joined]; omega) (by simp only [joined]; omega)).trans ?_
    exact hunlinked c (by simp) (by simp [hused]) _ (by simp only [joined]; omega)
      (by unfold Chunk.stop; simp only [joined]; omega)

end Pair

theorem memShrink_resized (h : Tidy info chunks lists) (hc : c ∈ chunks) (hused : c.kind = .used)
    (hsize : GoodSize size) (hle : size ≤ c.size) :
    ∃ d, d.addr = c.addr ∧ size ≤ d.size ∧
      Resized info (memShrink info c.addr size) chunks c d := by
  have hcsize := h.shape.chunkSize hc (h.settled c hc)
  by_cases hquarter : c.size / 4 < size
  · have hkeep : memShrink info c.addr size = info := by
      unfold memShrink
      simp only [hcsize]
      rw [if_pos hquarter]
    rw [hkeep]
    refine ⟨c, rfl, hle, ⟨hused, chunks, lists, h, hc, fun e he _ hne => ⟨he, ?_, by simp⟩⟩,
      by simp⟩
    exact fun heq => hne (h.shape.tiles.eq_of_addr he hc heq)
  · obtain ⟨pre, post, rfl⟩ := append_of_mem hc
    refine ⟨⟨c.addr, size, .used⟩, rfl, le_rfl, ?_⟩
    rcases h.next_cases with ⟨n, back, rfl, hnfree, hnaddr, hnext, hnsize⟩ | ⟨hnext, hnextUsed⟩
    · exact memShrink_merge h hused hsize (by omega) hnfree hnaddr hnext hnsize
    · exact memShrink_split h hused hsize (by omega) hnext hnextUsed

theorem Tidy.payload (h : Tidy info chunks lists) (hd : d ∈ chunks) (hused : d.kind = .used)
    {mem : ℕ → ℕ} (hmem : ∀ a, ¬(d.addr + 8 ≤ a ∧ a < d.addr + 8 + d.size) → mem a = info.mem a) :
    Tidy { info with mem } chunks lists := by
  have hother : ∀ e ∈ chunks, e = d ∨ e.stop ≤ d.addr ∨ d.stop ≤ e.addr := fun e he =>
    h.shape.tiles.apart he hd
  have hshape : Shape { info with mem } chunks lists := by
    refine h.shape.frame (fun e he _ => ⟨hmem _ ?_, hmem _ ?_⟩) fun e he hfree => ?_
    · rcases hother e he with rfl | hlt | hlt <;> unfold Chunk.stop at * <;> omega
    · rcases hother e he with rfl | hlt | hlt <;> unfold Chunk.stop at * <;> omega
    · have hsize := (h.shape.sizes e he).1
      rcases hother e he with rfl | hlt | hlt
      · rw [hused] at hfree
        cases hfree
      · unfold Chunk.stop shmemMinAlloc at *
        exact ⟨hmem _ (by omega), hmem _ (by omega)⟩
      · unfold Chunk.stop at *
        exact ⟨hmem _ (by omega), hmem _ (by omega)⟩
  exact ⟨hshape, h.settled, h.separate, h.used, h.free, h.total⟩

theorem memcpy_mem (info : Info) (src : ℕ → ℕ) (start : ℕ) {i : ℕ} (hi : i < len) :
    (memcpy info dst src start len).mem (dst + i) = src (start + i) := by
  unfold memcpy
  simp only
  rw [if_pos (by omega), Nat.add_sub_cancel_left]

theorem memcpy_mem_of_not (info : Info) {a : ℕ} (src : ℕ → ℕ) (start : ℕ)
    (ha : ¬(dst ≤ a ∧ a < dst + len)) : (memcpy info dst src start len).mem a = info.mem a :=
  if_neg ha

theorem Placed.memcpy (h : Placed other info info' chunks d) (hlen : len ≤ d.size) (src : ℕ → ℕ)
    (start : ℕ) :
    Placed other info (memcpy info' (d.addr + 8) src start len) chunks d where
  used := h.used
  tidy := by
    obtain ⟨chunks', lists', htidy, hd, hothers⟩ := h.tidy
    refine ⟨chunks', lists', htidy.payload hd h.used fun a ha => ?_, hd, fun e he hused hother => ?_⟩
    · exact memcpy_mem_of_not _ _ _ (by omega)
    · obtain ⟨he', hne, hwords⟩ := hothers e he hused hother
      refine ⟨he', hne, fun a hle hlt => ?_⟩
      refine (memcpy_mem_of_not _ _ _ ?_).trans (hwords a hle hlt)
      rcases htidy.shape.tiles.apart he' hd with rfl | hapart | hapart
      · exact absurd rfl hne
      · omega
      · unfold Chunk.stop at hapart
        omega

theorem memMalloc_placed (h : Tidy info chunks lists) (hn : n ≤ shmemMaxSize) :
    (memMalloc info n = (0, info) ∧ ∀ c ∈ chunks, c.kind = .free → c.size < memProperAllocSize n) ∨
    ∃ d, (memMalloc info n).1 = d.addr ∧ memProperAllocSize n ≤ d.size ∧
      Placed (fun _ => True) info (memMalloc info n).2 chunks d := by
  rcases memMalloc_tidy h hn with hnone |
    ⟨pre, c, post, lists', rfl, hfree, hle, haddr, htidy, hothers⟩
  · exact .inl hnone
  · obtain ⟨d, hd, hused, hdaddr, hsize, -⟩ := exists_cut_used hle
    refine .inr ⟨d, haddr.trans hdaddr.symm, hsize, ?_⟩
    have hplaced := Placed.replace (fun _ => True) [c] (by simpa using h)
      (fun e heused _ c' hc' => ?_) htidy hothers hd hused ⟨c, by simp, hdaddr.symm⟩
    · simpa using hplaced
    · obtain rfl := mem_singleton.mp hc'
      rintro rfl
      rw [hfree] at heused
      cases heused

theorem Freed.kept (h : Freed info info' pre post c) :
    ∃ chunks' lists', Tidy info' chunks' lists' ∧
      (∃ m ∈ chunks', m.kind = .free ∧ m.size = joinedSize info c) ∧
      ∀ e ∈ pre ++ post, e.kind = .used → e ∈ chunks' ∧
        ∀ a, e.addr ≤ a → a < e.stop → info'.mem a = info.mem a := by
  obtain ⟨front, left, right, back, m, lists', rfl, rfl, hfree, hmfree, hmsize, htidy, hothers⟩ :=
    h.result
  refine ⟨_, lists', htidy, ⟨m, by simp, hmfree, hmsize⟩, fun e he hused => ?_⟩
  have hmem : e ∈ front ++ back := by
    by_contra hnot
    have hsides : e ∈ left ++ right := by
      simp only [mem_append] at he hnot ⊢
      tauto
    rw [hfree e hsides] at hused
    cases hused
  exact ⟨Shape.mem_of_others hmem, hothers e hmem (by simp [hused])⟩

theorem mem_others_of_ne (he : d ∈ pre ++ c :: post) (hne : d ≠ c) : d ∈ pre ++ post := by
  rw [mem_append, mem_cons] at he
  rw [mem_append]
  tauto

theorem Placed.memFree (h : Placed (fun _ => True) info info' chunks d) (hc : c ∈ chunks)
    (hused : c.kind = .used) :
    Placed (· ≠ c) info (memFree info' (c.addr + 8)) chunks d ∧
      ∀ a, d.addr ≤ a → a < d.stop → (memFree info' (c.addr + 8)).mem a = info'.mem a := by
  obtain ⟨chunks', lists', htidy, hd, hothers⟩ := h.tidy
  obtain ⟨hc', hcne, -⟩ := hothers c hc hused trivial
  obtain ⟨pre, post, rfl⟩ := append_of_mem hc'
  obtain ⟨chunks'', lists'', htidy', -, hkept⟩ := (memFree_freed htidy hused).kept
  have hdc : d ≠ c := fun heq => hcne (heq ▸ rfl)
  obtain ⟨hd'', hdwords⟩ := hkept d (mem_others_of_ne hd hdc) h.used
  refine ⟨⟨h.used, chunks'', lists'', htidy', hd'', fun e he heused hne => ?_⟩, hdwords⟩
  obtain ⟨he', hed, hwords⟩ := hothers e he heused trivial
  obtain ⟨he'', hwords'⟩ := hkept e (mem_others_of_ne he' hne) heused
  exact ⟨he'', hed, fun a hle hlt => (hwords' a hle hlt).trans (hwords a hle hlt)⟩

theorem memRealloc_move (h : Placed (fun _ => True) info info' chunks d) (hc : c ∈ chunks)
    (hused : c.kind = .used) (hsize : c.size ≤ d.size) :
    Resized info (memFree (memcpy info' (d.addr + 8) info'.mem (c.addr + 8) c.size) (c.addr + 8))
      chunks c d := by
  obtain ⟨hplaced, hwords⟩ := (h.memcpy hsize info'.mem (c.addr + 8)).memFree hc hused
  refine ⟨hplaced, fun i hi hi' => ?_⟩
  obtain ⟨chunks', lists', -, -, hothers⟩ := h.tidy
  obtain ⟨-, -, hcwords⟩ := hothers c hc hused trivial
  rw [hwords _ (by omega) (by unfold Chunk.stop; omega), memcpy_mem _ _ _ hi]
  exact hcwords _ (by omega) (by unfold Chunk.stop; omega)

theorem memRealloc_release (h : Tidy info chunks lists) (hc : c ∈ chunks) (hused : c.kind = .used)
    (hn : n ≤ shmemMaxSize) (hjoined : memProperAllocSize n ≤ joinedSize info c)
    (hsize : c.size ≤ memProperAllocSize n) :
    ∃ d, (memMalloc (memFree info (c.addr + 8)) n).1 = d.addr ∧ memProperAllocSize n ≤ d.size ∧
      Resized info (memcpy (memMalloc (memFree info (c.addr + 8)) n).2 (d.addr + 8) info.mem
        (c.addr + 8) c.size) chunks c d := by
  obtain ⟨pre, post, rfl⟩ := append_of_mem hc
  obtain ⟨chunks', lists', htidy, ⟨m, hm, hmfree, hmsize⟩, hkept⟩ := (memFree_freed h hused).kept
  rcases memMalloc_placed htidy hn with ⟨-, hsmall⟩ | ⟨d, haddr, hdsize, hplaced⟩
  · have := hsmall m hm hmfree
    omega
  · refine ⟨d, haddr, hdsize, ?_, fun i hi _ => memcpy_mem _ _ _ hi⟩
    have hcopied := hplaced.memcpy (hsize.trans hdsize) info.mem (c.addr + 8)
    obtain ⟨chunks'', lists'', htidy', hd, hothers⟩ := hcopied.tidy
    refine ⟨hcopied.used, chunks'', lists'', htidy', hd, fun e he heused hne => ?_⟩
    obtain ⟨he', hwords⟩ := hkept e (mem_others_of_ne he hne) heused
    obtain ⟨he'', hed, hwords'⟩ := hothers e he' heused trivial
    exact ⟨he'', hed, fun a hle hlt => (hwords' a hle hlt).trans (hwords a hle hlt)⟩

theorem joinedSize_eq (info : Info) (c : Chunk) :
    joinedSize info c = c.size +
      (if c.stop < info.hiBound ∧ freeChunk info c.stop = true then
        chunkSize info c.stop + 2 * 8 else 0) +
      (if info.loBound < c.addr ∧ freeChunk info (c.addr - 8) = true then
        chunkSize info (c.addr - 8) + 2 * 8 else 0) := rfl

theorem memProperAllocSize_of_good (h : GoodSize n) : memProperAllocSize n = n := by
  unfold memProperAllocSize
  rw [if_pos h.1, h.2.1]
  rfl

theorem memProperAllocSize_le_max (h : n ≤ shmemMaxSize) : memProperAllocSize n ≤ shmemMaxSize := by
  unfold memProperAllocSize shmemMaxSize shmemMinAlloc at *
  split <;> omega

theorem memRealloc_resized (h : Tidy info chunks lists) (hc : c ∈ chunks) (hused : c.kind = .used)
    (hn : n ≤ shmemMaxSize) :
    memRealloc info (c.addr + 8) n = some (0, info) ∨
      ∃ d info', memRealloc info (c.addr + 8) n = some (d.addr, info') ∧
        memProperAllocSize n ≤ d.size ∧ Resized info info' chunks c d := by
  have hsize := memProperAllocSize_good hn
  have hmax := memProperAllocSize_le_max hn
  have hproper := memProperAllocSize_of_good hsize
  have hcsize := h.shape.chunkSize hc (h.settled c hc)
  have hstop : c.addr + 8 + c.size + 8 = c.stop := by
    unfold Chunk.stop
    omega
  unfold memRealloc shmemSizeField
  simp only [Nat.add_sub_cancel, hcsize, hstop]
  generalize memProperAllocSize n = size at *
  split
  · next hle =>
    obtain ⟨d, haddr, hdsize, hresized⟩ := memShrink_resized h hc hused hsize hle
    exact .inr ⟨d, _, by rw [haddr], hdsize, hresized⟩
  · next hgt =>
    split
    · next hgrow =>
      obtain ⟨pre, post, rfl⟩ := append_of_mem hc
      rcases h.next_cases with ⟨k, back, rfl, hkfree, hkaddr, -, hksize⟩ | ⟨hnext, -⟩
      · obtain ⟨d, haddr, hdsize, hresized⟩ := memGrow_resized h hused hsize (by omega)
          (by omega) hkfree hkaddr hksize
        exact .inr ⟨d, _, by rw [haddr], hdsize, hresized⟩
      · exact absurd hgrow.1 (by simpa using hnext)
    · rcases memMalloc_placed h hmax with ⟨hnone, -⟩ | ⟨d, haddr, hdsize, hplaced⟩
      · rw [hnone]
        simp only [ne_eq, not_true_eq_false, if_false]
        rw [← joinedSize_eq]
        by_cases hjoined : joinedSize info c < size
        · rw [if_pos hjoined]
          exact .inl rfl
        · obtain ⟨d, haddr, hdsize, hresized⟩ := memRealloc_release h hc hused hmax
            (by rw [hproper]; omega) (by omega)
          have hpos := hresized.1.addr_ne_zero
          rw [if_neg hjoined, haddr, if_neg hpos]
          exact .inr ⟨d, _, rfl, by omega, hresized⟩
      · have hpos := hplaced.addr_ne_zero
        rw [haddr, if_pos hpos]
        exact .inr ⟨d, _, rfl, by omega, memRealloc_move hplaced hc hused (by omega)⟩

end Zabbix.Shmem
