import RtThread.Mem.Malloc

/-!
# `rt_realloc`, `rt_calloc` and writes into user areas

`rt_realloc` returns its argument, splits the block in place, or moves it: a new block, a copy, and
`rt_free` of the old one. What the copy, the fill of `rt_calloc` and the program itself write lies
in the payload of one block, where no header is.
-/

namespace RtThread.Mem
open BlockChain
open List
variable {s : Heap} {bs l r : List Blk} {x : Blk} {size lf : Nat} {m : ByteMem}

/-- Memory `m` differs from the heap's only inside the payload of `x`, whose successors are `r`. -/
def PayloadWrite (s : Heap) (x : Blk) (r : List Blk) (m : ByteMem) : Prop :=
  ∀ a, a < s.heapPtr + x.off + 16 ∨ s.heapPtr + headOff r s.endOff ≤ a → m a = s.mem a

theorem PayloadWrite.view_eq (hm : PayloadWrite s x r m) {o : Nat}
    (ho : o + 16 ≤ x.off + 16 ∨ headOff r s.endOff ≤ o) :
    Heap.view { s with mem := m } o = s.view o :=
  Heap.headerAt_congr fun a hlo hhi => hm a (by simp only [] at hlo hhi; omega)

theorem Layout.payloadWrite (h : Layout s (l ++ x :: r))
    (hm : PayloadWrite s x r m) : Layout { s with mem := m } (l ++ x :: r) := by
  obtain ⟨hl, hgap, hr, hle⟩ := h.around
  refine ⟨h.toChain.transfer ⟨rfl, rfl, rfl⟩ (fun z hz => hm.view_eq ?_) (hm.view_eq (.inr hle)),
    h.coalesced, h.lfree⟩
  simp only [mem_append, mem_cons] at hz
  obtain hz | rfl | hz := hz
  · have := hl z hz
    omega
  · omega
  · exact .inr (hr z hz).1

/-- The rest of a shrunk block is merged with an unused block behind it; the block in front of it
is the shrunk one, which is used. -/
theorem plugged_behind_used (y : Blk) (lf : Nat) (hx : x.tag.used ≠ 0) :
    plugged (l ++ [x]) y r = l ++ x :: y :: joinRight r ∧
      plugLfree (l ++ [x]) y r lf = forwardLfree y lf r := by
  have hlast : ¬ lastFree (l ++ [x]) := by simpa [LastFree] using hx
  rw [plugged, plug, plugLfree, if_neg hlast, if_neg fun h => hlast h.1]
  simp

theorem plugHoles_behind_used {y : Blk} (h : Chain s (l ++ x :: y :: r)) (hx : x.tag.used ≠ 0)
    (hlf : s.lfree = s.heapPtr + lf) (hl : l.IsChain Coalesced) (hr : r.IsChain Coalesced)
    (hon : OnChain (l ++ x :: y :: r) s.endOff lf) :
    Layout (plugHoles s (s.heapPtr + y.off)) (l ++ x :: y :: joinRight r) ∧
      SameFrame s (plugHoles s (s.heapPtr + y.off)) ∧
      (plugHoles s (s.heapPtr + y.off)).lfree = s.heapPtr + forwardLfree y lf r := by
  have hassoc : l ++ x :: y :: r = (l ++ [x]) ++ y :: r := by simp
  obtain ⟨hplug, hplf⟩ := plugged_behind_used y lf hx
  obtain ⟨hc, hf, hlf'⟩ := plugHoles_spec (hassoc ▸ h) hlf
  have hlx : (l ++ [x]).IsChain Coalesced :=
    isChain_append.mpr ⟨hl, isChain_singleton x, fun w _ z hz =>
      .inr (by simp only [List.head?_cons, Option.mem_some_iff] at hz; exact hz ▸ hx)⟩
  have hco := plugged_coalesced (x := y) hlx hr
  have hon' := plugLfree_onChain (hassoc ▸ hon)
  rw [hplug] at hc hco hon'
  rw [hplf] at hlf' hon'
  exact ⟨⟨hc, hco, _, by rw [hf.heapPtr]; exact hlf', by rw [hf.endOff]; exact hon'⟩, hf, hlf'⟩

/-- The split of `rt_realloc`: the new unused block starts at `m`, and `lfree` moves to it only
if it pointed at the unused block that was merged into it. -/
theorem reallocSplit_spec (size : Nat) {m newsize : Nat} (h : Layout s (l ++ x :: r))
    (hx : x.tag.used ≠ 0)
    (hlf : s.lfree = s.heapPtr + lf) (hm : m = x.off + 16 + newsize) (h8 : 8 ∣ newsize)
    (hhi : m + 16 ≤ headOff r s.endOff) :
    Layout (reallocSplit s x.off size newsize) (l ++ x :: ⟨m, freeTag⟩ :: joinRight r) ∧
      SameFrame s (reallocSplit s x.off size newsize) ∧
      (reallocSplit s x.off size newsize).lfree = s.heapPtr + forwardLfree ⟨m, freeTag⟩ lf r := by
  have hlo : x.off + 16 ≤ m := by omega
  have h8m : 8 ∣ m := hm ▸ (Nat.dvd_add_right
    (Nat.dvd_add (h.blocks x (by simp)).aligned (by decide))).mpr h8
  -- the state `plug_holes` is called on
  obtain ⟨s1, hdef, hc, hf, hl⟩ : ∃ s1 : Heap,
      reallocSplit s x.off size newsize = plugHoles s1 (s1.heapPtr + m) ∧
      Chain s1 (l ++ x :: ⟨m, freeTag⟩ :: r) ∧ SameFrame s s1 ∧ s1.lfree = s.lfree := by
    have hc0 : Chain { s with usedMem := sub32 s.usedMem (size - newsize) } (l ++ x :: r) :=
      h.toChain.transfer ⟨rfl, rfl, rfl⟩ (fun _ _ => rfl) rfl
    have hcut := createMem2_cutAt hc0 rfl hlo hhi
    obtain ⟨hc, hf, hl⟩ := fixPrev_spec hc0 rfl hlo hhi h8m (hc0.blocks x (by simp)) hcut
    exact ⟨_, by rw [reallocSplit, sizeofStructMem_eq, hm], hc, ⟨hf.1, hf.2, hf.3⟩, hl⟩
  obtain ⟨hcl, hcxr, -⟩ := isChain_append.mp h.coalesced
  have hon : OnChain (l ++ x :: ⟨m, freeTag⟩ :: r) s1.endOff lf := by
    obtain ⟨o, ho, hon⟩ := h.lfree
    obtain rfl : lf = o := by omega
    rw [hf.endOff]
    refine hon.imp_right fun ⟨z, hz, hoff⟩ => ⟨z, ?_, hoff⟩
    simp only [mem_append, mem_cons] at hz ⊢
    exact hz.imp_right fun hz => hz.imp_right .inr
  obtain ⟨hlay, hf', hlf'⟩ := plugHoles_behind_used hc hx (by rw [hl, hlf, hf.heapPtr]) hcl
    (isChain_cons.mp hcxr).2 hon
  rw [hdef]
  exact ⟨hlay, hf.trans hf', by rw [hlf', hf.heapPtr]⟩

/-- What `rt_realloc` can do to the used block `x` between `l` and `r`, when asked for `newsize`
bytes (already rounded up): nothing, a split in place, or a move. The split happens exactly if the
block is more than a header and `MIN_SIZE` too large. The last indices are what it returns. -/
inductive ReallocOutcome (s : Heap) (l : List Blk) (x : Blk) (r : List Blk) (newsize : Nat) :
    Nat → Heap → Prop
  | refused (hsize : headOff r s.endOff ≤ x.off + 16 + newsize + 28) :
      ReallocOutcome s l x r newsize rtNull s
  | kept (hsize : headOff r s.endOff = x.off + 16 + newsize) :
      ReallocOutcome s l x r newsize (s.heapPtr + x.off + 16) s
  | split {s' : Heap} (hsize : x.off + 16 + newsize + 28 < headOff r s.endOff)
      (heq : s' = reallocSplit s x.off (headOff r s.endOff - x.off - 16) newsize) :
      ReallocOutcome s l x r newsize (s.heapPtr + x.off + 16) s'
  | moved {l₁ r₁ l₂ r₂ : List Blk} {y : Blk} {s₁ : Heap} {m : ByteMem}
      (hsize : headOff r s.endOff ≤ x.off + 16 + newsize + 28)
      (hbs : l ++ x :: r = l₁ ++ y :: r₁)
      (hret : rtMalloc s newsize = some (s.heapPtr + y.off + 16, s₁))
      (halloc : Allocated s (blockSize (rtAlign newsize rtAlignSize)) l₁ y r₁ s₁)
      (hbs₂ : l₁ ++ taken s.endOff (blockSize (rtAlign newsize rtAlignSize)) y r₁ = l₂ ++ x :: r₂)
      (hlayout : Layout { s₁ with mem := m } (l₂ ++ x :: r₂)) :
      ReallocOutcome s l x r newsize (s.heapPtr + y.off + 16)
        (rtFree { s₁ with mem := m } (s₁.heapPtr + x.off + 16))

theorem taken_room {e n : Nat} (hfit : x.off + 16 + size ≤ headOff r e) (hn : n ≤ size) :
    ∃ t, taken e size x r = ⟨x.off, usedTag⟩ :: t ∧ x.off + 16 + n ≤ headOff t e := by
  rw [taken]
  split
  · exact ⟨_, rfl, by simp only [headOff_cons]; omega⟩
  · exact ⟨_, rfl, by omega⟩

theorem Allocated.write {s' : Heap} {n : Nat} (h : Allocated s size l x r s') (hn : n ≤ size)
    (hm : ∀ a, a < s.heapPtr + x.off + 16 ∨ s.heapPtr + x.off + 16 + n ≤ a → m a = s'.mem a) :
    Layout { s' with mem := m } (l ++ taken s.endOff size x r) := by
  obtain ⟨t, htaken, hroom⟩ := taken_room h.fits.payload hn
  have hlayout := h.layout
  rw [htaken] at hlayout ⊢
  refine hlayout.payloadWrite fun a ha => hm a ?_
  rw [h.frame.heapPtr, h.frame.endOff] at ha
  simp only at ha
  omega

theorem rtRealloc_null (req : Nat) :
    rtRealloc s rtNull req = if s.memSizeAligned < rtAlign req rtAlignSize then some (rtNull, s)
      else rtMalloc s (rtAlign req rtAlignSize) := by
  simp only [rtRealloc, if_true]

theorem rtAlign_rtAlign (req : Nat) :
    rtAlign (rtAlign req rtAlignSize) rtAlignSize = rtAlign req rtAlignSize := by
  have hdvd := dvd_rtAlign req
  have hlt := rtAlign_lt req
  rw [rtAlignSize, rtAlign_eight (rtAlign req 8)]
  omega

theorem rtRealloc_spec (h : Layout s (l ++ x :: r)) (hx : x.tag.used ≠ 0)
    (hmin : minSizeAligned ≤ s.memSizeAligned) (req : Nat) :
    ∃ q s', rtRealloc s (s.heapPtr + x.off + 16) req = some (q, s') ∧
      ReallocOutcome s l x r (rtAlign req rtAlignSize) q s' := by
  obtain ⟨-, hgap, -, hle⟩ := h.around
  have hlt := h.endOff_lt
  have hroom := (h.blocks x (by simp)).room hx
  have hend := h.frame.heapEnd
  have hin : ¬ (s.heapPtr + x.off + 16 < s.heapPtr ∨ s.heapEnd ≤ s.heapPtr + x.off + 16) := by
    omega
  have hsize : sub32 (sub32 (s.next (s.heapPtr + x.off)) (s.heapPtr + x.off - s.heapPtr))
      sizeofStructMem = headOff r s.endOff - x.off - 16 := by
    have houter : sub32 (headOff r s.endOff) x.off = headOff r s.endOff - x.off :=
      sub32_of_le
    rw [Heap.next_eq_view, h.view_eq, Nat.add_sub_cancel_left, houter, sizeofStructMem_eq]
    exact sub32_of_le
  generalize hn : rtAlign req rtAlignSize = newsize
  simp only [rtRealloc, hn]
  by_cases hbig : s.memSizeAligned < newsize
  · refine ⟨_, _, if_pos hbig, .refused ?_⟩
    rw [Heap.endOff, sizeofStructMem_eq] at hle ⊢
    omega
  rw [if_neg hbig, if_neg (payload_ne_null _), if_neg hin, sub_sizeofStructMem, hsize]
  by_cases heq : headOff r s.endOff - x.off - 16 = newsize
  · exact ⟨_, _, if_pos heq, .kept (by omega)⟩
  rw [if_neg heq]
  by_cases hsplit : newsize + sizeofStructMem + minSize < headOff r s.endOff - x.off - 16
  · refine ⟨_, _, if_pos hsplit, .split ?_ (by rw [Nat.add_sub_cancel_left])⟩
    rw [sizeofStructMem_eq] at hsplit
    unfold minSize at hsplit
    omega
  rw [if_neg hsplit]
  have hno : headOff r s.endOff ≤ x.off + 16 + newsize + 28 := by
    rw [sizeofStructMem_eq] at hsplit
    unfold minSize at hsplit
    omega
  -- the block is moved, if there is room elsewhere
  rcases rtMalloc_spec h hmin newsize with ⟨hret, -⟩ | ⟨l1, y, r1, s1, hbs, hret, halloc⟩
  · exact ⟨_, _, by simp [hret], .refused hno⟩
  · have hxy : x ≠ y := by rintro rfl; exact hx halloc.fits.unused
    have hx1 : x ∈ l1 ++ taken s.endOff (blockSize (rtAlign newsize rtAlignSize)) y r1 := by
      have hxin : x ∈ l1 ++ y :: r1 := hbs ▸ (by simp)
      exact (mem_taken_of_used hx).mpr (.inr (by simpa [hxy] using hxin))
    obtain ⟨l2, r2, hbs2⟩ := append_of_mem hx1
    have hround : rtAlign newsize rtAlignSize = newsize := by rw [← hn, rtAlign_rtAlign]
    refine ⟨s.heapPtr + y.off + 16, _, ?_, .moved hno hbs hret halloc hbs2 (m := s1.mem.copy
      (s.heapPtr + y.off + 16) (s.heapPtr + x.off + 16)
      (if headOff r s.endOff - x.off - 16 < newsize then headOff r s.endOff - x.off - 16
        else newsize)) (hbs2 ▸ halloc.write (n := newsize) ?_ ?_)⟩
    · simp [hret, rtNull, halloc.frame.heapPtr]
    · exact (congrArg (· ≤ _) hround).mp (le_blockSize _).2
    · intro a ha
      refine if_neg ?_
      split <;> omega

/-- The number of bytes `rt_calloc` asks `rt_malloc` for. -/
def callocBytes (count size : Nat) : Nat := count * size % 2 ^ 32

theorem rtCalloc_spec (h : Layout s bs) (hmin : minSizeAligned ≤ s.memSizeAligned)
    (count sz : Nat) :
    (rtCalloc s count sz = some (rtNull, s) ∧ (callocBytes count sz = 0 ∨
        s.memSizeAligned < rtAlign (callocBytes count sz) rtAlignSize ∨
        NoFit s bs (blockSize (rtAlign (callocBytes count sz) rtAlignSize)))) ∨
    ∃ l x r s', bs = l ++ x :: r ∧
      Allocated s (blockSize (rtAlign (callocBytes count sz) rtAlignSize)) l x r s' ∧
      rtCalloc s count sz = some (s.heapPtr + x.off + 16,
        { s' with mem := s'.mem.fill (s.heapPtr + x.off + 16) (callocBytes count sz) 0 }) := by
  rcases rtMalloc_spec h hmin (callocBytes count sz) with
    ⟨hret, hwhy⟩ | ⟨l, x, r, s', rfl, hret, halloc⟩
  · refine .inl ⟨?_, hwhy⟩
    rw [callocBytes] at hret
    simp only [rtCalloc, hret, Option.bind_eq_bind, Option.bind_some]
    exact if_neg (not_not.mpr rfl)
  · refine .inr ⟨l, x, r, s', rfl, halloc, ?_⟩
    rw [callocBytes] at hret
    simp only [rtCalloc, hret, Option.bind_eq_bind, Option.bind_some]
    exact if_pos (by simp [rtNull])

/-- As long as the rounded request does not wrap, what `rt_calloc` fills is what it allocated. -/
theorem Allocated.fill {s' : Heap} {n : Nat} (c : BitVec 8) (hn : n + 7 < 2 ^ 32)
    (h : Allocated s (blockSize (rtAlign n rtAlignSize)) l x r s') :
    Layout { s' with mem := s'.mem.fill (s.heapPtr + x.off + 16) n c }
      (l ++ taken s.endOff (blockSize (rtAlign n rtAlignSize)) x r) :=
  h.write ((le_rtAlign hn).trans (le_blockSize _).2) fun a ha =>
    if_neg (by omega)

end RtThread.Mem
