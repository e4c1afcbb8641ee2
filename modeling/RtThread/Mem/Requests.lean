import RtThread.Mem.Lfree
import RtThread.Mem.UsedBlocks

/-!
# What a request gets

A caller of `rt_malloc` relies on three things: the call returns, it finds a block if there is one,
and the block has the size that was asked for. Each fails at an edge. The search never ends on a
heap below `MIN_SIZE_ALIGNED` bytes. Its bound `ptr < mem_size_aligned - size` leaves out a block
that ends at `heap_end` and just fits. And `RT_ALIGN` wraps for the seven largest sizes, the product
of `rt_calloc` before that.
-/

namespace RtThread.Mem
open BlockChain
open List
variable {s s' s₀ : Heap} {σ σ' : Sys} {bs l r : List Blk} {x : Blk} {k p q size req : Nat}
  {m : ByteMem} {beginAddr endAddr : Nat} {cs : List Call}

theorem reachable_of_run (hinit : rtSystemHeapInit m beginAddr endAddr = some s₀)
    (hrun : Run SafeStep ⟨s₀, ∅⟩ cs σ) : Reachable σ :=
  hrun.state_invariant (.init hinit) fun _ _ _ h => h.step

theorem rtMalloc_isSome_iff (h : Layout s bs) :
    (rtMalloc s req).isSome ↔ minSizeAligned ≤ s.memSizeAligned ∨ req = 0 ∨
      s.memSizeAligned < rtAlign req rtAlignSize := by
  rcases Nat.lt_or_ge s.memSizeAligned minSizeAligned with hsmall | hmin
  · by_cases hzero : req = 0
    · simp [rtMalloc, hzero]
    by_cases hbig : s.memSizeAligned < rtAlign req rtAlignSize
    · simp [rtMalloc, hbig]
    · rw [rtMalloc_diverges h hsmall hzero hbig]
      simp [hzero, hbig, hsmall]
  · refine iff_of_true ?_ (.inl hmin)
    rcases rtMalloc_spec h hmin req with ⟨hret, -⟩ | ⟨l, x, r, s', -, hret, -⟩ <;> rw [hret] <;> rfl

/-- At every point of a run of safe steps `rt_malloc` returns if `mem_size_aligned` is at least
`MIN_SIZE_ALIGNED`, or if the size is zero or above `mem_size_aligned`; and only then. -/
theorem malloc_returns_of_run (hinit : rtSystemHeapInit m beginAddr endAddr = some s₀)
    (hrun : Run SafeStep ⟨s₀, ∅⟩ cs σ) (size : BitVec 32) :
    (rtMalloc σ.heap size.toNat).isSome ↔ minSizeAligned ≤ σ.heap.memSizeAligned ∨ size.toNat = 0 ∨
        σ.heap.memSizeAligned < rtAlign size.toNat rtAlignSize := by
  obtain ⟨⟨bs, hwf⟩, -⟩ := reachable_of_run hinit hrun
  exact rtMalloc_isSome_iff hwf.layout

theorem malloc_returns_of_run_fragments : ∃ s₀ σ, rtSystemHeapInit (fun _ => 0) 8 296 = some s₀ ∧
    Run SafeStep ⟨s₀, ∅⟩ fragments σ ∧ ∀ size : BitVec 32, (rtMalloc σ.heap size.toNat).isSome := by
  obtain ⟨s₀, σ, -, hinit, -, hrun, -, hsize, -⟩ := run_fragments
  refine ⟨s₀, σ, hinit, hrun, fun size => (malloc_returns_of_run hinit hrun size).mpr (.inl ?_)⟩
  rw [hsize]
  decide

/-- `rt_malloc(8)` on a heap with eight bytes for blocks: the bound of the search wraps, and the
search goes on for ever at `heap_end`. -/
theorem malloc_hangs_on_tiny_heap : ∃ s₀, rtSystemHeapInit (fun _ => 0) 8 48 = some s₀ ∧
    s₀.memSizeAligned = 8 ∧ Run SafeStep ⟨s₀, ∅⟩ [] ⟨s₀, ∅⟩ ∧ rtMalloc s₀ 8 = none ∧
      ∀ k, mallocSearch s₀ (blockSize (rtAlign 8 rtAlignSize)) k (s₀.lfree - s₀.heapPtr) =
        none := by
  obtain ⟨s₀, hinit, hsize⟩ : ∃ s₀, rtSystemHeapInit (fun _ => 0) 8 48 = some s₀ ∧
      s₀.memSizeAligned = 8 := by
    simp only [rtSystemHeapInit]
    exact ⟨_, if_pos (by decide), rfl⟩
  obtain ⟨hlay, hlf⟩ := rtSystemHeapInit_layout hinit
  have hsmall : s₀.memSizeAligned < minSizeAligned := by rw [hsize]; decide
  refine ⟨s₀, hinit, hsize, .nil, ?_, fun k => ?_⟩
  · exact rtMalloc_diverges hlay hsmall (by decide) (by rw [hsize]; decide)
  · rw [hlf, Nat.sub_self]
    exact mallocSearch_diverges (l := []) hlay.toChain hsmall

theorem mallocSearch_first (h : Chain s (l ++ r)) (hsize : size ≤ s.memSizeAligned) {o : Nat}
    (hfound : mallocSearch s size k (headOff r s.endOff) = some (some o)) {l' r' : List Blk}
    {y : Blk} (hr : r = l' ++ y :: r') (hfit : Fits s size y r') : o ≤ y.off := by
  have hlt := h.endOff_lt
  have hend := s.endOff_eq
  have hbound : sub32 s.memSizeAligned size = s.memSizeAligned - size :=
    sub32_of_le hsize
  induction r generalizing l l' k with
  | nil => simp at hr
  | cons x r ih =>
    cases k with
    | zero => cases hfound
    | succ k =>
      obtain ⟨-, -, hbehind, -⟩ := h.around
      rw [headOff_cons, mallocSearch_block h, hbound] at hfound
      have hpayload := hfit.payload
      by_cases hin : x.off < s.memSizeAligned - size
      · rw [if_pos hin] at hfound
        by_cases hx : x.tag.used = 0 ∧ size ≤ headOff r s.endOff - (x.off + 16)
        · -- the search ends here, and `y` is this block or behind it
          rw [if_pos hx] at hfound
          obtain rfl : x.off = o := by simpa using hfound
          have hy : y ∈ x :: r := by rw [hr]; simp
          rcases mem_cons.mp hy with rfl | hy
          · exact le_rfl
          · have := hbehind y hy
            have := h.around.2.1
            omega
        · rw [if_neg hx] at hfound
          cases l' with
          | nil =>
            obtain ⟨rfl, rfl⟩ := List.cons.inj hr
            exact absurd ⟨hfit.unused, by omega⟩ hx
          | cons z l' =>
            obtain ⟨rfl, rfl⟩ := List.cons.inj hr
            exact ih (l := l ++ [x]) (by simpa using h) hfound rfl
      · rw [if_neg hin] at hfound
        cases hfound

theorem rtMalloc_cases (hret : rtMalloc s req = some (q, s')) : (q = rtNull ∧ s' = s) ∨ ∃ ptr,
      mallocSearch s (blockSize (rtAlign req rtAlignSize)) loopBound (s.lfree - s.heapPtr) =
        some (some ptr) ∧
      advanceLfree (takeBlock s ptr (blockSize (rtAlign req rtAlignSize))) (s.heapPtr + ptr) =
        some s' ∧ q = s.heapPtr + ptr + 16 := by
  unfold rtMalloc at hret
  by_cases hzero : req = 0
  · rw [if_pos hzero] at hret
    cases hret
    exact .inl ⟨rfl, rfl⟩
  rw [if_neg hzero] at hret
  by_cases hbig : s.memSizeAligned < rtAlign req rtAlignSize
  · rw [if_pos hbig] at hret
    cases hret
    exact .inl ⟨rfl, rfl⟩
  rw [if_neg hbig] at hret
  obtain ⟨found, hfound, hret⟩ := Option.bind_eq_some_iff.mp hret
  cases found with
  | none =>
    cases hret
    exact .inl ⟨rfl, rfl⟩
  | some ptr =>
    obtain ⟨s'', hadv, hret⟩ := Option.bind_eq_some_iff.mp hret
    cases hret
    exact .inr ⟨ptr, hfound, hadv, by rw [sizeofStructMem_eq]⟩

/-- The block `x`, whose successors are `r`, is unused, at or above `lfree`, and has a payload of
at least `size` bytes. -/
structure Candidate (s : Heap) (size : Nat) (x : Blk) (r : List Blk) : Prop where
  unused : x.tag.used = 0
  above : s.lfree ≤ s.heapPtr + x.off
  payload : size ≤ headOff r s.endOff - x.off - 16

/-- The block `x` ends at `heap_end`, and has a payload of exactly `size` bytes. -/
def EndsExactly (s : Heap) (size : Nat) (x : Blk) (r : List Blk) : Prop :=
  r = [] ∧ s.endOff - x.off - 16 = size

/-- The search takes every candidate but the one that ends exactly at `heap_end`. -/
theorem Candidate.fits (h : Chain s (l ++ x :: r)) (hc : Candidate s size x r)
    (hend : ¬ EndsExactly s size x r) : Fits s size x r := by
  obtain ⟨-, hgap, hr, hle⟩ := h.around
  have hsize := hc.payload
  have heq := s.endOff_eq
  refine ⟨hc.unused, ?_, by omega⟩
  cases r with
  | nil =>
    have hne : s.endOff - x.off - 16 ≠ size := fun heq => hend ⟨rfl, heq⟩
    omega
  | cons y r =>
    have := hr y mem_cons_self
    omega

/-- At every point of a run of safe steps, for every request that is not refused for its size: if
there is a candidate that does not end exactly at `heap_end`, `rt_malloc` returns the lowest
candidate. -/
theorem malloc_finds_lowest_of_run (hinit : rtSystemHeapInit m beginAddr endAddr = some s₀)
    (hrun : Run SafeStep ⟨s₀, ∅⟩ cs σ) :
    ∃ bs, WellFormed σ bs ∧ ∀ req : BitVec 32, 1 ≤ req.toNat → req.toNat + 7 < 2 ^ 32 →
      rtAlign req.toNat rtAlignSize ≤ σ.heap.memSizeAligned →
      (∃ l x r, bs = l ++ x :: r ∧
        Candidate σ.heap (max (rtAlign req.toNat rtAlignSize) minSizeAligned) x r ∧
        ¬ EndsExactly σ.heap (max (rtAlign req.toNat rtAlignSize) minSizeAligned) x r) →
      ∃ l x r s', bs = l ++ x :: r ∧
        Candidate σ.heap (max (rtAlign req.toNat rtAlignSize) minSizeAligned) x r ∧
        (∀ l' y r', bs = l' ++ y :: r' →
          Candidate σ.heap (max (rtAlign req.toNat rtAlignSize) minSizeAligned) y r' →
          x.off ≤ y.off) ∧
        rtMalloc σ.heap req.toNat = some (σ.heap.heapPtr + x.off + 16, s') := by
  obtain ⟨⟨bs, hwf⟩, -⟩ := reachable_of_run hinit hrun
  refine ⟨bs, hwf, fun req hpos _ hle hroom => ?_⟩
  have hblock : max (rtAlign req.toNat rtAlignSize) minSizeAligned =
      blockSize (rtAlign req.toNat rtAlignSize) := by
    rw [blockSize]
    split <;> omega
  rw [hblock] at hroom ⊢
  have hlay := hwf.layout
  obtain ⟨l1, y, r1, hbs1, hcand1, hnot1⟩ := hroom
  have hfit1 := hcand1.fits (hbs1 ▸ hlay.toChain) hnot1
  have hmin : minSizeAligned ≤ σ.heap.memSizeAligned := by
    have := hfit1.inside
    have := le_blockSize (rtAlign req.toNat rtAlignSize)
    rw [minSizeAligned_eq]
    omega
  rcases rtMalloc_spec hlay hmin req.toNat with
    ⟨-, hzero | hbig | hno⟩ | ⟨l, x, r, s', hbs, hret, ha⟩
  · omega
  · omega
  · exact absurd hfit1 (hno l1 y r1 hbs1 hcand1.above)
  have hpay := ha.fits.payload
  refine ⟨l, x, r, s', hbs, ⟨ha.fits.unused, ha.above, by omega⟩, ?_, hret⟩
  intro l' z r' hbs' hcand
  by_contra hlow
  -- a lower candidate does not end at `heap_end`, and the search would have stopped there
  have hfit : Fits σ.heap (blockSize (rtAlign req.toNat rtAlignSize)) z r' := by
    refine hcand.fits (hbs' ▸ hlay.toChain) fun hends => ?_
    have hx : x ∈ l' ++ z :: r' := by rw [← hbs', hbs]; simp
    rw [hends.1] at hx
    obtain ⟨hbelow, -⟩ := (show Chain σ.heap (l' ++ z :: r') from hbs' ▸ hlay.toChain).around
    rcases mem_append.mp hx with hx | hx
    · have := hbelow x hx
      omega
    · obtain rfl := mem_singleton.mp hx
      omega
  rcases rtMalloc_cases hret with ⟨hnull, -⟩ | ⟨ptr, hfound, -, hptr⟩
  · simp [rtNull] at hnull
  obtain rfl : x.off = ptr := by omega
  obtain ⟨lf, hlf, hon⟩ := hlay.lfree
  obtain ⟨l0, r0, hbs0, hhead⟩ := hon.split
  rw [← hhead] at hlf
  obtain ⟨a, hr0⟩ := suffix_of_above (hbs0 ▸ hlay.toChain) hlf (hbs0 ▸ hbs') hcand.above
  have hstart : σ.heap.lfree - σ.heap.heapPtr = headOff r0 σ.heap.endOff := by omega
  rw [hstart] at hfound
  have hfirst := mallocSearch_first (hbs0 ▸ hlay.toChain) (blockSize_le
    (by rwa [minSizeAligned_eq] at hmin) hle) hfound hr0 hfit
  omega

/-- A request of 40 bytes, for which the lowest unused block is too small. -/
theorem malloc_finds_lowest_of_run_fragments : ∃ s₀ σ bs s',
    rtSystemHeapInit (fun _ => 0) 8 296 = some s₀ ∧ Run SafeStep ⟨s₀, ∅⟩ fragments σ ∧
      WellFormed σ bs ∧ rtMalloc σ.heap 40 = some (88, s') ∧
      ∀ l y r, bs = l ++ y :: r → Candidate σ.heap 40 y r → 88 ≤ σ.heap.heapPtr + y.off + 16 := by
  obtain ⟨s₀, σ, s', hinit, -, hrun, -, hsize, hret⟩ := run_fragments
  obtain ⟨bs, hwf, hfind⟩ := malloc_finds_lowest_of_run hinit hrun
  have hmax : max (rtAlign 40 rtAlignSize) minSizeAligned = 40 := by decide
  have hroom : ∃ l x r, bs = l ++ x :: r ∧ Candidate σ.heap 40 x r ∧
    ¬ EndsExactly σ.heap 40 x r := by
    rcases rtMalloc_spec hwf.layout (by rw [hsize]; decide) 40 with
      ⟨hnull, -⟩ | ⟨l, x, r, s'', hbs, -, ha⟩
    · cases hret.symm.trans hnull
    · have hblock : blockSize (rtAlign 40 rtAlignSize) = 40 := by decide
      obtain ⟨hunused, hlimit, hpayload⟩ := hblock ▸ ha.fits
      have hend := σ.heap.endOff_eq
      exact ⟨l, x, r, hbs, ⟨hunused, ha.above, by omega⟩, fun hends => by have := hends.2; omega⟩
  obtain ⟨l, x, r, s'', -, -, hlow, hret'⟩ := hfind 40 (by decide) (by decide)
    (by rw [hsize]; decide) (hmax.symm ▸ hroom)
  obtain ⟨hptr, -⟩ := Prod.mk.inj (Option.some.inj (hret.symm.trans hret'))
  refine ⟨s₀, σ, bs, s', hinit, hrun, hwf, hret, fun l y r hbs hy => ?_⟩
  have hle := hlow l y r hbs (hmax.symm ▸ hy)
  omega

/-- `rt_malloc(32)` on a fresh heap with 32 bytes for blocks: the one block has a payload of 32
bytes, and the call returns `RT_NULL`. -/
theorem malloc_misses_exact_fit : ∃ s₀, rtSystemHeapInit (fun _ => 0) 8 72 = some s₀ ∧
    Run SafeStep ⟨s₀, ∅⟩ [] ⟨s₀, ∅⟩ ∧ WellFormed ⟨s₀, ∅⟩ [⟨0, freeTag⟩] ∧
      rtAlign 32 rtAlignSize ≤ s₀.memSizeAligned ∧
      Candidate s₀ (max (rtAlign 32 rtAlignSize) minSizeAligned) ⟨0, freeTag⟩ [] ∧
      rtMalloc s₀ 32 = some (rtNull, s₀) := by
  obtain ⟨s₀, hinit, hsize⟩ := exists_small_heap
  obtain ⟨hlay, hlf⟩ := rtSystemHeapInit_layout hinit
  have hend : s₀.endOff = 48 := by rw [Heap.endOff, hsize, sizeofStructMem_eq]
  have hmin : minSizeAligned ≤ s₀.memSizeAligned := by rw [hsize]; decide
  refine ⟨s₀, hinit, .nil, wellFormed_init hinit, by rw [hsize]; decide,
    ⟨rfl, hlf.le, by rw [headOff_nil, hend]; decide⟩, ?_⟩
  rcases rtMalloc_spec hlay hmin 32 with ⟨hret, -⟩ | ⟨l, x, r, s', hbs, -, ha⟩
  · exact hret
  · have hx : x = ⟨0, freeTag⟩ := mem_singleton.mp (by rw [hbs]; simp)
    have hinside := ha.fits.inside
    rw [hx, hsize] at hinside
    exact absurd hinside (by decide)

/-- The number of bytes a call asks for, as an integer. -/
def requested : Call → Option Nat
  | .malloc size => some size.toNat
  | .calloc count size => some (count.toNat * size.toNat)
  | .realloc _ newsize => some newsize.toNat
  | _ => none

/-- The pointer a call returns, and the heap behind it. -/
def answer (s : Heap) : Call → Option (Nat × Heap)
  | .malloc size => rtMalloc s size.toNat
  | .calloc count size => rtCalloc s count.toNat size.toNat
  | .realloc rmem newsize => rtRealloc s rmem newsize.toNat
  | _ => none

theorem Allocated.le_payload {mem : ByteMem} (ha : Allocated s size l x r s')
    (hlay : Layout { s' with mem := mem } (l ++ taken s.endOff size x r)) :
    size ≤ payload { s' with mem := mem } (s.heapPtr + x.off + 16) := by
  have hstop := le_takenStop ha.fits.payload
  have hmem : (x.off, takenStop s.endOff size x r) ∈
      usedBlocks s.endOff (l ++ taken s.endOff size x r) := by
    rw [usedBlocks_taken]
    exact mem_append_right _ mem_cons_self
  have hf : SameFrame s { s' with mem := mem } := ha.frame.trans ⟨rfl, rfl, rfl⟩
  rw [hlay.toChain.payload_of_mem hf hmem]
  omega

theorem rtMalloc_le_payload (h : Layout s bs) (hmin : minSizeAligned ≤ s.memSizeAligned)
    (hret : rtMalloc s req = some (p, s')) (hp : p ≠ rtNull) :
    rtAlign req rtAlignSize ≤ payload s' p := by
  rcases rtMalloc_spec h hmin req with ⟨hret', -⟩ | ⟨l, x, r, s'', rfl, hret', ha⟩ <;>
    cases hret.symm.trans hret'
  · exact absurd rfl hp
  · exact (le_blockSize _).2.trans (ha.le_payload ha.layout)

theorem rtCalloc_le_payload (h : Layout s bs) (hmin : minSizeAligned ≤ s.memSizeAligned)
    {count : Nat} (hsize : count * size + 7 < 2 ^ 32)
    (hret : rtCalloc s count size = some (p, s')) (hp : p ≠ rtNull) :
    count * size ≤ payload s' p := by
  have hbytes : callocBytes count size = count * size := Nat.mod_eq_of_lt (by omega)
  rcases rtCalloc_spec h hmin count size with ⟨hret', -⟩ | ⟨l, x, r, s'', rfl, ha, hret'⟩ <;>
    cases hret.symm.trans hret'
  · exact absurd rfl hp
  · rw [hbytes] at ha ⊢
    exact (le_rtAlign hsize).trans ((le_blockSize _).2.trans (ha.le_payload (ha.fill 0 hsize)))

/-- `rt_realloc` of a held block: kept, cut, or moved, its block has the rounded size. -/
theorem rtRealloc_le_payload (h : Layout s (l ++ x :: r)) (hx : x.tag.used ≠ 0)
    (hmin : minSizeAligned ≤ s.memSizeAligned)
    (hret : rtRealloc s (s.heapPtr + x.off + 16) req = some (p, s')) (hp : p ≠ rtNull) :
    rtAlign req rtAlignSize ≤ payload s' p := by
  obtain ⟨q, s'', hret', hout⟩ := rtRealloc_spec h hx hmin req
  cases hret.symm.trans hret'
  cases hout with
  | refused _ => exact absurd rfl hp
  | kept hsize =>
    have hpay := h.toChain.payload_of_mem (.refl s) (usedBlocks_of_used hx ▸
      mem_append_right _ mem_cons_self)
    omega
  | split hsize heq =>
    obtain ⟨lf, hlf, -⟩ := h.lfree
    obtain ⟨hlay, hf, -⟩ := reallocSplit_spec (headOff r s.endOff - x.off - 16) h hx hlf rfl
      (dvd_rtAlign req) (by simp only [rtAlignSize] at hsize; omega)
    rw [← rtAlignSize, ← heq] at hlay hf
    have hpay := hlay.toChain.payload_of_mem hf (usedBlocks_split hx ▸
      mem_append_right _ mem_cons_self)
    omega
  | @moved l1 r1 l2 r2 y s1 mem _ hbs _ ha hbs2 hlay =>
    rw [rtAlign_rtAlign] at ha hbs2
    have hxy : x ≠ y := by
      rintro rfl
      exact hx ha.fits.unused
    have hoff : y.off ≠ x.off := fun heq =>
      hxy (h.off_injective (by simp) (hbs ▸ (by simp)) heq.symm)
    obtain ⟨lf, hlf, -⟩ := hlay.lfree
    obtain ⟨hlay', hf, -⟩ := rtFree_spec hlay hx hlf
    have hstop := le_takenStop ha.fits.payload
    -- the new block is among the used ones before and after the release of the old one
    have hmem : (y.off, takenStop s.endOff (blockSize (rtAlign req rtAlignSize)) y r1) ∈
        usedBlocks s.endOff (plugged l2 ⟨x.off, freeTag⟩ r2) := by
      have hmem1 : (y.off, takenStop s.endOff (blockSize (rtAlign req rtAlignSize)) y r1) ∈
          usedBlocks s.endOff (l2 ++ x :: r2) := by
        rw [← hbs2, usedBlocks_taken]
        exact mem_append_right _ mem_cons_self
      rw [usedBlocks_of_used hx] at hmem1
      rw [usedBlocks_plugged rfl]
      rcases mem_append.mp hmem1 with hmem1 | hmem1
      · exact mem_append_left _ hmem1
      · rcases mem_cons.mp hmem1 with heq | hmem1
        · exact absurd (Prod.mk.inj heq).1 hoff
        · exact mem_append_right _ hmem1
    have hframe : SameFrame s { s1 with mem := mem } := ha.frame.trans ⟨rfl, rfl, rfl⟩
    have hpay := hlay'.toChain.payload_of_mem (hframe.trans hf) hmem
    have hle := (le_blockSize (rtAlign req rtAlignSize)).2
    rw [show s1.heapPtr + x.off + 16 = Heap.heapPtr { s1 with mem := mem } + x.off + 16 from rfl,
      hpay]
    omega

theorem step_of_answer {c : Call} (hlegal : Legal σ c) (hret : answer σ.heap c = some (p, s'))
    (hp : p ≠ rtNull) : ∃ σ', LegalStep σ c σ' ∧ p ∈ σ'.live := by
  have hhand : p ∈ hand p σ.live := by
    rw [hand, if_neg hp]
    exact Finset.mem_insert_self _ _
  cases c with
  | malloc size | calloc count size =>
    exact ⟨⟨s', hand p σ.live⟩, ⟨hlegal, congrArg (Option.map _) hret⟩, hhand⟩
  | realloc rmem newsize =>
    refine ⟨_, ⟨hlegal, congrArg (Option.map _) hret⟩, ?_⟩
    simp [hp]
  | free rmem | store a v => cases hret

/-- At every point of a run of safe steps: a pointer that `rt_malloc`, `rt_realloc` or `rt_calloc`
returns has the payload that was asked for, if the number of bytes, as an integer, is at most
`2 ^ 32 - 8`. -/
theorem size_honoured_of_run (hinit : rtSystemHeapInit m beginAddr endAddr = some s₀)
    (hrun : Run SafeStep ⟨s₀, ∅⟩ cs σ) {c : Call} {n : Nat} (hlegal : Legal σ c)
    (hreq : requested c = some n) (hn : n + 7 < 2 ^ 32) (hret : answer σ.heap c = some (p, s'))
    (hp : p ≠ rtNull) : n ≤ payload s' p := by
  obtain ⟨⟨bs, hwf⟩, hsize⟩ := reachable_of_run hinit hrun
  have hmin : minSizeAligned ≤ σ.heap.memSizeAligned := by
    rcases hsize with hmin | ⟨hsmall, hlive⟩
    · exact hmin
    · -- nothing is ever returned on a smaller heap
      obtain ⟨σ', hstep, hlive'⟩ := step_of_answer hlegal hret hp
      obtain ⟨rfl, -⟩ := call_small hwf hsmall hlive hstep
      rw [hlive] at hlive'
      cases hlive'
  cases c with
  | malloc size =>
    cases hreq
    exact (le_rtAlign hn).trans (rtMalloc_le_payload hwf.layout hmin hret hp)
  | calloc count size =>
    cases hreq
    exact rtCalloc_le_payload hwf.layout hmin hn hret hp
  | realloc rmem newsize =>
    cases hreq
    refine (le_rtAlign hn).trans ?_
    rcases hlegal with rfl | hmem
    · rw [answer, rtRealloc_null] at hret
      split at hret
      · cases hret
        exact absurd rfl hp
      · have hle := rtMalloc_le_payload hwf.layout hmin hret hp
        rwa [rtAlign_rtAlign] at hle
    · obtain ⟨l, x, r, rfl, hx, rfl⟩ := ((hwf.live rmem).mp hmem).split
      exact rtRealloc_le_payload hwf.layout hx hmin hret hp
  | free rmem | store a v => cases hreq

theorem size_honoured_of_run_fragments : ∃ s₀ σ s',
    rtSystemHeapInit (fun _ => 0) 8 296 = some s₀ ∧ Run SafeStep ⟨s₀, ∅⟩ fragments σ ∧
      answer σ.heap (.malloc 40) = some (88, s') ∧ 40 ≤ payload s' 88 := by
  obtain ⟨s₀, σ, s', hinit, -, hrun, -, -, hret⟩ := run_fragments
  exact ⟨s₀, σ, s', hinit, hrun, hret, size_honoured_of_run (c := .malloc 40) hinit hrun trivial rfl
    (by decide) hret (by decide)⟩

/-- `rt_malloc(0xffffffff)` on a fresh heap returns the block of 32 bytes. -/
theorem malloc_wrap_returns_small_block : ∃ s₀ s',
    rtSystemHeapInit (fun _ => 0) 8 72 = some s₀ ∧ Run SafeStep ⟨s₀, ∅⟩ [] ⟨s₀, ∅⟩ ∧
      rtMalloc s₀ 0xFFFFFFFF = some (s₀.heapPtr + 16, s') ∧
      payload s' (s₀.heapPtr + 16) = 32 := by
  have hcalls : (do
      let s₀ ← rtSystemHeapInit (fun _ => 0) 8 72
      let a ← rtMalloc s₀ 0xFFFFFFFF
      return (s₀.heapPtr, a.1, payload a.2 24)) = some (8, 24, 32) := by
    decide +kernel
  obtain ⟨s₀, hinit, hcalls⟩ := Option.bind_eq_some_iff.mp hcalls
  obtain ⟨⟨p, s'⟩, hret, hcalls⟩ := Option.bind_eq_some_iff.mp hcalls
  obtain ⟨hptr, rfl, hpay⟩ : s₀.heapPtr = 8 ∧ p = 24 ∧ payload s' 24 = 32 := by simpa using hcalls
  exact ⟨s₀, s', hinit, .nil, by rw [hptr, hret], by rw [hptr, hpay]⟩

end RtThread.Mem
