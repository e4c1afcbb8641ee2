import RtThread.Mem.Program

/-!
# The lowest unused block

`lfree` is a cache: the search of `rt_malloc` starts there, so an unused block below it is lost
until a neighbour is released. The split of `rt_realloc` makes a new unused block and leaves the
cache alone, which is right only if a lower block is unused already, or if the block behind is the
lowest unused one and is merged into the new one.
-/

namespace RtThread.Mem
open Option
open BlockChain
variable {s s' : Heap} {σ σ' : Sys} {bs l r : List Blk} {x : Blk} {p q size e m : Nat}

/-- `lfree` is the first unused block of `bs`, `heap_end` when there is none. -/
def Lowest (s : Heap) (bs : List Blk) : Prop := s.lfree = s.heapPtr + firstFree s.endOff bs

/-- `lfree` is the lowest unused block of the heap, or `heap_end`. -/
def LowestFree (s : Heap) : Prop := ∃ bs, Layout s bs ∧ Lowest s bs

theorem firstFree_append : firstFree e (l ++ r) = firstFree (firstFree e r) l := by
  induction l with
  | nil => rfl
  | cons x l ih => simp only [List.cons_append, firstFree, ih]

theorem firstFree_freeTag {o : Nat} : firstFree e (⟨o, freeTag⟩ :: r) = o := rfl

/-- Blocks that are all used do not count; otherwise what is behind them does not. -/
theorem firstFree_cases (l : List Blk) : ((∀ e, firstFree e l = e) ∧ ∀ z ∈ l, z.tag.used ≠ 0) ∨
      ∃ z ∈ l, z.tag.used = 0 ∧ ∀ e, firstFree e l = z.off := by
  induction l with
  | nil => exact .inl ⟨fun _ => rfl, by simp⟩
  | cons x l ih =>
    by_cases hx : x.tag.used = 0
    · exact .inr ⟨x, by simp, hx, fun e => by rw [firstFree, if_pos hx]⟩
    · rcases ih with ⟨hall, hused⟩ | ⟨z, hz, hz0, hall⟩
      · exact .inl ⟨fun e => by rw [firstFree, if_neg hx, hall], by simpa [hx] using hused⟩
      · exact .inr ⟨z, by simp [hz], hz0, fun e => by rw [firstFree, if_neg hx, hall]⟩

variable {hdr : Nat → Header Tag} {req : Nat}

theorem headOff_le_firstFree (h : Linked hdr 16 p r e) : headOff r e ≤ firstFree e r := by
  rcases firstFree_onChain r e with heq | ⟨z, hz, hoff⟩
  · rw [heq]
    exact h.headOff_le
  · rw [← hoff]
    exact (h.bounds z hz).1

theorem firstFree_le (h : Linked hdr 16 p bs e) :
    ∀ z ∈ bs, z.tag.used = 0 → firstFree e bs ≤ z.off := by
  intro z hz hz0
  obtain ⟨l, r, rfl⟩ := List.append_of_mem hz
  rw [firstFree_append, firstFree, if_pos hz0]
  rcases firstFree_cases l with ⟨hall, -⟩ | ⟨w, hw, -, hall⟩
  · rw [hall]
  · have := ((linked_append_cons.mp h).1.bounds w hw).2
    rw [hall]
    omega

theorem Allocated.lowest (h : Layout s (l ++ x :: r)) (hlow : Lowest s (l ++ x :: r))
    (ha : Allocated s size l x r s') : Lowest s' (l ++ taken s.endOff size x r) := by
  have hlf := ha.lfree
  rw [Lowest, firstFree_append, firstFree, if_pos ha.fits.unused] at hlow
  rw [Lowest, ha.frame.heapPtr, ha.frame.endOff, firstFree_append, hlf, hlow]
  rcases firstFree_cases l with ⟨hall, -⟩ | ⟨z, hz, -, hall⟩
  · rw [hall, hall, if_pos rfl]
  · -- a lower block is unused: `lfree` is not the block that was taken
    have := h.around.1 z hz
    rw [hall, hall, if_neg (by omega)]

theorem rtFree_lowest (h : Layout s (l ++ x :: r)) (hx : x.tag.used ≠ 0)
    (hlow : Lowest s (l ++ x :: r)) :
    Lowest (rtFree s (s.heapPtr + x.off + 16)) (plugged l ⟨x.off, freeTag⟩ r) := by
  obtain ⟨-, hf, hlf⟩ := rtFree_spec h hx hlow
  obtain ⟨hl, hgap, hr, -⟩ := h.around
  have hrest := headOff_le_firstFree (linked_append_cons.mp h.linked).2.2.2
  rw [Lowest, hf.heapPtr, hf.endOff, hlf]
  congr 1
  rw [firstFree_append, firstFree, if_neg hx]
  have hforward : ∀ o, o ≤ x.off → forwardLfree ⟨x.off, freeTag⟩ o r = o := by
    intro o ho
    cases r with
    | nil => rfl
    | cons y r =>
      simp only [headOff_cons] at hgap
      rw [forwardLfree, if_neg (by omega)]
  rcases firstFree_cases l with ⟨hall, hused⟩ | ⟨z, hz, hz0, hall⟩
  · -- the released block is the lowest unused one now
    have hlast : ¬ lastFree l := by
      rintro ⟨w, hw, hw0⟩
      exact hused w (List.mem_of_getLast? hw) hw0
    rw [hall, Nat.min_eq_left (by omega), plugLfree, hforward _ le_rfl,
      if_neg fun hc => hlast hc.1, plugged, plug, if_neg hlast, firstFree_append, hall,
        firstFree_freeTag]
  · have := hl z hz
    rw [hall, Nat.min_eq_right (by omega), plugLfree, hforward _ (by omega),
      if_neg (by simp; omega), plugged, plug]
    split <;> rw [firstFree_append, hall]

/-- `rt_realloc` does not shrink the block at `rmem`, or `lfree` is below that block, or it is the
block behind it. -/
def ShrinkSafe (s : Heap) (rmem newsize : Nat) : Prop :=
  rmem + rtAlign newsize rtAlignSize + sizeofStructMem + minSize <
      s.heapPtr + s.next (rmem - sizeofStructMem) →
    s.lfree < rmem - sizeofStructMem ∨
      (s.lfree = s.heapPtr + s.next (rmem - sizeofStructMem) ∧ s.lfree ≠ s.heapEnd)

/-- The offset `lfree` has after the split is the right one exactly if a lower block is unused, or
the block behind is the lowest unused one. -/
theorem forwardLfree_eq_iff {lf : Nat} (h : Chain s (l ++ x :: r)) (hx : x.tag.used ≠ 0)
    (hm : x.off < m) (hm' : m < headOff r s.endOff)
    (hlf : lf = firstFree s.endOff (l ++ x :: r)) :
    forwardLfree ⟨m, freeTag⟩ lf r = firstFree s.endOff (l ++ x :: ⟨m, freeTag⟩ :: joinRight r) ↔
      lf < x.off ∨ (lf = headOff r s.endOff ∧ lf ≠ s.endOff) := by
  obtain ⟨hl, -, hr, -⟩ := h.around
  rw [firstFree_append, firstFree, if_neg hx] at hlf ⊢
  rw [firstFree_freeTag]
  rcases firstFree_cases l with ⟨hall, -⟩ | ⟨z, hz, -, hall⟩
  · -- the new block is the lowest unused one
    rw [hall] at hlf ⊢
    cases r with
    | nil =>
      simp only [firstFree, headOff_nil] at hlf hm'
      rw [forwardLfree, headOff_nil]
      omega
    | cons y r =>
      have hy := (hr y (by simp)).2
      rw [forwardLfree, headOff_cons]
      simp only [headOff_cons] at hm'
      by_cases hy0 : y.tag.used = 0
      · rw [firstFree, if_pos hy0] at hlf
        rw [if_pos ⟨hy0, hlf⟩]
        simp only [true_iff]
        omega
      · have hyc : Chain s ((l ++ [x]) ++ y :: r) := by simpa using h
        have hrest := headOff_le_firstFree (linked_append_cons.mp hyc.linked).2.2.2
        have hgap := hyc.around.2.1
        rw [firstFree, if_neg hy0] at hlf
        rw [if_neg (by tauto)]
        omega
  · have hzx := hl z hz
    rw [hall] at hlf ⊢
    have hkeep : forwardLfree ⟨m, freeTag⟩ lf r = lf := by
      cases r with
      | nil => rfl
      | cons y r =>
        simp only [headOff_cons] at hm'
        rw [forwardLfree, if_neg (by omega)]
    rw [hkeep]
    omega

/-- The heap has one chain, so `LowestFree` can be decided on any of its descriptions. -/
theorem Layout.lowestFree_iff (h : Layout s bs) : LowestFree s ↔ Lowest s bs :=
  ⟨fun ⟨_, h', hlow⟩ => h.toChain.unique h'.toChain ▸ hlow, fun hlow => ⟨bs, h, hlow⟩⟩

theorem Chain.shrinkSafe_iff (h : Chain s (l ++ x :: r)) {lf : Nat}
    (hlf : s.lfree = s.heapPtr + lf) :
    ShrinkSafe s (s.heapPtr + x.off + 16) req ↔
      (x.off + 16 + rtAlign req rtAlignSize + 28 < headOff r s.endOff →
        lf < x.off ∨ (lf = headOff r s.endOff ∧ lf ≠ s.endOff)) := by
  rw [ShrinkSafe, sub_sizeofStructMem, Heap.next_eq_view, h.view_eq, hlf, h.frame.heapEnd,
    sizeofStructMem_eq, minSize]
  simp only [Nat.add_left_cancel_iff, Nat.add_lt_add_iff_left, ne_eq]
  exact imp_congr_left (by omega)

theorem rtMalloc_lowest (h : Layout s bs) (hlow : Lowest s bs)
    (hmin : minSizeAligned ≤ s.memSizeAligned) (hret : rtMalloc s req = some (q, s')) :
    LowestFree s' := by
  rcases rtMalloc_spec h hmin req with ⟨hret', -⟩ | ⟨l, x, r, s'', rfl, hret', ha⟩ <;>
    cases hret.symm.trans hret'
  · exact ⟨bs, h, hlow⟩
  · exact ⟨_, ha.layout, ha.lowest h hlow⟩

theorem rtRealloc_lowest (h : Layout s (l ++ x :: r)) (hx : x.tag.used ≠ 0)
    (hlow : Lowest s (l ++ x :: r)) (hmin : minSizeAligned ≤ s.memSizeAligned)
    (hret : rtRealloc s (s.heapPtr + x.off + 16) req = some (q, s')) :
    LowestFree s' ↔ ShrinkSafe s (s.heapPtr + x.off + 16) req := by
  obtain ⟨q', s'', hret', hout⟩ := rtRealloc_spec h hx hmin req
  cases hret.symm.trans hret'
  rw [h.toChain.shrinkSafe_iff hlow]
  cases hout with
  | refused hsize | kept hsize =>
    exact ⟨fun _ hlt => absurd hsize (by omega), fun _ => ⟨_, h, hlow⟩⟩
  | split hsize heq =>
    obtain ⟨hlay, hf, hlf⟩ := reallocSplit_spec (headOff r s.endOff - x.off - 16) h hx hlow
      rfl (dvd_rtAlign req) (by simp only [rtAlignSize] at hsize; omega)
    rw [← rtAlignSize, ← heq] at hlay hf hlf
    rw [hlay.lowestFree_iff, Lowest, hlf, hf.heapPtr, hf.endOff, Nat.add_left_cancel_iff,
      forwardLfree_eq_iff h.toChain hx (by omega) (by omega) rfl]
    exact ⟨fun hok _ => hok, fun hok => hok hsize⟩
  | @moved l1 r1 l2 r2 y s1 mem hsize hbs _ ha hbs2 hlay =>
    refine ⟨fun _ hlt => absurd hsize (by omega), fun _ => ?_⟩
    have hlow1 : Lowest s1 (l2 ++ x :: r2) := hbs2 ▸ ha.lowest (hbs ▸ h) (hbs ▸ hlow)
    obtain ⟨lf, hlf, -⟩ := hlay.lfree
    exact ⟨_, (rtFree_spec hlay hx hlf).1, rtFree_lowest hlay hx hlow1⟩

/-- The calls of the run: every one but `rt_calloc`, which can do more damage than this. -/
def NotCalloc : Call → Prop
  | .calloc _ _ => False
  | _ => True

/-- The shrinking calls of `rt_realloc` are safe. -/
def LfreeSafe (σ : Sys) : Call → Prop
  | .realloc rmem newsize => rmem = rtNull ∨ ShrinkSafe σ.heap rmem newsize.toNat
  | _ => True

theorem call_lowest {c : Call} (h : WellFormed σ bs) (hlow : Lowest σ.heap bs)
    (hmin : minSizeAligned ≤ σ.heap.memSizeAligned) (hno : NotCalloc c)
    (hstep : LegalStep σ c σ') : LowestFree σ'.heap ↔ LfreeSafe σ c := by
  obtain ⟨hlegal, hcall⟩ := hstep
  cases c with
  | malloc size =>
    obtain ⟨⟨q, s'⟩, hret, rfl⟩ := map_eq_some_iff.mp hcall
    exact iff_of_true (rtMalloc_lowest h.layout hlow hmin hret) trivial
  | calloc count size => exact hno.elim
  | realloc rmem newsize =>
    obtain ⟨⟨q, s'⟩, hret, rfl⟩ := map_eq_some_iff.mp hcall
    rcases hlegal with rfl | hp
    · refine iff_of_true ?_ (.inl rfl)
      rw [rtRealloc_null] at hret
      split at hret
      · cases hret
        exact ⟨bs, h.layout, hlow⟩
      · exact rtMalloc_lowest h.layout hlow hmin hret
    · obtain ⟨l, x, r, rfl, hx, rfl⟩ := ((h.live rmem).mp hp).split
      rw [LfreeSafe, or_iff_right (payload_ne_null _)]
      exact rtRealloc_lowest h.layout hx hlow hmin hret
  | free rmem =>
    cases hcall
    refine iff_of_true ?_ trivial
    rcases hlegal with rfl | hp
    · rw [rtFree, if_pos rfl]
      exact ⟨bs, h.layout, hlow⟩
    · obtain ⟨l, x, r, rfl, hx, rfl⟩ := ((h.live rmem).mp hp).split
      exact ⟨_, (h.freed hx rfl).1.layout, rtFree_lowest h.layout hx hlow⟩
  | store a v =>
    cases hcall
    exact iff_of_true ⟨bs, (h.stored v hlegal).layout, hlow⟩ trivial

/-- On a heap below `MIN_SIZE_ALIGNED` bytes no pointer is ever handed out, and nothing happens. -/
theorem call_small {c : Call} (h : WellFormed σ bs)
    (hsmall : σ.heap.memSizeAligned < minSizeAligned) (hlive : σ.live = ∅)
    (hstep : LegalStep σ c σ') : σ' = σ ∧ LfreeSafe σ c := by
  obtain ⟨hlegal, hcall⟩ := hstep
  have hmalloc : ∀ req q s', rtMalloc σ.heap req = some (q, s') → q = rtNull ∧ s' = σ.heap := by
    intro req q s' hret
    rcases rtMalloc_small h.layout hsmall req with hret' | hret'
    · cases hret.symm.trans hret'
      exact ⟨rfl, rfl⟩
    · rw [hret] at hret'
      cases hret'
  cases c with
  | malloc size =>
    obtain ⟨⟨q, s'⟩, hret, rfl⟩ := map_eq_some_iff.mp hcall
    obtain ⟨rfl, rfl⟩ := hmalloc _ _ _ hret
    exact ⟨by simp, trivial⟩
  | calloc count size =>
    obtain ⟨⟨q, s'⟩, hret, rfl⟩ := map_eq_some_iff.mp hcall
    obtain ⟨⟨q', s''⟩, hmal, hret⟩ := bind_eq_some_iff.mp hret
    obtain ⟨rfl, rfl⟩ := hmalloc _ _ _ hmal
    cases hret
    exact ⟨by simp, trivial⟩
  | realloc rmem newsize =>
    obtain ⟨⟨q, s'⟩, hret, rfl⟩ := map_eq_some_iff.mp hcall
    obtain rfl : rmem = rtNull := hlegal.resolve_right (by simp [hlive])
    obtain ⟨rfl, rfl⟩ : q = rtNull ∧ s' = σ.heap := by
      rw [rtRealloc_null] at hret
      split at hret
      · cases hret
        exact ⟨rfl, rfl⟩
      · exact hmalloc _ _ _ hret
    exact ⟨by simp, .inl rfl⟩
  | free rmem =>
    cases hcall
    obtain rfl : rmem = rtNull := hlegal.resolve_right (by simp [hlive])
    rw [Finset.erase_eq_of_notMem h.null_not_live, rtFree, if_pos rfl]
    exact ⟨rfl, trivial⟩
  | store a v =>
    obtain ⟨p, hp, -⟩ := hlegal
    simp [hlive] at hp

/-- The heap is well formed, and if it is below `MIN_SIZE_ALIGNED` bytes, nothing is handed out. -/
def Reachable (σ : Sys) : Prop :=
  (∃ bs, WellFormed σ bs) ∧ (minSizeAligned ≤ σ.heap.memSizeAligned ∨
    σ.heap.memSizeAligned < minSizeAligned ∧ σ.live = ∅)

theorem Reachable.init {m : ByteMem} {beginAddr endAddr : Nat}
    (hinit : rtSystemHeapInit m beginAddr endAddr = some s) : Reachable ⟨s, ∅⟩ := by
  refine ⟨⟨_, wellFormed_init hinit⟩, ?_⟩
  rcases Nat.lt_or_ge s.memSizeAligned minSizeAligned with hlt | hge
  · exact .inr ⟨hlt, rfl⟩
  · exact .inl hge

theorem Reachable.step {c : Call} (h : Reachable σ) (hstep : SafeStep σ c σ') : Reachable σ' := by
  obtain ⟨⟨bs, hwf⟩, hmin | ⟨hsmall, hlive⟩⟩ := h
  · obtain ⟨σ'', hret, hsize, hiff⟩ := call_returns hwf hmin hstep.2.1
    cases hret.symm.trans hstep.2.2
    exact ⟨hiff.mpr hstep.1, .inl (hsize.symm ▸ hmin)⟩
  · obtain ⟨rfl, -⟩ := call_small hwf hsmall hlive hstep.2
    exact ⟨⟨bs, hwf⟩, .inr ⟨hsmall, hlive⟩⟩

theorem Reachable.lowestFree_iff {c : Call} (h : Reachable σ) (hfree : LowestFree σ.heap)
    (hno : NotCalloc c) (hstep : LegalStep σ c σ') : LowestFree σ'.heap ↔ LfreeSafe σ c := by
  obtain ⟨⟨bs, hwf⟩, hmin | ⟨hsmall, hlive⟩⟩ := h
  · exact call_lowest hwf (hwf.layout.lowestFree_iff.mp hfree) hmin hno hstep
  · obtain ⟨rfl, hsafe⟩ := call_small hwf hsmall hlive hstep
    exact iff_of_true hfree hsafe

/-- A legal step that is no `rt_calloc` and shrinks safely. -/
def LfreeStep (σ : Sys) (c : Call) (σ' : Sys) : Prop :=
  NotCalloc c ∧ LfreeSafe σ c ∧ LegalStep σ c σ'

/-- In every run of safe steps `lfree` is the lowest unused block, or `heap_end`, and no unused
block lies below it. At each point of such a run the steps that are not safe are those after which
this fails. -/
theorem lowest_of_safe_run {m : ByteMem} {beginAddr endAddr : Nat} {s₀ : Heap}
    (hinit : rtSystemHeapInit m beginAddr endAddr = some s₀) {cs : List Call}
    (hrun : Run LfreeStep ⟨s₀, ∅⟩ cs σ) :
    (∃ bs, WellFormed σ bs ∧ Lowest σ.heap bs ∧
      ∀ x ∈ bs, x.tag.used = 0 → σ.heap.lfree ≤ σ.heap.heapPtr + x.off) ∧
    ∀ c σ', NotCalloc c → LegalStep σ c σ' → (LowestFree σ'.heap ↔ LfreeSafe σ c) := by
  have hinv : Reachable σ ∧ LowestFree σ.heap := by
    refine hrun.state_invariant ⟨.init hinit, _, rtSystemHeapInit_layout hinit⟩ ?_
    rintro τ c τ' ⟨hreach, hfree⟩ ⟨hno, hsafe, hstep⟩
    exact ⟨hreach.step ⟨by cases c <;> trivial, hstep⟩,
      (hreach.lowestFree_iff hfree hno hstep).mpr hsafe⟩
  obtain ⟨hreach, hfree⟩ := hinv
  obtain ⟨bs, hwf⟩ := hreach.1
  have hlow := hwf.layout.lowestFree_iff.mp hfree
  refine ⟨⟨bs, hwf, hlow, fun x hx hx0 => ?_⟩, fun c σ' => hreach.lowestFree_iff hfree⟩
  have := firstFree_le hwf.layout.linked x hx hx0
  rw [hlow]
  omega

theorem lowest_of_safe_run_fragments : ∃ s₀ σ,
    rtSystemHeapInit (fun _ => 0) 8 296 = some s₀ ∧ Run LfreeStep ⟨s₀, ∅⟩ fragments σ ∧
      LowestFree σ.heap := by
  obtain ⟨s₀, σ, -, hinit, hrun, -⟩ := run_fragments
  have hrun' : Run LfreeStep ⟨s₀, ∅⟩ fragments σ := by
    refine hrun.mono fun {σ c σ'} h => ?_
    cases c with
    | malloc | free => exact ⟨trivial, trivial, h.1⟩
    | calloc | realloc | store => exact h.2.elim
  obtain ⟨bs, hwf, hlow, -⟩ := (lowest_of_safe_run hinit hrun').1
  exact ⟨s₀, σ, hinit, hrun', bs, hwf.layout, hlow⟩

/-- `p = rt_malloc(64); rt_realloc(p, 8);` on a heap that the first call fills: the split makes an
unused block behind `p`, and `lfree` stays at `heap_end`. -/
theorem realloc_split_loses_block : ∃ s₀ σ, rtSystemHeapInit (fun _ => 0) 8 112 = some s₀ ∧
      Run LegalStep ⟨s₀, ∅⟩ [.malloc 64, .realloc 24 8] σ ∧ ¬ LowestFree σ.heap := by
  have hcalls : (do
      let s₀ ← rtSystemHeapInit (fun _ => 0) 8 112
      let a ← rtMalloc s₀ 64
      let b ← rtRealloc a.2 24 8
      return (a.1, b.1, b.2.lfree - b.2.heapPtr, b.2.endOff, (b.2.view 0).next,
        (b.2.view 24).tag.used)) = some (24, 24, 88, 88, 24, 0) := by
    decide +kernel
  obtain ⟨s₀, hinit, hcalls⟩ := Option.bind_eq_some_iff.mp hcalls
  obtain ⟨⟨p, s⟩, hmalloc, hcalls⟩ := Option.bind_eq_some_iff.mp hcalls
  obtain ⟨⟨q, s'⟩, hrealloc, hcalls⟩ := Option.bind_eq_some_iff.mp hcalls
  obtain ⟨rfl, rfl, hlfree, hend, hnext, hused⟩ : p = 24 ∧ q = 24 ∧ s'.lfree - s'.heapPtr = 88 ∧
      s'.endOff = 88 ∧ (s'.view 0).next = 24 ∧ (s'.view 24).tag.used = 0 := by simpa using hcalls
  have hfirst : LegalStep ⟨s₀, ∅⟩ (.malloc 64) ⟨s, {24}⟩ :=
    ⟨trivial, congrArg (Option.map _) hmalloc⟩
  have hsecond : LegalStep ⟨s, {24}⟩ (.realloc 24 8) ⟨s', {24}⟩ :=
    ⟨.inr (Finset.mem_singleton_self 24), congrArg (Option.map _) hrealloc⟩
  refine ⟨s₀, _, hinit, (Run.nil.snoc hfirst).snoc hsecond, ?_⟩
  rintro ⟨bs, hlay, hlow⟩
  rw [Lowest] at hlow
  have hhead := hlay.head
  -- the second block is unused
  match bs with
  | [] => simp [hend] at hhead
  | x :: r =>
    have hx : x.off = 0 := hhead
    have hview := Chain.view_eq (l := []) hlay.toChain
    rw [hx] at hview
    rw [hview] at hnext
    match r with
    | [] => simp [hend] at hnext
    | y :: r =>
      have hview' := Chain.view_eq (l := [x]) hlay.toChain
      have hy : y.off = 24 := hnext
      rw [hy] at hview'
      rw [hview'] at hused
      simp only [firstFree, hx, hy, if_pos hused] at hlow
      split at hlow <;> omega

end RtThread.Mem
