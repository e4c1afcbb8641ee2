import RtThread.Mem.Requests

/-!
# Heap accounting

`used_mem` is kept up to date by differences: `rt_malloc` adds what it takes, `rt_free` subtracts
the block before it is merged, the split of `rt_realloc` subtracts what it cuts off. They add up to
the sum over the used blocks. `max_mem` is compared with `used_mem` only where the latter grows. A
`rt_realloc` that moves a block holds both blocks for a while, and that counts.
-/

namespace RtThread.Mem
open Option
open BlockChain
open Heap
open List
variable {s s' s₀ : Heap} {σ σ' : Sys} {bs l r : List Blk} {x : Blk} {p q size req o : Nat}

/-- `s'` has the statistics of `s`. -/
structure SameStats (s s' : Heap) : Prop where
  usedMem : s'.usedMem = s.usedMem
  maxMem : s'.maxMem = s.maxMem

theorem SameStats.trans {s'' : Heap} (h : SameStats s s') (h' : SameStats s' s'') :
    SameStats s s'' :=
  ⟨h'.usedMem.trans h.usedMem, h'.maxMem.trans h.maxMem⟩

theorem mergeInto_stats (s : Heap) (a b : Nat) : SameStats s (mergeInto s a b) := by
  unfold mergeInto
  split <;> exact ⟨rfl, rfl⟩

theorem plugHoles_stats (s : Heap) (mem : Nat) : SameStats s (plugHoles s mem) := by
  have hforward : SameStats s (plugForward s mem) := by
    unfold plugForward
    dsimp only
    split
    · exact mergeInto_stats s _ _
    · exact ⟨rfl, rfl⟩
  refine hforward.trans ?_
  unfold plugHoles plugBackward
  dsimp only
  split
  · exact mergeInto_stats _ _ _
  · exact ⟨rfl, rfl⟩

theorem fixPrev_stats (s : Heap) (ptr2 : Nat) : SameStats s (fixPrev s ptr2) := by
  unfold fixPrev
  dsimp only
  split <;> exact ⟨rfl, rfl⟩

theorem advanceLfree_stats {mem : Nat} (h : advanceLfree s mem = some s') : SameStats s s' := by
  unfold advanceLfree at h
  split at h
  · obtain ⟨lfree, -, h⟩ := bind_eq_some_iff.mp h
    cases h
    exact ⟨rfl, rfl⟩
  · cases h
    exact ⟨rfl, rfl⟩

theorem takeBlock_stats (size : Nat) (h : Chain s (l ++ x :: r)) :
    (takeBlock s x.off size).usedMem =
        (s.usedMem + (takenStop s.endOff size x r - x.off)) % 2 ^ 32 ∧
      (takeBlock s x.off size).maxMem = max s.maxMem (takeBlock s x.off size).usedMem := by
  obtain ⟨-, hgap, -, hle⟩ := h.around
  have hlt := h.endOff_lt
  have hmax : ∀ (t : Heap) (n : Nat), (t.addUsedMem n).maxMem =
      max t.maxMem (t.addUsedMem n).usedMem := by
    intro t n
    rw [addUsedMem_maxMem, addUsedMem_usedMem]
    split <;> omega
  simp only [takeBlock, h.payload_eq, takenStop]
  by_cases hsplit : x.off + 16 + size + 32 ≤ headOff r s.endOff
  · have hcond : size + sizeofStructMem + minSizeAligned ≤ headOff r s.endOff - (x.off + 16) := by
      rw [sizeofStructMem_eq, minSizeAligned_eq]
      omega
    have hstats := fixPrev_stats ((createMem2 s x.off (x.off + sizeofStructMem + size)).setUsed
      (s.heapPtr + x.off) 1) (x.off + sizeofStructMem + size)
    rw [if_pos hcond, if_pos hsplit]
    refine ⟨?_, ?_⟩
    · rw [setMagic_usedMem, addUsedMem_usedMem, hstats.usedMem, sizeofStructMem_eq,
        show x.off + 16 + size - x.off = size + 16 by omega]
      rfl
    · rw [setMagic_maxMem, setMagic_usedMem, hmax, hstats.maxMem]
      rfl
  · have hcond : ¬ size + sizeofStructMem + minSizeAligned ≤
        headOff r s.endOff - (x.off + 16) := by
      rw [sizeofStructMem_eq, minSizeAligned_eq]
      omega
    have hnext : (s.setUsed (s.heapPtr + x.off) 1).next (s.heapPtr + x.off) =
        headOff r s.endOff := by
      have hkeep := congrArg Header.next
        (headerAt_setUsed_same (s := s) (a := s.heapPtr + x.off) (v := 1) (by decide))
      exact hkeep.trans (congrArg Header.next h.view_eq)
    rw [if_neg hcond, if_neg hsplit]
    refine ⟨?_, ?_⟩
    · rw [setMagic_usedMem, addUsedMem_usedMem, hnext, setUsed_heapPtr,
        Nat.add_sub_cancel_left, sub32_of_le]
      rfl
    · rw [setMagic_maxMem, setMagic_usedMem, hmax]
      rfl

theorem rtFree_stats (h : Chain s (l ++ x :: r)) (hx : x.tag.used ≠ 0) :
    (rtFree s (s.heapPtr + x.off + 16)).usedMem = sub32 s.usedMem (headOff r s.endOff - x.off) ∧
      (rtFree s (s.heapPtr + x.off + 16)).maxMem = s.maxMem := by
  obtain ⟨-, hgap, -, hle⟩ := h.around
  have hlt := h.endOff_lt
  have hroom := (h.blocks x (by simp)).room hx
  have hend := h.frame.heapEnd
  have hnext : ((s.setUsed (s.heapPtr + x.off) 0).setMagic (s.heapPtr + x.off) heapMagic).next
      (s.heapPtr + x.off) = headOff r s.endOff := by
    have hview := h.markFree.view_eq
    exact congrArg Header.next hview
  unfold rtFree
  rw [if_neg (payload_ne_null _), if_neg (by omega), sub_sizeofStructMem]
  dsimp only
  generalize hs1 : (s.setUsed (s.heapPtr + x.off) 0).setMagic (s.heapPtr + x.off) heapMagic = s1
    at hnext
  have hptr : s1.heapPtr = s.heapPtr := by rw [← hs1]; rfl
  have hused : s1.usedMem = s.usedMem := by rw [← hs1]; rfl
  have hmax : s1.maxMem = s.maxMem := by rw [← hs1]; rfl
  have hsub : sub32 (headOff r s.endOff) (s.heapPtr + x.off - s1.heapPtr) =
      headOff r s.endOff - x.off := by
    rw [hptr, Nat.add_sub_cancel_left]
    exact sub32_of_le
  have hplug := plugHoles_stats
  split
  all_goals
    refine ⟨(hplug _ _).usedMem.trans ?_, (hplug _ _).maxMem.trans hmax⟩
    exact congrArg₂ sub32 hused ((congrArg (sub32 · _) hnext).trans hsub)

theorem reallocSplit_stats (s : Heap) (ptr size newsize : Nat) :
    (reallocSplit s ptr size newsize).usedMem = sub32 s.usedMem (size - newsize) ∧
      (reallocSplit s ptr size newsize).maxMem = s.maxMem := by
  unfold reallocSplit
  have hplug := fun t mem => (fixPrev_stats t (ptr + sizeofStructMem + newsize)).trans
    (plugHoles_stats _ mem)
  exact ⟨(hplug _ _).usedMem, (hplug _ _).maxMem⟩

/-- `used_mem` is the sum over the used blocks of the chain `bs`. -/
structure Balanced (s : Heap) (bs : List Blk) : Prop where
  layout : Layout s bs
  usedMem : s.usedMem = usedTotal s.endOff bs

/-- What the statistics of `s'` say after those of `s`, if `used_mem` had the values `vs` on the
way. -/
structure Counted (s : Heap) (vs : List Nat) (s' : Heap) : Prop where
  last : s'.usedMem = s.usedMem ∨ s'.usedMem ∈ vs
  peak : s'.maxMem = s.maxMem ∨ s'.maxMem ∈ vs
  grows : s.maxMem ≤ s'.maxMem
  below : ∀ u ∈ vs, u ≤ s'.maxMem

theorem usedTotal_lt (h : Chain s bs) : usedTotal s.endOff bs < 2 ^ 32 := by
  have hle := usedTotal_le h.linked
  have hlt := h.endOff_lt
  omega

theorem Balanced.malloc (h : Balanced s (l ++ x :: r))
    (hret : rtMalloc s req = some (s.heapPtr + x.off + 16, s'))
    (ha : Allocated s (blockSize (rtAlign req rtAlignSize)) l x r s') :
    Balanced s' (l ++ taken s.endOff (blockSize (rtAlign req rtAlignSize)) x r) ∧
      s'.maxMem = max s.maxMem s'.usedMem := by
  rcases rtMalloc_cases hret with ⟨hnull, -⟩ | ⟨ptr, -, hadv, hptr⟩
  · simp [rtNull] at hnull
  obtain rfl : x.off = ptr := by omega
  have hstats := advanceLfree_stats hadv
  obtain ⟨hused, hmax⟩ :=
    takeBlock_stats (blockSize (rtAlign req rtAlignSize)) h.layout.toChain
  refine ⟨⟨ha.layout, ?_⟩, ?_⟩
  · have hlt := usedTotal_lt ha.layout.toChain
    have hbefore := h.usedMem
    rw [usedTotal, usedBlocks_unused ha.fits.unused, map_append, sum_append] at hbefore
    rw [ha.frame.endOff] at hlt ⊢
    rw [usedTotal, usedBlocks_taken, map_append, map_cons, sum_append, sum_cons] at hlt ⊢
    rw [hstats.usedMem, hused, Nat.mod_eq_of_lt] <;> omega
  · rw [hstats.maxMem, hmax, hstats.usedMem]

theorem Balanced.free (h : Balanced s (l ++ x :: r)) (hx : x.tag.used ≠ 0) :
    Balanced (rtFree s (s.heapPtr + x.off + 16)) (plugged l ⟨x.off, freeTag⟩ r) ∧
      (rtFree s (s.heapPtr + x.off + 16)).maxMem = s.maxMem ∧
      (rtFree s (s.heapPtr + x.off + 16)).usedMem ≤ s.usedMem := by
  obtain ⟨lf, hlf, -⟩ := h.layout.lfree
  obtain ⟨hlay, hf, -⟩ := rtFree_spec h.layout hx hlf
  obtain ⟨hused, hmax⟩ := rtFree_stats h.layout.toChain hx
  have hlt := usedTotal_lt h.layout.toChain
  have hbefore := h.usedMem
  rw [← hbefore] at hlt
  rw [usedTotal, usedBlocks_of_used hx, map_append, map_cons, sum_append, sum_cons] at hbefore
  rw [sub32_of_le (by omega) hlt] at hused
  refine ⟨⟨hlay, ?_⟩, hmax, by omega⟩
  rw [hused, hf.endOff, usedTotal, usedBlocks_plugged rfl, map_append, sum_append]
  dsimp only
  omega

theorem Balanced.split {n : Nat} (h : Balanced s (l ++ x :: r)) (hx : x.tag.used ≠ 0)
    (h8 : 8 ∣ n) (hsize : x.off + 16 + n + 16 ≤ headOff r s.endOff) :
    let s' := reallocSplit s x.off (headOff r s.endOff - x.off - 16) n
    Balanced s' (l ++ x :: ⟨x.off + 16 + n, freeTag⟩ :: joinRight r) ∧ s'.maxMem = s.maxMem ∧
      s'.usedMem ≤ s.usedMem := by
  obtain ⟨lf, hlf, -⟩ := h.layout.lfree
  obtain ⟨hlay, hf, -⟩ := reallocSplit_spec (headOff r s.endOff - x.off - 16) h.layout hx hlf rfl
    h8 hsize
  obtain ⟨hused, hmax⟩ :=
    reallocSplit_stats s x.off (headOff r s.endOff - x.off - 16) n
  have hlt := usedTotal_lt h.layout.toChain
  have hbefore := h.usedMem
  rw [← hbefore] at hlt
  rw [usedTotal, usedBlocks_of_used hx, map_append, map_cons, sum_append, sum_cons] at hbefore
  rw [sub32_of_le (by omega) hlt] at hused
  refine ⟨⟨hlay, ?_⟩, hmax, by omega⟩
  rw [hused, hf.endOff, usedTotal, usedBlocks_split hx, map_append, map_cons, sum_append, sum_cons]
  omega

theorem WellFormed.single (h : WellFormed σ bs) (hlive : σ.live = ∅) : bs = [⟨0, freeTag⟩] := by
  have hfree : ∀ y ∈ bs, y.tag.used = 0 := by
    intro y hy
    by_contra hused
    have hmem := (h.live _).mpr ⟨y, hy, hused, rfl⟩
    rw [hlive] at hmem
    cases hmem
  have hhead := h.layout.head
  cases bs with
  | nil => exact absurd rfl h.layout.ne_nil
  | cons y bs =>
    cases bs with
    | nil =>
      have hmagic := (h.layout.blocks y mem_cons_self).magic
      have hused := hfree y mem_cons_self
      obtain ⟨o, ⟨magic, used⟩⟩ := y
      simp only [headOff_cons] at hhead hmagic hused
      rw [hhead, hmagic, hused]
      rfl
    | cons z bs =>
      have hco := (isChain_cons.mp h.layout.coalesced).1 z rfl
      rcases hco with hy | hz
      · exact absurd (hfree y (by simp)) hy
      · exact absurd (hfree z (by simp)) hz

theorem plugLfree_le {lf : Nat} (hl : ∀ z ∈ l, z.off ≤ x.off) (hlf : lf ≤ x.off) :
    plugLfree l x r lf ≤ x.off := by
  have hforward : forwardLfree x lf r ≤ x.off := by
    unfold forwardLfree
    split
    · exact hlf
    · split <;> omega
  unfold plugLfree
  split
  · rename_i hlast
    obtain ⟨z, hz, hoff⟩ := lastOff_mem hlast.1.ne_nil 0
    rw [← hoff]
    exact hl z hz
  · exact hforward

/-- After a release `lfree` is not `heap_end`, so with no block left in use it is the start. -/
theorem rtFree_lfree (h : WellFormed σ (l ++ x :: r)) (hx : x.tag.used ≠ 0)
    (hlive : σ.live.erase (σ.heap.heapPtr + x.off + 16) = ∅) :
    (rtFree σ.heap (σ.heap.heapPtr + x.off + 16)).lfree =
      (rtFree σ.heap (σ.heap.heapPtr + x.off + 16)).heapPtr := by
  obtain ⟨lf, hlf, -⟩ := h.layout.lfree
  obtain ⟨hlay, hf, hlf'⟩ := rtFree_spec h.layout hx hlf
  obtain ⟨hl, hgap, -, hle⟩ := h.layout.around
  have hsingle := (h.freed hx rfl).1.single hlive
  have hbound := plugLfree_le (x := ⟨x.off, freeTag⟩) (r := r)
    (fun z hz => by have := hl z hz; simp only; omega) (min_le_left x.off lf)
  simp only at hbound
  obtain ⟨o, ho, hon⟩ := hlay.lfree
  have hoff : o = plugLfree l ⟨x.off, freeTag⟩ r (min x.off lf) := by
    have := hf.heapPtr
    omega
  rw [hsingle, hf.endOff] at hon
  rcases hon with hend | ⟨z, hz, hz0⟩
  · omega
  · obtain rfl := mem_singleton.mp hz
    rw [ho, ← hz0]
    rfl

/-- The values `used_mem` is given during a call. There is one assignment in each function, and a
`rt_realloc` that returns another block has been through `rt_malloc` and `rt_free`. -/
def usedMemValues (s : Heap) : Call → List Nat
  | .malloc size => (rtMalloc s size.toNat).toList.map fun a => a.2.usedMem
  | .calloc count size => (rtCalloc s count.toNat size.toNat).toList.map fun a => a.2.usedMem
  | .realloc rmem newsize =>
    match rtRealloc s rmem newsize.toNat with
    | none => []
    | some (q, s') =>
      (if rmem ≠ rtNull ∧ q ≠ rtNull ∧ q ≠ rmem then
        (rtMalloc s (rtAlign newsize.toNat rtAlignSize)).toList.map fun a => a.2.usedMem
      else []) ++ [s'.usedMem]
  | .free rmem => [(rtFree s rmem).usedMem]
  | .store _ _ => []

theorem Counted.same (h : s.usedMem ≤ s.maxMem) : Counted s [s.usedMem] s :=
  ⟨.inl rfl, .inl rfl, le_rfl, fun u hu => by rwa [mem_singleton.mp hu]⟩

theorem Counted.grown (hmax : s'.maxMem = max s.maxMem s'.usedMem) : Counted s [s'.usedMem] s' := by
  refine ⟨.inr mem_cons_self, ?_, by omega, fun u hu => ?_⟩
  · rcases le_total s.maxMem s'.usedMem with hle | hle
    · exact .inr (mem_singleton.mpr (by omega))
    · exact .inl (by omega)
  · rw [mem_singleton.mp hu]
    omega

theorem Counted.shrunk (h : s.usedMem ≤ s.maxMem) (hmax : s'.maxMem = s.maxMem)
    (hused : s'.usedMem ≤ s.usedMem) : Counted s [s'.usedMem] s' := by
  refine ⟨.inr mem_cons_self, .inl hmax, hmax.ge, fun u hu => ?_⟩
  rw [mem_singleton.mp hu]
  omega

theorem Counted.trans {vs vs' : List Nat} {s'' : Heap} (h : Counted s vs s')
    (h' : Counted s' vs' s'') : Counted s (vs ++ vs') s'' := by
  refine ⟨?_, ?_, h.grows.trans h'.grows, fun u hu => ?_⟩
  · rcases h'.last with heq | hmem
    · rw [heq]
      exact h.last.imp_right (mem_append_left _)
    · exact .inr (mem_append_right _ hmem)
  · rcases h'.peak with heq | hmem
    · rw [heq]
      exact h.peak.imp_right (mem_append_left _)
    · exact .inr (mem_append_right _ hmem)
  · rcases mem_append.mp hu with hu | hu
    · exact (h.below u hu).trans h'.grows
    · exact h'.below u hu

/-- What a call leaves behind: the books are right, and if nothing is held any more either nothing
happened or `lfree` is the start of the heap. -/
structure Booked (σ : Sys) (vs : List Nat) (σ' : Sys) : Prop where
  balanced : ∃ bs, Balanced σ'.heap bs
  counted : Counted σ.heap vs σ'.heap
  lfree : σ'.live = ∅ → σ' = σ ∨ σ'.heap.lfree = σ'.heap.heapPtr

theorem Booked.unchanged (h : Balanced σ.heap bs) (hle : σ.heap.usedMem ≤ σ.heap.maxMem) :
    Booked σ [σ.heap.usedMem] σ :=
  ⟨⟨bs, h⟩, .same hle, fun _ => .inl rfl⟩

theorem rtMalloc_booked (h : WellFormed σ bs) (hb : Balanced σ.heap bs)
    (hle : σ.heap.usedMem ≤ σ.heap.maxMem) (hmin : minSizeAligned ≤ σ.heap.memSizeAligned)
    (hret : rtMalloc σ.heap req = some (q, s')) :
    Booked σ [s'.usedMem] ⟨s', hand q σ.live⟩ := by
  rcases rtMalloc_spec h.layout hmin req with ⟨hret', -⟩ | ⟨l, x, r, s'', rfl, hret', ha⟩ <;>
    cases hret.symm.trans hret'
  · rw [hand_null]
    exact .unchanged hb hle
  · obtain ⟨hbal, hmax⟩ := hb.malloc hret ha
    refine ⟨⟨_, hbal⟩, .grown hmax, fun hlive => ?_⟩
    rw [hand, if_neg (by simp [rtNull])] at hlive
    exact absurd hlive (Finset.insert_ne_empty _ _)

theorem calloc_booked {count sz : BitVec 32} (h : WellFormed σ bs) (hb : Balanced σ.heap bs)
    (hle : σ.heap.usedMem ≤ σ.heap.maxMem) (hmin : minSizeAligned ≤ σ.heap.memSizeAligned)
    (hsafe : CallocSafe σ.heap count.toNat sz.toNat)
    (hret : rtCalloc σ.heap count.toNat sz.toNat = some (q, s')) :
    Booked σ [s'.usedMem] ⟨s', hand q σ.live⟩ := by
  have hlt : callocBytes count.toNat sz.toNat < 2 ^ 32 := Nat.mod_lt _ (by decide)
  obtain ⟨⟨q', s1⟩, hmal, hfill⟩ := bind_eq_some_iff.mp hret
  have hbooked := rtMalloc_booked h hb hle hmin hmal
  by_cases hq : q' = rtNull
  · cases (if_neg (not_not.mpr hq)).symm.trans hfill
    exact hbooked
  · cases (if_pos hq).symm.trans hfill
    rcases rtMalloc_spec h.layout hmin (callocBytes count.toNat sz.toNat) with
      ⟨hret', -⟩ | ⟨l, x, r, s'', rfl, hret', ha⟩ <;>
      cases hmal.symm.trans hret'
    · exact absurd rfl hq
    have hwrap : callocBytes count.toNat sz.toNat + 7 < 2 ^ 32 := by
      by_contra hwrap
      rw [(blockSize_wrap (Nat.le_of_not_lt hwrap) hlt).2] at ha
      exact (hsafe.resolve_left hwrap) _ h.layout l x r rfl ha.above ha.fits
    obtain ⟨hbal, -⟩ := hb.malloc hmal ha
    obtain ⟨-, ⟨hlast, hpeak, hgrows, hbelow⟩, -⟩ := hbooked
    refine ⟨⟨_, ha.fill 0 hwrap, hbal.usedMem⟩, ⟨hlast, hpeak, hgrows, hbelow⟩, fun hlive => ?_⟩
    rw [hand, if_neg hq] at hlive
    exact absurd hlive (Finset.insert_ne_empty _ _)

theorem realloc_booked {newsize : BitVec 32} (h : WellFormed σ (l ++ x :: r))
    (hb : Balanced σ.heap (l ++ x :: r)) (hx : x.tag.used ≠ 0)
    (hle : σ.heap.usedMem ≤ σ.heap.maxMem) (hmin : minSizeAligned ≤ σ.heap.memSizeAligned)
    (hcall : call σ (.realloc (σ.heap.heapPtr + x.off + 16) newsize) = some σ') :
    Booked σ (usedMemValues σ.heap (.realloc (σ.heap.heapPtr + x.off + 16) newsize)) σ' := by
  have hheld : ∀ {q : Nat} {live : Finset Nat}, insert q live = ∅ → ∀ {P : Prop}, P :=
    fun hlive => absurd hlive (Finset.insert_ne_empty _ _)
  obtain ⟨q, s', hret, hout⟩ := rtRealloc_spec h.layout hx hmin newsize.toNat
  rw [call, hret] at hcall
  cases hcall
  simp only [usedMemValues, hret]
  cases hout with
  | refused _ =>
    rw [if_neg (by simp), if_pos rfl]
    exact .unchanged hb hle
  | kept _ =>
    rw [if_neg (by simp), if_neg (payload_ne_null _)]
    exact ⟨⟨_, hb⟩, .same hle, fun hlive => hheld hlive⟩
  | split hsize heq =>
    obtain ⟨hbal, hmax, hused⟩ := hb.split hx (dvd_rtAlign newsize.toNat)
      (by simp only [rtAlignSize] at hsize; omega)
    rw [← rtAlignSize, ← heq] at hbal hmax hused
    rw [if_neg (by simp), if_neg (payload_ne_null _)]
    exact ⟨⟨_, hbal⟩, .shrunk hle hmax hused, fun hlive => hheld hlive⟩
  | @moved l1 r1 l2 r2 y s1 mem _ hbs hmal ha hbs2 hlay =>
    have hxy : x ≠ y := by
      rintro rfl
      exact hx ha.fits.unused
    have hoff : y.off ≠ x.off := fun heq =>
      hxy (h.layout.off_injective (by simp) (hbs ▸ (by simp)) heq.symm)
    obtain ⟨hbal, hmax⟩ := (hbs ▸ hb).malloc hmal ha
    have hcopied : Balanced { s1 with mem := mem } (l2 ++ x :: r2) :=
      ⟨hlay, by rw [← hbs2]; exact hbal.usedMem⟩
    obtain ⟨hbal', hmax', hused'⟩ := hcopied.free hx
    rw [if_pos ⟨payload_ne_null _, payload_ne_null _, by omega⟩, if_neg (payload_ne_null _), hmal]
    have hgrown : Counted σ.heap [s1.usedMem] s1 := .grown hmax
    exact ⟨⟨_, hbal'⟩, hgrown.trans (.shrunk (by omega) hmax' hused'), fun hlive => hheld hlive⟩

theorem call_booked {c : Call} (h : WellFormed σ bs) (hb : Balanced σ.heap bs)
    (hle : σ.heap.usedMem ≤ σ.heap.maxMem) (hmin : minSizeAligned ≤ σ.heap.memSizeAligned)
    (hstep : SafeStep σ c σ') : Booked σ (usedMemValues σ.heap c) σ' := by
  obtain ⟨hsafe, hlegal, hcall⟩ := hstep
  cases c with
  | malloc size =>
    obtain ⟨⟨q, s'⟩, hret, rfl⟩ := map_eq_some_iff.mp hcall
    rw [usedMemValues, hret]
    exact rtMalloc_booked h hb hle hmin hret
  | calloc count size =>
    obtain ⟨⟨q, s'⟩, hret, rfl⟩ := map_eq_some_iff.mp hcall
    rw [usedMemValues, hret]
    exact calloc_booked h hb hle hmin hsafe hret
  | realloc rmem newsize =>
    rcases hlegal with rfl | hp
    · obtain ⟨⟨q, s'⟩, hret, rfl⟩ := map_eq_some_iff.mp hcall
      have hlive : (if q = rtNull then σ.live else insert q (σ.live.erase rtNull)) =
          hand q σ.live := by rw [hand, Finset.erase_eq_of_notMem h.null_not_live]
      simp only [usedMemValues, hret, hlive]
      rw [if_neg (by simp), nil_append]
      rw [rtRealloc_null] at hret
      split at hret
      · cases hret
        rw [hand_null]
        exact .unchanged hb hle
      · exact rtMalloc_booked h hb hle hmin hret
    · obtain ⟨l, x, r, rfl, hx, rfl⟩ := ((h.live rmem).mp hp).split
      exact realloc_booked h hb hx hle hmin hcall
  | free rmem =>
    cases hcall
    rcases hlegal with rfl | hp
    · have hnull : rtFree σ.heap rtNull = σ.heap := if_pos rfl
      rw [usedMemValues, hnull, Finset.erase_eq_of_notMem h.null_not_live]
      exact .unchanged hb hle
    · obtain ⟨l, x, r, rfl, hx, rfl⟩ := ((h.live rmem).mp hp).split
      obtain ⟨hbal, hmax, hused⟩ := hb.free hx
      exact ⟨⟨_, hbal⟩, .shrunk hle hmax hused, fun hlive => .inr (rtFree_lfree h hx hlive)⟩
  | store a v =>
    cases hcall
    refine ⟨⟨bs, (h.stored v hlegal).layout, hb.usedMem⟩,
      ⟨.inl rfl, .inl rfl, le_rfl, fun u hu => by cases hu⟩, fun hlive => ?_⟩
    obtain ⟨p, hp, -⟩ := hlegal
    rw [show σ.live = ∅ from hlive] at hp
    cases hp

/-- The heap, the pointers the program holds, and every value `used_mem` ever had. -/
structure Ledger where
  sys : Sys
  reached : List Nat

/-- A legal step, with the values `used_mem` has during it. -/
def LedgerStep (τ : Ledger) (c : Call) (τ' : Ledger) : Prop :=
  LegalStep τ.sys c τ'.sys ∧ τ'.reached = τ.reached ++ usedMemValues τ.sys.heap c

/-- A step that is safe as well. -/
def SafeLedgerStep (τ : Ledger) (c : Call) (τ' : Ledger) : Prop :=
  Safe τ.sys c ∧ LedgerStep τ c τ'

/-- `used_mem` is the sum over the used blocks, `max_mem` the largest value it ever had, and when
nothing is held the heap is one unused block, with `lfree` at its start. -/
structure Accounted (τ : Ledger) (bs : List Blk) : Prop where
  chain : Chain τ.sys.heap bs
  usedMem : τ.sys.heap.usedMem = usedTotal τ.sys.heap.endOff bs
  maxMem : IsGreatest { u | u ∈ τ.reached } τ.sys.heap.maxMem
  released : τ.sys.live = ∅ → bs = [⟨0, freeTag⟩] ∧ τ.sys.heap.usedMem = 0 ∧
    τ.sys.heap.lfree = τ.sys.heap.heapPtr

/-- What a run of safe steps keeps. -/
structure InBalance (τ : Ledger) : Prop where
  wellFormed : ∃ bs, WellFormed τ.sys bs
  balanced : ∃ bs, Balanced τ.sys.heap bs
  hmin : minSizeAligned ≤ τ.sys.heap.memSizeAligned
  current : τ.sys.heap.usedMem ∈ τ.reached
  maxMem : IsGreatest { u | u ∈ τ.reached } τ.sys.heap.maxMem
  lfree : τ.sys.live = ∅ → τ.sys.heap.lfree = τ.sys.heap.heapPtr

theorem InBalance.step {τ τ' : Ledger} {c : Call} (h : InBalance τ)
    (hstep : SafeLedgerStep τ c τ') : InBalance τ' := by
  obtain ⟨hsafe, hlegal, hreached⟩ := hstep
  obtain ⟨bs, hwf⟩ := h.wellFormed
  obtain ⟨bs', hbal⟩ := h.balanced
  obtain rfl : bs = bs' := hwf.layout.toChain.unique hbal.layout.toChain
  have hle := h.maxMem.2 h.current
  obtain ⟨hbal', hcount, hlfree⟩ := call_booked hwf hbal hle h.hmin ⟨hsafe, hlegal⟩
  obtain ⟨σ', hret, hsize, hiff⟩ := call_returns hwf h.hmin hlegal.1
  cases hret.symm.trans hlegal.2
  refine ⟨hiff.mpr hsafe, hbal', hsize ▸ h.hmin, ?_, ⟨?_, fun u hu => ?_⟩, fun hlive => ?_⟩
  · rw [hreached]
    rcases hcount.last with heq | hmem
    · exact mem_append_left _ (heq ▸ h.current)
    · exact mem_append_right _ hmem
  · change _ ∈ τ'.reached
    rw [hreached]
    rcases hcount.peak with heq | hmem
    · exact mem_append_left _ (heq ▸ h.maxMem.1)
    · exact mem_append_right _ hmem
  · change u ∈ τ'.reached at hu
    rw [hreached] at hu
    rcases mem_append.mp hu with hu | hu
    · exact (h.maxMem.2 hu).trans hcount.grows
    · exact hcount.below u hu
  · rcases hlfree hlive with heq | hstart
    · rw [heq] at hlive ⊢
      exact h.lfree hlive
    · exact hstart

theorem InBalance.accounted {τ : Ledger} (h : InBalance τ) : ∃ bs, Accounted τ bs := by
  obtain ⟨bs, hwf⟩ := h.wellFormed
  obtain ⟨bs', hbal⟩ := h.balanced
  obtain rfl : bs = bs' := hwf.layout.toChain.unique hbal.layout.toChain
  refine ⟨bs, hwf.layout.toChain, hbal.usedMem, h.maxMem, fun hlive => ?_⟩
  obtain rfl := hwf.single hlive
  exact ⟨rfl, hbal.usedMem, h.lfree hlive⟩

variable {beginAddr endAddr : Nat}

theorem rtSystemHeapInit_stats {m : ByteMem}
    (h : rtSystemHeapInit m beginAddr endAddr = some s) : s.usedMem = 0 ∧ s.maxMem = 0 := by
  simp only [rtSystemHeapInit, ite_none_right_eq_some, some.injEq] at h
  obtain ⟨-, rfl⟩ := h
  exact ⟨rfl, rfl⟩

theorem inBalance_init {m : ByteMem} (hinit : rtSystemHeapInit m beginAddr endAddr = some s₀)
    (hmin : minSizeAligned ≤ s₀.memSizeAligned) : InBalance ⟨⟨s₀, ∅⟩, [0]⟩ := by
  obtain ⟨hlay, hlf⟩ := rtSystemHeapInit_layout hinit
  obtain ⟨hused, hmax⟩ := rtSystemHeapInit_stats hinit
  refine ⟨⟨_, wellFormed_init hinit⟩, ⟨_, hlay, hused⟩, hmin, ?_, ⟨?_, ?_⟩, fun _ => hlf⟩
  · rw [hused]
    exact mem_cons_self
  · change s₀.maxMem ∈ [0]
    rw [hmax]
    exact mem_cons_self
  · intro u hu
    rw [mem_singleton.mp hu]
    exact zero_le

/-- In every run of safe steps the books of the heap are right. -/
theorem accounted_of_run {m : ByteMem} {beginAddr endAddr : Nat}
    (hinit : rtSystemHeapInit m beginAddr endAddr = some s₀)
    (hmin : minSizeAligned ≤ s₀.memSizeAligned) {cs : List Call} {τ : Ledger}
    (hrun : Run SafeLedgerStep ⟨⟨s₀, ∅⟩, [0]⟩ cs τ) : ∃ bs, Accounted τ bs := by
  have hbalance : InBalance τ :=
    hrun.state_invariant (inBalance_init hinit hmin) fun _ _ _ h hstep => h.step hstep
  exact hbalance.accounted

/-- `p = rt_malloc(5); rt_free(p);` on a fresh heap. -/
theorem accounted_of_run_released : ∃ s₀ τ, rtSystemHeapInit (fun _ => 0) 8 88 = some s₀ ∧
    Run SafeLedgerStep ⟨⟨s₀, ∅⟩, [0]⟩ [.malloc 5, .free 24] τ ∧ τ.sys.live = ∅ ∧
      τ.sys.heap.maxMem = 32 ∧ ∃ bs, Accounted τ bs := by
  have hcalls : (do
      let s₀ ← rtSystemHeapInit (fun _ => 0) 8 88
      let a ← rtMalloc s₀ 5
      return (s₀.memSizeAligned, a.1, (rtFree a.2 a.1).maxMem)) = some (48, 24, 32) := by
    decide +kernel
  obtain ⟨s₀, hinit, hcalls⟩ := bind_eq_some_iff.mp hcalls
  obtain ⟨⟨p, s1⟩, hmalloc, hcalls⟩ := bind_eq_some_iff.mp hcalls
  obtain ⟨hsize, rfl, hmax⟩ : s₀.memSizeAligned = 48 ∧ p = 24 ∧ (rtFree s1 p).maxMem = 32 := by
    simpa using hcalls
  have hfirst : SafeLedgerStep ⟨⟨s₀, ∅⟩, [0]⟩ (.malloc 5)
      ⟨⟨s1, {24}⟩, [0] ++ usedMemValues s₀ (.malloc 5)⟩ :=
    ⟨trivial, ⟨trivial, congrArg (Option.map _) hmalloc⟩, rfl⟩
  have hsecond : SafeLedgerStep ⟨⟨s1, {24}⟩, [0] ++ usedMemValues s₀ (.malloc 5)⟩ (.free 24)
      ⟨⟨rtFree s1 24, ∅⟩, [0] ++ usedMemValues s₀ (.malloc 5) ++ usedMemValues s1 (.free 24)⟩ :=
    ⟨trivial, ⟨.inr (Finset.mem_singleton_self 24), rfl⟩, rfl⟩
  have hrun := (Run.nil.snoc hfirst).snoc hsecond
  refine ⟨s₀, _, hinit, hrun, rfl, hmax, accounted_of_run hinit ?_ hrun⟩
  rw [hsize]
  decide

/-- `p = rt_calloc(1, 0xffffffff); rt_free(p);` on a fresh heap: the fill has zeroed the header
behind `p`, and the release takes its `next` over. Nothing is held, and the heap is not the single
block it was. -/
theorem calloc_wrap_breaks_accounts : ∃ s₀ τ, rtSystemHeapInit (fun _ => 0) 8 88 = some s₀ ∧
    minSizeAligned ≤ s₀.memSizeAligned ∧
      Run LedgerStep ⟨⟨s₀, ∅⟩, [0]⟩ [.calloc 1 0xFFFFFFFF, .free 24] τ ∧ τ.sys.live = ∅ ∧
      τ.sys.heap.next τ.sys.heap.heapPtr = 0 ∧ ¬ ∃ bs, Accounted τ bs := by
  have hcalls : (do
      let s₀ ← rtSystemHeapInit (fun _ => 0) 8 88
      let a ← rtCalloc s₀ (1 : BitVec 32).toNat (0xFFFFFFFF : BitVec 32).toNat
      return (s₀.memSizeAligned, a.1, (rtFree a.2 a.1).next (rtFree a.2 a.1).heapPtr,
        (rtFree a.2 a.1).memSizeAligned)) = some (48, 24, 0, 48) := by
    decide +kernel
  obtain ⟨s₀, hinit, hcalls⟩ := bind_eq_some_iff.mp hcalls
  obtain ⟨⟨p, s1⟩, hcalloc, hcalls⟩ := bind_eq_some_iff.mp hcalls
  obtain ⟨hsize, rfl, hnext, hsize'⟩ : s₀.memSizeAligned = 48 ∧ p = 24 ∧
      (rtFree s1 p).next (rtFree s1 p).heapPtr = 0 ∧ (rtFree s1 p).memSizeAligned = 48 := by
    simpa using hcalls
  have hcall : call ⟨s₀, ∅⟩ (.calloc 1 0xFFFFFFFF) = some ⟨s1, {24}⟩ := by
    rw [call, hcalloc]
    rfl
  have hfirst : LedgerStep ⟨⟨s₀, ∅⟩, [0]⟩ (.calloc 1 0xFFFFFFFF)
      ⟨⟨s1, {24}⟩, [0] ++ usedMemValues s₀ (.calloc 1 0xFFFFFFFF)⟩ :=
    ⟨⟨trivial, hcall⟩, rfl⟩
  have hsecond : LedgerStep ⟨⟨s1, {24}⟩, [0] ++ usedMemValues s₀ (.calloc 1 0xFFFFFFFF)⟩ (.free 24)
      ⟨⟨rtFree s1 24, ∅⟩, [0] ++ usedMemValues s₀ (.calloc 1 0xFFFFFFFF) ++
        usedMemValues s1 (.free 24)⟩ :=
    ⟨⟨.inr (Finset.mem_singleton_self 24), rfl⟩, rfl⟩
  refine ⟨s₀, _, hinit, by rw [hsize]; decide, (Run.nil.snoc hfirst).snoc hsecond, rfl, hnext, ?_⟩
  rintro ⟨bs, hacc⟩
  obtain ⟨rfl, -⟩ := hacc.released rfl
  have hview := congrArg Header.next (Chain.view_eq (l := []) hacc.chain)
  rw [← next_eq_view, add_zero] at hview
  rw [hnext, Heap.endOff, hsize'] at hview
  exact absurd hview (by decide)

end RtThread.Mem
