import RtThread.Memheap.Release

/-!
# `rt_memheap_realloc`

A block grows in place into a free block behind it, gives its end back, or is moved. In the first
two cases the free block behind gets a new header, which may overlap the old one: the old item
leaves both lists before the new one is written.
-/

namespace RtThread.Memheap
open BlockChain
open List
variable {s s' : Heap} {bs l r : List Blk} {x y : Blk} {fs f1 f2 : List Nat} {n p size req : Nat}

theorem Inv.congr {m : ByteMem} (h : Inv s bs fs)
    (hm : ∀ o, o = s.freeHeader ∨ o = s.tail ∨ (∃ z ∈ bs, z.off = o) →
      ByteMem.AgreeOn m s.mem o 24) : Inv { s with mem := m } bs fs := by
  have hf : SameFrame s { s with mem := m } := ⟨rfl, rfl, rfl, rfl, rfl⟩
  refine ⟨⟨h.lists.blocks.transfer hf fun o ho => ?_, h.lists.free.congr hf fun o ho => ?_,
    h.lists.nodes⟩, h.perm, h.coalesced, h.available⟩
  · exact Heap.view_congr ((hm o (.inr ho)).mono (by omega) (by omega))
  · have hitem : o = s.freeHeader ∨ ∃ z ∈ bs, z.off = o := by
      rcases mem_cons.mp ho with rfl | ho
      · exact .inl rfl
      · exact .inr (h.lists.nodes o ho)
    exact Heap.free_congr ((hm o (hitem.imp_right .inr)).mono (by omega) (by omega))

theorem Inv.write {m : ByteMem} (h : Inv s (l ++ x :: r) fs)
    (hm : ByteMem.Within (x.off + 24) (headOff r s.tail - x.off - 24) s.mem m) :
    Inv { s with mem := m } (l ++ x :: r) fs := by
  refine h.congr fun o ho => hm.agreeOn ?_
  have hgap := h.lists.blocks.around.2.1
  have hcases := h.lists.blocks.item_cases ho
  omega

/-- `rt_memheap_realloc` reads the links of the free block `y` again while it takes it out of both
lists. -/
theorem Lists.unlink_eq (h : Lists s (l ++ x :: y :: r) (f1 ++ y.off :: f2)) :
    let s1 := removeFree s y.off
    let s2 := s1.setPrev (s1.next y.off) (s1.prev y.off)
    s2.setNext (s2.prev y.off) (s2.next y.off) =
      ((removeFree s y.off).setPrev (headOff r s.tail) x.off).setNext x.off (headOff r s.tail) := by
  have hcons : l ++ x :: y :: r = (l ++ [x]) ++ y :: r := append_cons ..
  have hgapy := (hcons ▸ h.blocks : Blocks s ((l ++ [x]) ++ y :: r)).around.2.1
  have hview : (removeFree s y.off).view y.off = ⟨headOff r s.tail, x.off, y.tag⟩ := by
    have hyc : Blocks (removeFree s y.off) ((l ++ [x]) ++ y :: r) := hcons ▸ h.remove.blocks
    rw [hyc.view_eq, lastOff_append, lastOff_cons, lastOff_nil]
    rfl
  have hkeep : ((removeFree s y.off).setPrev (headOff r s.tail) x.off).view y.off =
      ⟨headOff r s.tail, x.off, y.tag⟩ := (Heap.view_setPrev_of_ne (.inl hgapy)).trans hview
  dsimp only
  rw [Heap.next_eq_view, Heap.prev_eq_view, hview, Heap.next_eq_view, Heap.prev_eq_view, hkeep]

theorem Lists.unlink (h : Lists s (l ++ x :: y :: r) (f1 ++ y.off :: f2)) :
    let s1 := removeFree s y.off
    let s2 := s1.setPrev (s1.next y.off) (s1.prev y.off)
    let s3 := s2.setNext (s2.prev y.off) (s2.next y.off)
    Lists s3 (l ++ x :: r) (f1 ++ f2) ∧ SameFrame s s3 ∧ s3.availableSize = s.availableSize := by
  have hnot : y.off ∉ f1 ++ f2 := by
    have hnodup := (nodup_cons.mp h.free.nodup).2
    rw [nodup_middle] at hnodup
    exact (nodup_cons.mp hnodup).1
  have heq := h.unlink_eq
  dsimp only at heq ⊢
  rw [heq]
  exact ⟨h.remove.merge h.remove.relinked_join hnot, ⟨rfl, rfl, rfl, rfl, rfl⟩, rfl⟩

theorem Inv.grow (h : Inv s (l ++ x :: y :: r) fs) (hx : ¬ IsFree x.tag) (hy : IsFree y.tag)
    (hlt : y.off - x.off - 24 < size) (hfit : x.off + 24 + size + 24 ≤ headOff r s.tail) :
    SameFrame s (growBlock s x.off y.off (y.off - x.off - 24) size) ∧
      ∃ fs', Inv (growBlock s x.off y.off (y.off - x.off - 24) size)
        (l ++ x :: ⟨x.off + 24 + size, freeTag s.memheap⟩ :: r) fs' := by
  have hinv : Inv s ((l ++ [x]) ++ y :: r) fs := by simpa using h
  obtain ⟨f1, f2, rfl, hperm⟩ := hinv.exists_node hy
  obtain ⟨-, hgap, -, -⟩ := h.lists.blocks.around
  obtain ⟨-, hgapy, -, hle⟩ := hinv.lists.blocks.around
  have htail := h.lists.blocks.tail_lt
  rw [headOff_cons] at hgap
  unfold growBlock
  dsimp only
  rw [rtMemheapSize_eq, Nat.mod_eq_of_lt (by omega)]
  have hunlinked := (h.lists.setAvailable
    (sub32 s.availableSize (sub32 size (y.off - x.off - 24)))).countUsed.unlink
  dsimp only at hunlinked
  generalize Heap.setNext _ _ _ = s1 at hunlinked ⊢
  obtain ⟨hlists, hf1, havail1⟩ := hunlinked
  replace hf1 : SameFrame s s1 :=
    ⟨hf1.memheap, hf1.startAddr, hf1.poolSize, hf1.blockList, hf1.freeList⟩
  -- a new block is built in what it leaves
  obtain ⟨hcut, hf2⟩ := hlists.newBlock (n := x.off + 24 + size) (by omega)
    (by rw [hf1.tail]; exact hfit)
  have hnot : x.off + 24 + size ∉ f1 ++ f2 := by
    intro hmem
    have hcases := hlists.node_cases (mem_cons_of_mem _ hmem)
    rw [hf1.tail] at hcases
    omega
  rw [hf1.memheap] at hcut
  have hinserted := hcut.insert (x := ⟨x.off + 24 + size, freeTag s.memheap⟩) (by simp) hnot
  have hf := (hf1.trans hf2).trans (.insertFree _ (x.off + 24 + size))
  refine ⟨hf, _, hinserted, ?_, ?_, ?_⟩
  · rw [freeOffs_append, freeOffs_used hx, freeOffs_free (isFree_freeTag _)]
    rw [freeOffs_append, freeOffs_used hx] at hperm
    change (f1 ++ f2).Perm (freeOffs l ++ [] ++ freeOffs r) at hperm
    rw [append_nil] at hperm
    exact (hperm.cons _).trans perm_middle.symm
  · obtain ⟨hl, hxyr, -⟩ := isChain_append.mp h.coalesced
    obtain ⟨hhead, hr⟩ := isChain_cons.mp (isChain_cons.mp hxyr).2
    refine notBothFree_append_cons hx hl (isChain_cons.mpr ⟨fun z hz => .inr ?_, hr⟩)
    exact (hhead z hz).resolve_left (not_not.mpr hy)
  · have htotal := h.lists.freeTotal_lt
    have havail := h.available
    rw [← havail] at htotal
    rw [freeTotal_used hx, freeTotal_cons_free hy] at havail
    rw [hf.tail, freeTotal_used hx, freeTotal_cons_free (isFree_freeTag _)]
    change s1.availableSize = _
    change s1.availableSize = sub32 s.availableSize (sub32 size (y.off - x.off - 24)) at havail1
    rw [havail1, sub32_of_le (a := size) (by omega) (by omega), sub32_of_le (by omega) htotal]
    dsimp only
    omega

/-- The block behind a block that has just been cut off is merged into it. What it counted for in
`available_size` is taken out. -/
theorem Loose.mergeSplit (h : Loose s l x r fs true)
    (havail : s.availableSize = freeTotal x.off l + freeTotal s.tail r) :
    SameFrame s (mergeSplit s x.off) ∧ (mergeSplit s x.off).availableSize =
        freeTotal x.off l + freeTotal s.tail (dropFree IsFree r) ∧
      ∃ fs', Loose (mergeSplit s x.off) l x (dropFree IsFree r) fs' true := by
  unfold Memheap.mergeSplit
  rw [h.lists.blocks.next_eq]
  rcases h.lists.blocks.next_cases with ⟨hr, hdrop⟩ | ⟨hr, y, r, rfl, hy⟩
  · rw [if_pos hr, hdrop]
    exact ⟨.refl s, havail, fs, h⟩
  · have hyc : Blocks s ((l ++ [x]) ++ y :: r) := by simpa using h.lists.blocks
    obtain ⟨hf, fs', hjoined⟩ := (h.setAvailable
      (sub32 s.availableSize (s.memitemSize y.off))).joinNext hy
    rw [if_neg hr, dropFree_of_pos hy]
    refine ⟨(SameFrame.setAvailable s _).trans hf, ?_, fs', hjoined⟩
    have hlt := h.lists.freeTotal_lt
    rw [freeTotal_free h.free] at hlt
    rw [freeTotal_cons_free hy] at hlt havail
    change sub32 s.availableSize (s.memitemSize y.off) = _
    rw [hyc.memitemSize_eq, sub32_of_le]
    omega

theorem freeTotal_concat_used (hx : ¬ IsFree x.tag) :
    freeTotal n (l ++ [x]) = freeTotal x.off l := by
  rw [freeTotal_used hx]
  rfl

/-- The end of a used block is cut off: a free block that is neither in the free list nor counted
in `available_size`. -/
theorem Inv.cutOff (h : Inv s (l ++ x :: r) fs) (hx : ¬ IsFree x.tag)
    (hfit : x.off + 24 + size + 24 ≤ headOff r s.tail) :
    Loose (newBlock s x.off (x.off + 24 + size)) (l ++ [x])
        ⟨x.off + 24 + size, freeTag s.memheap⟩ r fs true ∧
      SameFrame s (newBlock s x.off (x.off + 24 + size)) ∧
      s.availableSize = freeTotal (x.off + 24 + size) (l ++ [x]) + freeTotal s.tail r := by
  obtain ⟨hcut, hf⟩ := h.lists.newBlock (by omega) hfit
  have hnot : x.off + 24 + size ∉ fs := by
    intro hmem
    have hcases := h.lists.node_cases (mem_cons_of_mem _ hmem)
    omega
  refine ⟨⟨by simpa using hcut, isFree_freeTag _, fun _ => hnot, ?_⟩, hf, ?_⟩
  · have hperm := h.perm
    rw [freeOffs_append, freeOffs_used hx] at hperm
    rw [if_pos rfl, ← append_cons, freeOffs_append, freeOffs_used hx,
      freeOffs_free (isFree_freeTag _)]
    exact (hperm.cons _).trans perm_middle.symm
  · rw [h.available, freeTotal_used hx, freeTotal_concat_used hx]

theorem Inv.shrink (h : Inv s (l ++ x :: r) fs) (hx : ¬ IsFree x.tag) (size : Nat)
    (hfit : x.off + 24 + size + 24 ≤ headOff r s.tail) :
    SameFrame s (shrinkBlock s x.off size) ∧ ∃ fs', Inv (shrinkBlock s x.off size)
        (l ++ x :: ⟨x.off + 24 + size, freeTag s.memheap⟩ :: dropFree IsFree r) fs' := by
  have hn : x.off + size + 24 = x.off + 24 + size := by omega
  obtain ⟨hloose, hf1, havail⟩ := h.cutOff hx hfit
  unfold shrinkBlock
  dsimp only
  rw [rtMemheapSize_eq, hn]
  have hfront := freeTotal_concat_used (n := x.off + 24 + size) (l := l) hx
  have hsplit := hloose.mergeSplit havail
  generalize Memheap.mergeSplit (newBlock s x.off (x.off + 24 + size)) (x.off + 24 + size) = s2
    at hsplit ⊢
  obtain ⟨hf2, havail2, fs', hmerged⟩ := hsplit
  obtain ⟨hinserted, hperm⟩ := hmerged.insert
  have hf := (hf1.trans hf2).trans (.insertFree _ (x.off + 24 + size))
  have hlt := hinserted.freeTotal_lt
  rw [hf.tail, freeTotal_free (isFree_freeTag _), hfront] at hlt
  rw [hf1.tail, hfront] at havail2
  rw [hinserted.blocks.memitemSize_eq, hf.tail]
  rw [← append_cons] at hinserted hperm
  refine ⟨hf.trans (.setAvailable _ _), _, hinserted.setAvailable _, hperm, ?_, ?_⟩
  · obtain ⟨hl, hxr, -⟩ := isChain_append.mp h.coalesced
    obtain ⟨hdrop, hhead⟩ := notBothFree_dropFree (isChain_cons.mp hxr).2
    exact notBothFree_append_cons hx hl (isChain_cons.mpr ⟨fun z hz => .inr (hhead z hz), hdrop⟩)
  · have hsame : (insertFree s2 (x.off + 24 + size)).availableSize = s2.availableSize := rfl
    rw [Heap.setAvailable_availableSize, (hf.trans (SameFrame.setAvailable _ _)).tail, hsame,
      havail2, freeTotal_used hx, freeTotal_cons_free (isFree_freeTag _)]
    rw [Nat.mod_eq_of_lt (by omega)]
    omega

theorem roundSize_eq (req : Nat) :
    roundSize req = 12 ∨ (roundSize req = rtAlign req 8 ∧ 16 ≤ roundSize req) := by
  have hdvd := dvd_rtAlign req
  unfold roundSize rtMemheapMinialloc rtAlignSize
  dsimp only
  split
  · exact .inl rfl
  · exact .inr ⟨rfl, by omega⟩

theorem roundSize_add_lt {size : Nat} (h : size < 2 ^ 31) : roundSize size + 12 < 2 ^ 32 := by
  have heq := rtAlign_eight size
  rcases roundSize_eq size with hround | ⟨hround, -⟩ <;> omega

/-- `rt_memheap_realloc` hands its rounded size to `rt_memheap_alloc`, which rounds it again. -/
theorem le_roundSize (h : size + 7 < 2 ^ 32) : size ≤ roundSize size := by
  have hle := le_rtAlign h
  unfold roundSize rtAlignSize
  dsimp only
  split <;> omega

/-- The ways `rt_memheap_realloc` may go with a used block `x` in front of the blocks `r` when it is
asked for `size` bytes, and what it returns: the block is left as it is, loses its end, grows into
the free block behind it, or is moved. -/
inductive Way (s : Heap) (x : Blk) (r : List Blk) (size : Nat) : Option (Nat × Heap) → Prop
  | keep (hroom : size ≤ headOff r s.tail - x.off - 24) : Way s x r size (some (x.off + 24, s))
  | shrink (hroom : size + 36 < headOff r s.tail - x.off - 24) :
      Way s x r size (some (x.off + 24, shrinkBlock s x.off size))
  | grow {y : Blk} {r' : List Blk} (hr : r = y :: r') (hy : IsFree y.tag)
      (hmore : y.off - x.off - 24 < size)
      (hroom : size + 12 < y.off - x.off - 24 + (headOff r' s.tail - y.off - 24)) :
      Way s x r size (some (x.off + 24, growBlock s x.off y.off (y.off - x.off - 24) size))
  | move (hmore : headOff r s.tail - x.off - 24 < size)
      (hfull : ∀ y r', r = y :: r' → IsFree y.tag →
        y.off - x.off - 24 + (headOff r' s.tail - y.off - 24) ≤ size + 12) :
      Way s x r size (moveBlock s (x.off + 24) (headOff r s.tail - x.off - 24) size)

theorem rtMemheapRealloc_way (h : Inv s (l ++ x :: r) fs) (hreq : req ≠ 0)
    (hlt : roundSize req + 12 < 2 ^ 32) :
    Way s x r (roundSize req) (rtMemheapRealloc s (x.off + 24) req) := by
  unfold rtMemheapRealloc
  rw [if_neg hreq]
  dsimp only
  rw [if_neg (show ¬ x.off + 24 = rtNull from Nat.succ_ne_zero _), rtMemheapSize_eq,
    Nat.add_sub_cancel, h.lists.blocks.memitemSize_eq, h.lists.blocks.next_eq, rtMemheapMinialloc]
  by_cases hmore : headOff r s.tail - x.off - 24 < roundSize req
  · rw [if_pos hmore]
    rcases h.lists.blocks.next_cases with ⟨hr, hdrop⟩ | ⟨hr, y, r, rfl, hy⟩
    · rw [if_neg (fun hcond => hcond.1 hr)]
      refine .move hmore fun y r' hcons hy => ?_
      -- a free block behind would be merged
      rw [hcons, dropFree_of_pos hy] at hdrop
      exact absurd hdrop.symm (cons_ne_self y r')
    · have hyc : Blocks s ((l ++ [x]) ++ y :: r) := by simpa using h.lists.blocks
      obtain ⟨-, hgap, -, -⟩ := h.lists.blocks.around
      obtain ⟨-, hgapy, -, hley⟩ := hyc.around
      have htail := hyc.tail_lt
      rw [headOff_cons] at hgap hmore
      have hsize : (s.memitemSize y.off + (y.off - x.off - 24)) % 2 ^ 32 =
          headOff r s.tail - y.off - 24 + (y.off - x.off - 24) := by
        rw [hyc.memitemSize_eq]
        exact Nat.mod_eq_of_lt (by omega)
      rw [headOff_cons, hsize, Nat.mod_eq_of_lt hlt]
      by_cases hfit : roundSize req + 12 < headOff r s.tail - y.off - 24 + (y.off - x.off - 24)
      · rw [if_pos ⟨hr, hfit⟩]
        exact .grow rfl hy hmore (by omega)
      · rw [if_neg fun hcond => hfit hcond.2]
        refine .move hmore fun z r' hcons _ => ?_
        obtain ⟨rfl, rfl⟩ := List.cons.inj hcons
        omega
  · rw [if_neg hmore]
    by_cases hkeep : headOff r s.tail - x.off - 24 ≤ roundSize req + 24 + 12
    · rw [if_pos hkeep]
      exact .keep (by omega)
    · rw [if_neg hkeep]
      exact .shrink (by omega)

end RtThread.Memheap
