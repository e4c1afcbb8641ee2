import RtThread.Memheap.Calls

/-!
# `rt_memheap_free` and `rt_memheap_realloc`

A block that becomes free is merged with its free neighbours: with the one in front, whose place in
the free list it then shares, and with the one behind, which leaves the free list.
-/

namespace RtThread.Memheap
open Memheap
open BlockChain
open List
variable {s s' : Heap} {bs l r : List Blk} {x y w : Blk} {fs f1 f2 : List Nat}
  {n a o e k size : Nat} {b : Bool}

/-- `RT_MEMHEAP_IS_USED(header_ptr->next)` is the test whether there is a block to merge with. -/
theorem Blocks.next_cases (h : Blocks s (l ++ x :: r)) :
    (s.isUsed (headOff r s.tail) = true ∧ dropFree IsFree r = r) ∨
      (¬ s.isUsed (headOff r s.tail) = true ∧ ∃ y r', r = y :: r' ∧ IsFree y.tag) := by
  have hused := h.isUsed_next
  by_cases hr : s.isUsed (headOff r s.tail) = true
  · exact .inl ⟨hr, dropFree_of_head fun y hy hfree => hfree (hused.mp hr y hy)⟩
  · refine .inr ⟨hr, ?_⟩
    cases r with
    | nil => exact absurd h.isUsed_tail hr
    | cons y r =>
      refine ⟨y, r, rfl, fun hy => hr (hused.mpr fun z hz => ?_)⟩
      cases hz
      exact hy

/-- The block `x` is free, and is not in the free list if `b` holds. Every other free block is. -/
structure Loose (s : Heap) (l : List Blk) (x : Blk) (r : List Blk) (fs : List Nat) (b : Bool) :
    Prop where
  lists : Lists s (l ++ x :: r) fs
  free : IsFree x.tag
  absent : b = true → x.off ∉ fs
  perm : (if b then x.off :: fs else fs).Perm (freeOffs (l ++ x :: r))

namespace Loose

theorem setAvailable (h : Loose s l x r fs b) (v : Nat) : Loose (s.setAvailable v) l x r fs b :=
  ⟨h.lists.setAvailable v, h.free, h.absent, h.perm⟩

theorem next_mem (h : Loose s l x (y :: r) fs b) (hy : IsFree y.tag) : y.off ∈ fs := by
  have hne : y.off ≠ x.off := by
    have hgap := h.lists.blocks.around.2.1
    rw [headOff_cons] at hgap
    omega
  have hmem := h.perm.mem_iff.mpr (mem_freeOffs.mpr ⟨y, by simp, hy, rfl⟩)
  cases b with
  | false => exact hmem
  | true => exact (mem_cons.mp hmem).resolve_left hne

theorem joinNext (h : Loose s l x (y :: r) fs b) (hy : IsFree y.tag) :
    SameFrame s (joinNext s x.off) ∧ ∃ fs', Loose (joinNext s x.off) l x r fs' b := by
  have hperm := h.perm
  rw [freeOffs_append, freeOffs_free h.free, freeOffs_free hy, append_cons] at hperm
  obtain ⟨f1, f2, rfl⟩ := append_of_mem (h.next_mem hy)
  obtain ⟨hjoined, hf⟩ := h.lists.joinNext
  refine ⟨hf, f1 ++ f2, hjoined, h.free, fun hb hmem => ?_, ?_⟩
  · exact h.absent hb (((sublist_cons_self _ f2).append_left f1).subset hmem)
  · rw [freeOffs_append, freeOffs_free h.free, append_cons]
    cases b with
    | false => exact perm_inv_core hperm
    | true => exact @perm_inv_core _ _ (x.off :: f1) _ _ _ hperm

theorem insert (h : Loose s l x r fs true) :
    Lists (insertFree s x.off) (l ++ x :: r) (x.off :: fs) ∧
      (x.off :: fs).Perm (freeOffs (l ++ x :: r)) :=
  ⟨h.lists.insert (by simp) (h.absent rfl), h.perm⟩

end Loose

/-- The heap in the middle of `rt_memheap_free`. -/
structure Pending (s : Heap) (l : List Blk) (x : Blk) (r : List Blk) (fs : List Nat) (b : Bool) :
    Prop extends Loose s l x r fs b where
  available : s.availableSize = freeTotal s.tail (l ++ x :: r)

theorem Inv.release (h : Inv s (l ++ x :: r) fs) (hx : ¬ IsFree x.tag) :
    let s1 := s.setMagic x.off (s.magic x.off &&& (2 ^ 32 - 1 - rtMemheapUsed))
    Pending (s1.setAvailable ((s1.availableSize + s1.memitemSize x.off) % 2 ^ 32)) l
      ⟨x.off, freeTag s.memheap⟩ r fs true := by
  have htag : x.tag = usedTag s.memheap := (h.lists.blocks.tags x (by simp)).resolve_left fun heq =>
    hx (heq ▸ isFree_freeTag _)
  have hmagic : s.magic x.off = (usedTag s.memheap).magic := by
    rw [Heap.magic_eq_view, h.lists.blocks.view_eq, htag]
  have hclear : (usedTag s.memheap).magic &&& (2 ^ 32 - 1 - rtMemheapUsed) =
      (freeTag s.memheap).magic :=
    show (rtMemheapMagic ||| rtMemheapUsed) &&& (2 ^ 32 - 1 - rtMemheapUsed) = rtMemheapMagic by
      decide
  have hmarked := h.lists.setMagic (.inl rfl)
  have havail := h.available
  have hlt := hmarked.freeTotal_lt
  rw [show (s.setMagic x.off (freeTag s.memheap).magic).tail = s.tail from rfl,
    freeTotal_free (isFree_freeTag _)] at hlt
  rw [freeTotal_used hx] at havail
  dsimp only at hlt ⊢
  rw [hmagic, hclear]
  refine ⟨⟨hmarked.setAvailable _, isFree_freeTag _, fun _ => h.not_mem (x := x) (by simp) hx, ?_⟩,
    ?_⟩
  · have hperm := h.perm
    rw [freeOffs_append, freeOffs_used hx] at hperm
    rw [if_pos rfl, freeOffs_append, freeOffs_free (isFree_freeTag _)]
    exact (hperm.cons _).trans perm_middle.symm
  · rw [hmarked.blocks.memitemSize_eq, freeTotal_free (isFree_freeTag _)]
    change (s.availableSize + (headOff r s.tail - x.off - 24)) % 2 ^ 32 = _
    rw [Nat.mod_eq_of_lt (by omega)]
    change _ = freeTotal x.off l + (headOff r s.tail - x.off - 24) + freeTotal s.tail r
    omega

/-- The merge with the previous block: the block that is free then is the last of the blocks
`plug` keeps up to there. -/
theorem Pending.mergePrev (h : Pending s l x r fs true) :
    ∃ s' l' w b, mergePrev s x.off = (s', w.off, b) ∧ SameFrame s s' ∧ Pending s' l' w r fs b ∧
      l' ++ [w] = if LastFree IsFree l then l else l ++ [x] := by
  have hused := h.lists.blocks.isUsed_prev
  unfold Memheap.mergePrev
  by_cases hl : s.isUsed (s.prev x.off) = true
  · have hlast : ¬ LastFree IsFree l := fun ⟨w, hw, hfree⟩ => hfree (hused.mp hl w hw)
    rw [if_pos hl, if_neg hlast]
    exact ⟨s, l, x, true, rfl, .refl s, h, rfl⟩
  · rw [if_neg hl]
    rcases eq_nil_or_concat l with rfl | ⟨l, w, rfl⟩
    · exact absurd (hused.mpr nofun) hl
    · have hw : IsFree w.tag := fun hw => hl (hused.mpr fun z hz => by
        rw [concat_eq_append, List.getLast?_concat] at hz
        cases hz
        exact hw)
      simp only [concat_eq_append] at h ⊢
      have hlast : LastFree IsFree (l ++ [w]) := ⟨w, by simp, hw⟩
      have hlists : Lists s (l ++ w :: x :: r) fs := by simpa using h.lists
      obtain ⟨-, hgapx, -, hle⟩ := h.lists.blocks.around
      obtain ⟨-, hgap, -, -⟩ := hlists.blocks.around
      have htail := h.lists.blocks.tail_lt
      simp only [headOff_cons] at hgap
      have hview := h.lists.blocks.view_eq
      have hkeep : ∀ v, ((s.setAvailable v).setNext w.off (headOff r s.tail)).view x.off =
          s.view x.off := fun v => Heap.view_setNext_of_ne (by omega)
      have hs := relinked_setNext_setPrev (s := s.setAvailable ((s.availableSize + rtMemheapSize) %
        2 ^ 32)) (a := w.off) (N := headOff r s.tail) (by omega) (by omega)
      have hmerged := (hlists.setAvailable _).merge hs (h.absent rfl)
      refine ⟨_, l, w, false, ?_, (SameFrame.setAvailable s _).trans hs.frame,
        ⟨⟨hmerged, hw, nofun, ?_⟩, ?_⟩, (if_pos hlast).symm⟩
      · have hprev : s.prev x.off = w.off := by
          rw [Heap.prev_eq_view, hview, lastOff_append, lastOff_cons, lastOff_nil]
        have hnext : s.next x.off = headOff r s.tail := h.lists.blocks.next_eq
        have hinner : ∀ v, (s.setAvailable v).prev x.off = s.prev x.off ∧
            (s.setAvailable v).next x.off = s.next x.off := fun _ => ⟨rfl, rfl⟩
        rw [(hinner _).1, (hinner _).2, hprev, hnext]
        simp only [Heap.next_eq_view, Heap.prev_eq_view, hkeep, hview, lastOff_append, lastOff_cons,
          lastOff_nil, Heap.view_setPrev_of_ne (.inl hgapx)]
      · have hperm := h.perm
        rw [freeOffs_append, freeOffs_free h.free] at hperm
        rw [if_neg Bool.false_ne_true, append_cons, freeOffs_append]
        exact @perm_inv_core _ _ [] _ _ _ hperm
      · have hlt := hmerged.freeTotal_lt
        have havail := h.available
        rw [freeTotal_free h.free, freeTotal_free hw] at havail
        rw [hs.frame.tail, freeTotal_free hw] at hlt ⊢
        change (s.availableSize + rtMemheapSize) % 2 ^ 32 =
          freeTotal w.off l + (headOff r s.tail - w.off - 24) + freeTotal s.tail r
        change freeTotal w.off l + (headOff r s.tail - w.off - 24) + freeTotal s.tail r < _ at hlt
        rw [headOff_nil, show freeTotal x.off ([] : List Blk) = 0 from rfl] at havail
        rw [rtMemheapSize_eq, Nat.mod_eq_of_lt (by omega)]
        omega

theorem Pending.mergeNext (h : Pending s l x r fs b) : SameFrame s (mergeNext s x.off) ∧
      ∃ fs', Pending (mergeNext s x.off) l x (dropFree IsFree r) fs' b := by
  unfold Memheap.mergeNext
  rw [h.lists.blocks.next_eq]
  rcases h.lists.blocks.next_cases with ⟨hr, hdrop⟩ | ⟨hr, y, r, rfl, hy⟩
  · rw [if_pos hr, hdrop]
    exact ⟨.refl s, fs, h⟩
  · rw [if_neg hr]
    have hloose := h.toLoose.setAvailable ((s.availableSize + rtMemheapSize) % 2 ^ 32)
    obtain ⟨hf, fs', hjoined⟩ := hloose.joinNext hy
    have hyc : Blocks s ((l ++ [x]) ++ y :: r) := by simpa using h.lists.blocks
    obtain ⟨-, hgap, -, hle⟩ := h.lists.blocks.around
    have hgapy := hyc.around.2.1
    rw [dropFree_of_pos hy]
    refine ⟨(SameFrame.setAvailable s _).trans hf, fs', hjoined, ?_⟩
    have hlt := hjoined.lists.freeTotal_lt
    have havail := h.available
    rw [freeTotal_free h.free, freeTotal_cons_free hy] at havail
    rw [hf.tail, freeTotal_free h.free] at hlt ⊢
    change (s.availableSize + rtMemheapSize) % 2 ^ 32 =
      freeTotal x.off l + (headOff r s.tail - x.off - 24) + freeTotal s.tail r
    change freeTotal x.off l + (headOff r s.tail - x.off - 24) + freeTotal s.tail r < _ at hlt
    simp only [headOff_cons] at havail hgap
    rw [rtMemheapSize_eq, Nat.mod_eq_of_lt (by omega)]
    omega

/-- `rt_memheap_free` finds the heap of a block, and takes its three steps there. -/
theorem rtMemheapFree_eq (h : Blocks s (l ++ x :: r)) : rtMemheapFree s (x.off + 24) =
      let s1 := s.setMagic x.off (s.magic x.off &&& (2 ^ 32 - 1 - rtMemheapUsed))
      let s2 := s1.setAvailable ((s1.availableSize + s1.memitemSize x.off) % 2 ^ 32)
      let merged := mergePrev s2 x.off
      let s3 := mergeNext merged.1 merged.2.1
      some (if merged.2.2 then insertFree s3 merged.2.1 else s3) := by
  have hpool : s.poolPtr x.off = s.memheap := by
    rw [Heap.poolPtr_eq_view, h.view_eq]
    rcases h.tags x (by simp) with htag | htag <;> rw [htag] <;> rfl
  unfold rtMemheapFree
  rw [if_neg (show ¬ x.off + 24 = rtNull from Nat.succ_ne_zero _), rtMemheapSize_eq,
    Nat.add_sub_cancel]
  rw [if_neg (not_not.mpr hpool)]

theorem rtMemheapFree_spec (h : Inv s (l ++ x :: r) fs) (hx : ¬ IsFree x.tag) :
    ∃ s' fs', rtMemheapFree s (x.off + 24) = some s' ∧ SameFrame s s' ∧
      Inv s' (plug IsFree l ⟨x.off, freeTag s.memheap⟩ r) fs' := by
  have hpending := h.release hx
  obtain ⟨s1, l', w, b, hmerge, hf1, hpending1, hl'⟩ := hpending.mergePrev
  obtain ⟨hf2, fs', hpending2⟩ := hpending1.mergeNext
  have hplug : plug IsFree l ⟨x.off, freeTag s.memheap⟩ r = l' ++ w :: dropFree IsFree r := by
    rw [show l' ++ w :: dropFree IsFree r = (l' ++ [w]) ++ dropFree IsFree r by simp, hl', plug]
    split <;> simp
  obtain ⟨hl, hxr, -⟩ := isChain_append.mp h.coalesced
  have hplugged := notBothFree_plug (x := ⟨x.off, freeTag s.memheap⟩) hl (isChain_cons.mp hxr).2
  rw [hplug] at hplugged ⊢
  have hf : SameFrame s (mergeNext s1 w.off) :=
    ((SameFrame.setMagic s _ _).trans (.setAvailable _ _)).trans (hf1.trans hf2)
  rw [rtMemheapFree_eq h.lists.blocks]
  dsimp only at hmerge ⊢
  rw [hmerge]
  cases b with
  | false =>
    exact ⟨_, fs', rfl, hf, hpending2.lists, hpending2.perm, hplugged, hpending2.available⟩
  | true =>
    obtain ⟨hinserted, hperm⟩ := hpending2.insert
    exact ⟨_, w.off :: fs', rfl, hf.trans (.insertFree _ _), hinserted, hperm, hplugged,
      hpending2.available⟩

end RtThread.Memheap
