import RtThread.Mem.Layout

/-!
# `plug_holes` and `rt_free`

`plugged l x r` is the chain after `plug_holes` on the block `x` between `l` and `r`, and
`plugLfree` the offset `lfree` then points at. Both are functions of the abstract chain, so that
what `plug_holes` does to the invariants is decided by list lemmas.
-/

namespace RtThread.Mem
open BlockChain
open Heap
open List
variable {s s' : Heap} {bs l r : List Blk} {x y w : Blk} {lf : Nat}

theorem SameFrame.refl (s : Heap) : SameFrame s s := ⟨rfl, rfl, rfl⟩

theorem SameFrame.trans {s'' : Heap} (h : SameFrame s s') (h' : SameFrame s' s'') :
    SameFrame s s'' :=
  ⟨h'.heapPtr.trans h.heapPtr, h'.heapEnd.trans h.heapEnd, h'.memSize.trans h.memSize⟩

/-- The blocks behind `x`, without an unused first one. -/
abbrev joinRight : List Blk → List Blk := dropFree fun t => t.used = 0

/-- The last block of `l` is unused. -/
abbrev lastFree : List Blk → Prop := LastFree fun t => t.used = 0

/-- The chain `l ++ x :: r` after `plug_holes` on `x`. -/
abbrev plugged : List Blk → Blk → List Blk → List Blk := plug fun t => t.used = 0

theorem joinRight_of_unused (hy : y.tag.used = 0) : joinRight (y :: r) = r := if_pos hy

theorem plugged_coalesced (hl : l.IsChain Coalesced) (hr : r.IsChain Coalesced) :
    (plugged l x r).IsChain Coalesced :=
  notBothFree_plug (F := fun t : Tag => t.used = 0) hl hr

/-- Where `lfree` points after the forward half of `plug_holes`. -/
def forwardLfree (x : Blk) (lf : Nat) : List Blk → Nat
  | [] => lf
  | y :: _ => if y.tag.used = 0 ∧ lf = y.off then x.off else lf

/-- Where `lfree` points after `plug_holes`, if it pointed at offset `lf`. -/
def plugLfree (l : List Blk) (x : Blk) (r : List Blk) (lf : Nat) : Nat :=
  if lastFree l ∧ forwardLfree x lf r = x.off then lastOff 0 l else forwardLfree x lf r

/-- `x->next = n; (&heap_ptr[n])->prev = x;` where `n` is behind the neighbour of `x`. -/
theorem Chain.relink {n : Nat} (h : Chain s (l ++ x :: y :: r)) (hn : headOff r s.endOff = n) :
    Chain ((s.setNext (s.heapPtr + x.off) n).setPrev (s.heapPtr + n) x.off) (l ++ x :: r) := by
  obtain ⟨-, hgap, hr, hle⟩ := h.around
  obtain ⟨-, hgapy, -, hley⟩ := (show Chain s ((l ++ [x]) ++ y :: r) by simpa using h).around
  have hlt := h.endOff_lt
  simp only [headOff_cons] at hgap
  refine h.mergeBlocks ⟨rfl, rfl, rfl⟩ hn ?_ ?_ fun o ho => ?_ <;>
    simp only [Heap.view, setPrev_heapPtr, setNext_heapPtr]
  · simp (disch := omega) [headerAt_setNext_same]
  · simp (disch := omega) [headerAt_setPrev_same]
  · simp (disch := omega)

theorem mergeInto_spec (h : Chain s (l ++ x :: y :: r)) :
    Chain (mergeInto s (s.heapPtr + x.off) (s.heapPtr + y.off)) (l ++ x :: r) ∧
      SameFrame s (mergeInto s (s.heapPtr + x.off) (s.heapPtr + y.off)) ∧
      (mergeInto s (s.heapPtr + x.off) (s.heapPtr + y.off)).lfree =
        if s.lfree = s.heapPtr + y.off then s.heapPtr + x.off else s.lfree := by
  have hyc : Chain s ((l ++ [x]) ++ y :: r) := by simpa using h
  have hgap := h.around.2.1
  simp only [headOff_cons] at hgap
  -- the state after the first statement, and the two reads of `b->next` behind it
  obtain ⟨s1, hs1⟩ : ∃ s1, s1 = if s.lfree = s.heapPtr + y.off then
      { s with lfree := s.heapPtr + x.off } else s := ⟨_, rfl⟩
  have hview1 : s1.view = s.view := by rw [hs1]; split <;> rfl
  have hframe1 : SameFrame s s1 := by rw [hs1]; split <;> exact ⟨rfl, rfl, rfl⟩
  have hchain1 : Chain s1 (l ++ x :: y :: r) :=
    h.transfer hframe1 (fun _ _ => by rw [hview1]) (by rw [hview1])
  have hnext : s1.next (s1.heapPtr + y.off) = headOff r s1.endOff := by
    rw [next_eq_view, hview1, hyc.view_eq, hframe1.endOff]
  have hnext' : (s1.setNext (s1.heapPtr + x.off) (headOff r s1.endOff)).next
      (s1.heapPtr + y.off) = headOff r s1.endOff := by
    have hne := headerAt_setNext_of_ne (s := s1) (a := s1.heapPtr + x.off)
      (b := s1.heapPtr + y.off) (v := headOff r s1.endOff) (by omega)
    exact (congrArg Header.next hne).trans hnext
  have hdef : mergeInto s (s.heapPtr + x.off) (s.heapPtr + y.off) =
      (s1.setNext (s1.heapPtr + x.off) (headOff r s1.endOff)).setPrev
        (s1.heapPtr + headOff r s1.endOff) x.off := by
    simp only [mergeInto, ← hs1]
    simp only [← hframe1.heapPtr, hnext, setNext_heapPtr, hnext', Nat.add_sub_cancel_left]
  rw [hdef]
  refine ⟨hchain1.relink rfl, hframe1.trans ⟨rfl, rfl, rfl⟩, ?_⟩
  simp only [setPrev_lfree, setNext_lfree, hs1]
  split <;> rfl

theorem plugForward_free (h : Chain s (l ++ x :: y :: r)) (hy : y.tag.used = 0) :
    plugForward s (s.heapPtr + x.off) = mergeInto s (s.heapPtr + x.off) (s.heapPtr + y.off) := by
  have hyc : Chain s ((l ++ [x]) ++ y :: r) := by simpa using h
  have hgap := h.around.2.1
  have hgapy := hyc.around.2
  have hend := h.frame.heapEnd
  simp only [headOff_cons] at hgap
  have hnext : s.next (s.heapPtr + x.off) = y.off := by rw [next_eq_view, h.view_eq]; rfl
  have hused : s.used (s.heapPtr + y.off) = 0 := by
    rw [used_eq_view, hyc.view_eq]; exact hy
  simp only [plugForward, hnext]
  exact if_pos ⟨by omega, hused, by omega⟩

theorem plugForward_id (h : Chain s (l ++ x :: r)) (hr : joinRight r = r) :
    plugForward s (s.heapPtr + x.off) = s := by
  have hnext : s.next (s.heapPtr + x.off) = headOff r s.endOff := by
    rw [next_eq_view, h.view_eq]
  simp only [plugForward, hnext]
  apply if_neg
  rintro ⟨-, hused, hend⟩
  cases r with
  | nil => exact hend h.frame.heapEnd.symm
  | cons y r =>
    have hyc : Chain s ((l ++ [x]) ++ y :: r) := by simpa using h
    rw [headOff_cons, used_eq_view, hyc.view_eq] at hused
    rw [joinRight_of_unused hused] at hr
    have := congrArg List.length hr
    simp at this

theorem plugBackward_free (h : Chain s (l ++ w :: x :: r)) (hw : w.tag.used = 0) :
    plugBackward s (s.heapPtr + x.off) = mergeInto s (s.heapPtr + w.off) (s.heapPtr + x.off) := by
  have hxc : Chain s ((l ++ [w]) ++ x :: r) := by simpa using h
  have hgap := h.around.2.1
  simp only [headOff_cons] at hgap
  have hprev : s.prev (s.heapPtr + x.off) = w.off := by
    rw [prev_eq_view, hxc.view_eq]; simp
  have hused : s.used (s.heapPtr + w.off) = 0 := by rw [used_eq_view, h.view_eq]; exact hw
  simp only [plugBackward, hprev]
  exact if_pos ⟨by omega, hused⟩

theorem plugBackward_id (h : Chain s (l ++ x :: r)) (hl : ¬ lastFree l) :
    plugBackward s (s.heapPtr + x.off) = s := by
  have hprev : s.prev (s.heapPtr + x.off) = lastOff 0 l := by
    rw [prev_eq_view, h.view_eq]
  simp only [plugBackward, hprev]
  apply if_neg
  rintro ⟨hne, hused⟩
  rcases eq_nil_or_concat l with rfl | ⟨l', w, rfl⟩
  · have hzero := h.head
    simp only [nil_append, headOff_cons] at hzero
    exact hne (by simp [hzero])
  · have hwc : Chain s (l' ++ w :: x :: r) := by simpa using h
    rw [concat_eq_append, lastOff_append, lastOff_cons, lastOff_nil, used_eq_view,
      hwc.view_eq] at hused
    exact hl ⟨w, by simp, hused⟩

theorem plugHoles_spec (h : Chain s (l ++ x :: r)) (hlf : s.lfree = s.heapPtr + lf) :
    Chain (plugHoles s (s.heapPtr + x.off)) (plugged l x r) ∧
      SameFrame s (plugHoles s (s.heapPtr + x.off)) ∧
      (plugHoles s (s.heapPtr + x.off)).lfree = s.heapPtr + plugLfree l x r lf := by
  -- the forward half
  obtain ⟨s1, hs1, hc1, hf1, hl1⟩ : ∃ s1, s1 = plugForward s (s.heapPtr + x.off) ∧
      Chain s1 (l ++ x :: joinRight r) ∧ SameFrame s s1 ∧
      s1.lfree = s.heapPtr + forwardLfree x lf r := by
    refine ⟨_, rfl, ?_⟩
    cases r with
    | nil =>
      rw [plugForward_id h rfl]
      exact ⟨h, .refl s, hlf⟩
    | cons y r =>
      by_cases hy : y.tag.used = 0
      · obtain ⟨hc, hf, hl⟩ := mergeInto_spec h
        rw [plugForward_free h hy, joinRight_of_unused hy, forwardLfree]
        refine ⟨hc, hf, ?_⟩
        rw [hl, hlf]
        by_cases heq : lf = y.off
        · rw [if_pos (by omega), if_pos ⟨hy, heq⟩]
        · rw [if_neg (by omega), if_neg (by tauto)]
      · have hid : joinRight (y :: r) = y :: r := if_neg hy
        rw [plugForward_id h hid, hid, forwardLfree, if_neg (by tauto)]
        exact ⟨h, .refl s, hlf⟩
  -- the backward half
  have hpt : s.heapPtr + x.off = s1.heapPtr + x.off := by rw [hf1.heapPtr]
  rw [plugHoles, ← hs1, plugLfree, plugged, plug, hpt]
  by_cases hlast : lastFree l
  · obtain ⟨w, hw, hfree⟩ := hlast
    obtain ⟨l', rfl⟩ : ∃ l', l = l' ++ [w] := by
      rcases eq_nil_or_concat l with rfl | ⟨l', w', rfl⟩
      · simp at hw
      · refine ⟨l', ?_⟩
        simp only [concat_eq_append, List.getLast?_concat, Option.mem_some_iff] at hw
        rw [concat_eq_append, hw]
    have hlast : lastFree (l' ++ [w]) := ⟨w, hw, hfree⟩
    have hc1' : Chain s1 (l' ++ w :: x :: joinRight r) := by simpa using hc1
    obtain ⟨hc, hf, hl⟩ := mergeInto_spec hc1'
    rw [plugBackward_free hc1' hfree, if_pos hlast]
    refine ⟨by simpa using hc, hf1.trans hf, ?_⟩
    rw [hl, hl1, hf1.heapPtr]
    by_cases heq : forwardLfree x lf r = x.off
    · rw [if_pos (by omega), if_pos ⟨hlast, heq⟩]; simp
    · rw [if_neg (by omega), if_neg (by tauto)]
  · rw [plugBackward_id hc1 hlast, if_neg hlast, if_neg (by tauto)]
    exact ⟨hc1, hf1, hl1⟩

theorem lastOff_mem (h : l ≠ []) (p : Nat) : ∃ z ∈ l, z.off = lastOff p l := by
  obtain ⟨l', w, rfl⟩ := (eq_nil_or_concat l).resolve_left h
  exact ⟨w, by simp, by simp⟩

theorem lastFree.ne_nil (h : lastFree l) : l ≠ [] := by
  rintro rfl
  simp [LastFree] at h

/-- `lfree` follows the block it points at when that block is merged away. -/
theorem plugLfree_onChain {e : Nat} (h : OnChain (l ++ x :: r) e lf) :
    OnChain (plugged l x r) e (plugLfree l x r lf) := by
  have hforward : OnChain (l ++ x :: joinRight r) e (forwardLfree x lf r) := by
    cases r with
    | nil => exact h
    | cons y r =>
      by_cases hy : y.tag.used = 0 ∧ lf = y.off
      · rw [forwardLfree, if_pos hy]
        exact .inr ⟨x, by simp, rfl⟩
      · rw [forwardLfree, if_neg hy]
        refine h.imp_right ?_
        rintro ⟨z, hz, hoff⟩
        refine ⟨z, ?_, hoff⟩
        by_cases hused : y.tag.used = 0
        · have hne : z ≠ y := by rintro rfl; exact hy ⟨hused, hoff.symm⟩
          simpa [dropFree, hused, hne] using hz
        · simpa [dropFree, hused] using hz
  by_cases hlast : lastFree l
  · rw [plugged, plug, if_pos hlast, plugLfree]
    by_cases heq : forwardLfree x lf r = x.off
    · obtain ⟨z, hz, hoff⟩ := lastOff_mem hlast.ne_nil 0
      rw [if_pos ⟨hlast, heq⟩]
      exact .inr ⟨z, by simp [hz], hoff⟩
    · rw [if_neg (by tauto)]
      refine hforward.imp_right ?_
      rintro ⟨z, hz, hoff⟩
      refine ⟨z, ?_, hoff⟩
      have hne : z ≠ x := by rintro rfl; exact heq hoff.symm
      simpa [hne] using hz
  · rw [plugged, plug, if_neg hlast, plugLfree, if_neg (by tauto)]
    exact hforward

theorem Chain.markFree (h : Chain s (l ++ x :: r)) :
    Chain ((s.setUsed (s.heapPtr + x.off) 0).setMagic (s.heapPtr + x.off) heapMagic)
      (l ++ ⟨x.off, freeTag⟩ :: r) :=
  (h.setUsed (by decide) fun hne => absurd rfl hne).setMagic

/-- `rt_free` on the pointer of a used block: the block becomes unused, its unused neighbours are
merged, and `lfree` goes down to it if it was above. -/
theorem rtFree_spec (h : Layout s (l ++ x :: r)) (hx : x.tag.used ≠ 0)
    (hlf : s.lfree = s.heapPtr + lf) :
    Layout (rtFree s (s.heapPtr + x.off + 16)) (plugged l ⟨x.off, freeTag⟩ r) ∧
      SameFrame s (rtFree s (s.heapPtr + x.off + 16)) ∧
      (rtFree s (s.heapPtr + x.off + 16)).lfree =
        s.heapPtr + plugLfree l ⟨x.off, freeTag⟩ r (min x.off lf) := by
  have hroom := (h.blocks x (by simp)).room hx
  have hend := h.frame.heapEnd
  obtain ⟨s1, hs1, hc1, hf1, hl1⟩ : ∃ s1 : Heap,
      rtFree s (s.heapPtr + x.off + 16) = plugHoles s1 (s1.heapPtr + x.off) ∧
        Chain s1 (l ++ ⟨x.off, freeTag⟩ :: r) ∧ SameFrame s s1 ∧
        s1.lfree = s1.heapPtr + min x.off lf := by
    have hin : ¬ (s.heapPtr + x.off + 16 < s.heapPtr ∨ s.heapEnd ≤ s.heapPtr + x.off + 16) := by
      omega
    simp only [rtFree, if_neg (payload_ne_null _), if_neg hin, sub_sizeofStructMem, setMagic_lfree,
      setUsed_lfree]
    by_cases hlt : s.heapPtr + x.off < s.lfree
    · simp only [if_pos hlt]
      refine ⟨_, rfl, h.toChain.markFree.transfer ⟨rfl, rfl, rfl⟩ (fun _ _ => rfl) rfl,
        ⟨rfl, rfl, rfl⟩, ?_⟩
      exact congrArg (s.heapPtr + ·) (Nat.min_eq_left (by omega)).symm
    · simp only [if_neg hlt]
      refine ⟨_, rfl, h.toChain.markFree.transfer ⟨rfl, rfl, rfl⟩ (fun _ _ => rfl) rfl,
        ⟨rfl, rfl, rfl⟩, ?_⟩
      exact hlf.trans (congrArg (s.heapPtr + ·) (Nat.min_eq_right (by omega)).symm)
  obtain ⟨hc, hf, hl⟩ := plugHoles_spec hc1 hl1
  rw [← hs1, hf1.heapPtr] at *
  have hparts := isChain_append.mp h.coalesced
  have hon : OnChain (l ++ ⟨x.off, freeTag⟩ :: r) s.endOff (min x.off lf) := by
    rcases Nat.le_total x.off lf with hle | hle
    · rw [Nat.min_eq_left hle]
      exact .inr ⟨⟨x.off, freeTag⟩, by simp, rfl⟩
    · rw [Nat.min_eq_right hle]
      obtain ⟨o, ho, hon⟩ := h.lfree
      obtain rfl : lf = o := by omega
      refine hon.imp_right fun ⟨z, hz, hoff⟩ => ?_
      rcases mem_append.mp hz with hz | hz
      · exact ⟨z, by simp [hz], hoff⟩
      · rcases mem_cons.mp hz with rfl | hz
        · exact ⟨⟨z.off, freeTag⟩, by simp, hoff⟩
        · exact ⟨z, by simp [hz], hoff⟩
  refine ⟨⟨hc, plugged_coalesced hparts.1 (isChain_cons.mp hparts.2.1).2, ?_⟩, hf1.trans hf, hl⟩
  refine ⟨_, by rw [hf.heapPtr, hf1.heapPtr]; exact hl, ?_⟩
  rw [hf.endOff, hf1.endOff]
  exact plugLfree_onChain hon

end RtThread.Mem
