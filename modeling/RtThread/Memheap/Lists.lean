import RtThread.Memheap.Blocks

/-!
# List operations of a memory heap

`Lists s bs fs` puts the two lists of a heap together: the nodes of the free list are blocks. Each
operation of the source on the lists has one rule.
-/

namespace RtThread.Memheap
open BlockChain
open Heap
open List
variable {s s' : Heap} {bs l r : List Blk} {x y : Blk} {fs f1 f2 : List Nat} {n a o v N : Nat}
  {t : Tag}

namespace FreeRing

theorem nodup (h : FreeRing s fs) : (s.freeHeader :: fs).Nodup :=
  h.apart.imp fun hab heq => by omega

theorem sep {b : Nat} (h : FreeRing s fs) (ha : a ∈ s.freeHeader :: fs)
    (hb : b ∈ s.freeHeader :: fs) : a = b ∨ a + 24 ≤ b ∨ b + 24 ≤ a := by
  by_cases heq : a = b
  · exact .inl heq
  · have hsymm : Std.Symm fun a b : Nat => a + 24 ≤ b ∨ b + 24 ≤ a := ⟨fun _ _ => Or.symm⟩
    exact .inr (h.apart.forall ha hb heq)

theorem congr (h : FreeRing s fs) (hf : SameFrame s s') (hfree : ∀ o ∈ s.freeHeader :: fs,
      s'.nextFree o = s.nextFree o ∧ s'.prevFree o = s.prevFree o) :
    FreeRing s' fs := by
  refine ⟨?_, by rw [hf.freeHeader]; exact h.apart⟩
  rw [hf.freeHeader]
  refine h.ring.congr (fun o ho => (hfree o ho).1) fun o ho => (hfree o ?_).2
  rcases mem_append.mp ho with ho | ho
  · exact mem_cons_of_mem _ ho
  · rw [mem_singleton.mp ho]
    exact mem_cons_self

theorem nextFree_mem (h : FreeRing s fs) (ha : a ∈ s.freeHeader :: fs) :
    s.nextFree a ∈ s.freeHeader :: fs := by
  have hback : ∀ {l : List Nat} {o : Nat}, o ∈ l ++ [s.freeHeader] → l ⊆ fs →
      o ∈ s.freeHeader :: fs := by
    intro l o ho hl
    rcases mem_append.mp ho with ho | ho
    · exact mem_cons_of_mem _ (hl ho)
    · rw [mem_singleton.mp ho]
      exact mem_cons_self
  rcases mem_cons.mp ha with rfl | ha
  · exact hback h.ring.next_mem (List.Subset.refl _)
  · obtain ⟨f1, f2, rfl⟩ := append_of_mem ha
    refine hback (DLinked.append.mp h.ring).2.next_mem ?_
    exact ((sublist_cons_self a f2).trans (sublist_append_right f1 _)).subset

section
variable (h : FreeRing s (f1 ++ a :: f2))
include h

theorem prevFree_mem : s.prevFree a ∈ s.freeHeader :: (f1 ++ a :: f2) := by
  obtain ⟨hleft, -⟩ := DLinked.append.mp h.ring
  exact ((sublist_append_left f1 (a :: f2)).cons_cons s.freeHeader).subset hleft.prev_mem

/-- The second statement of `removeFree` reads both links of the item again. -/
theorem removeFree_eq :
    removeFree s a = (s.setPrevFree (s.nextFree a) (s.prevFree a)).setNextFree (s.prevFree a)
      (s.nextFree a) := by
  have ha : a ∈ s.freeHeader :: (f1 ++ a :: f2) := by simp
  have hav := h.sep ha (h.nextFree_mem ha)
  have hprev : (s.setPrevFree (s.nextFree a) (s.prevFree a)).prevFree a = s.prevFree a := by
    rw [prevFree_setPrevFree prevFree_lt hav]
    split <;> rfl
  have hnext : (s.setPrevFree (s.nextFree a) (s.prevFree a)).nextFree a = s.nextFree a :=
    nextFree_setPrevFree hav
  simp only [removeFree, hprev, hnext]

theorem removeFree_links
    (ho : ∀ b ∈ s.freeHeader :: (f1 ++ a :: f2), o = b ∨ o + 24 ≤ b ∨ b + 24 ≤ o) :
    (removeFree s a).view o = s.view o ∧
      (removeFree s a).nextFree o = (if o = s.prevFree a then s.nextFree a else s.nextFree o) ∧
      (removeFree s a).prevFree o = (if o = s.nextFree a then s.prevFree a else s.prevFree o) := by
  have hou := ho _ h.prevFree_mem
  have hov := ho _ (h.nextFree_mem (show a ∈ s.freeHeader :: (f1 ++ a :: f2) by simp))
  rw [h.removeFree_eq]
  refine ⟨?_, ?_, ?_⟩
  · rw [view_setNextFree hou, view_setPrevFree hov]
  · rw [nextFree_setNextFree nextFree_lt hou, nextFree_setPrevFree hov]
  · rw [prevFree_setNextFree hou, prevFree_setPrevFree prevFree_lt hov]

theorem remove : FreeRing (removeFree s a) (f1 ++ f2) := by
  have hsub : (s.freeHeader :: (f1 ++ f2)).Sublist (s.freeHeader :: (f1 ++ a :: f2)) :=
    ((sublist_cons_self a f2).append_left f1).cons_cons _
  have hlinks := fun o (ho : o ∈ s.freeHeader :: (f1 ++ f2)) =>
    h.removeFree_links fun b hb => h.sep (hsub.subset ho) hb
  refine ⟨?_, h.apart.sublist hsub⟩
  exact h.ring.remove h.nodup (fun o ho => (hlinks o ho).2.1) fun o ho => (hlinks o ho).2.2

end

/-- `free_list->next_free` is read again after two stores into the item. -/
theorem insertFree_eq (hlist : s.freeList = s.freeHeader)
    (ha : a + 24 ≤ s.freeHeader ∨ s.freeHeader + 24 ≤ a) :
    insertFree s a = (((s.setNextFree a (s.nextFree s.freeHeader)).setPrevFree a
      s.freeHeader).setPrevFree (s.nextFree s.freeHeader) a).setNextFree s.freeHeader a := by
  have hread : ((s.setNextFree a (s.nextFree s.freeHeader)).setPrevFree a s.freeHeader).nextFree
      s.freeHeader = s.nextFree s.freeHeader := by
    rw [nextFree_setPrevFree (by omega),
      nextFree_setNextFree nextFree_lt (by omega), if_neg (by omega)]
  simp only [insertFree, hlist, setNextFree_freeList, setPrevFree_freeList, hread]

theorem insertFree_links (h : FreeRing s fs) (hlist : s.freeList = s.freeHeader)
    (hheader : s.freeHeader < 2 ^ 32) (hlt : a < 2 ^ 32)
    (ha : ∀ b ∈ s.freeHeader :: fs, a + 24 ≤ b ∨ b + 24 ≤ a)
    (hoa : o = a ∨ o + 24 ≤ a ∨ a + 24 ≤ o)
    (ho : ∀ b ∈ s.freeHeader :: fs, o = b ∨ o + 24 ≤ b ∨ b + 24 ≤ o) :
    (insertFree s a).view o = s.view o ∧ (insertFree s a).nextFree o = (if o = s.freeHeader then a
        else if o = a then s.nextFree s.freeHeader else s.nextFree o) ∧
      (insertFree s a).prevFree o = (if o = s.nextFree s.freeHeader then a
        else if o = a then s.freeHeader else s.prevFree o) := by
  have hoh := ho _ mem_cons_self
  have how := ho _ (h.nextFree_mem mem_cons_self)
  rw [insertFree_eq hlist (ha _ mem_cons_self)]
  refine ⟨?_, ?_, ?_⟩
  · rw [view_setNextFree hoh, view_setPrevFree how, view_setPrevFree hoa,
      view_setNextFree hoa]
  · rw [nextFree_setNextFree hlt hoh, nextFree_setPrevFree how,
      nextFree_setPrevFree hoa, nextFree_setNextFree nextFree_lt hoa]
  · rw [prevFree_setNextFree hoh, prevFree_setPrevFree hlt how,
      prevFree_setPrevFree hheader hoa, prevFree_setNextFree hoa]

theorem insert (h : FreeRing s fs) (hlist : s.freeList = s.freeHeader)
    (hheader : s.freeHeader < 2 ^ 32) (hlt : a < 2 ^ 32)
    (ha : ∀ b ∈ s.freeHeader :: fs, a + 24 ≤ b ∨ b + 24 ≤ a) :
    FreeRing (insertFree s a) (a :: fs) := by
  have hah := ha _ mem_cons_self
  have hnodes := fun o (ho : o ∈ s.freeHeader :: fs) =>
    h.insertFree_links hlist hheader hlt ha (.inr (ha o ho).symm) fun b hb => h.sep ho hb
  have hself := h.insertFree_links hlist hheader hlt ha (o := a) (.inl rfl)
    fun b hb => .inr (ha b hb)
  have hw := h.nextFree_mem mem_cons_self
  have haw := ha _ hw
  refine ⟨h.ring.insert h.nodup ?_ ?_ ?_ ?_ ?_, ?_⟩
  · rw [hself.2.1, if_neg (by omega), if_pos rfl]
  · rw [hself.2.2, if_neg (by omega), if_pos rfl]
  · exact (hnodes _ mem_cons_self).2.1.trans (if_pos rfl)
  · intro o ho
    have hoa := ha o (mem_cons_of_mem _ ho)
    have hoh : o ≠ s.freeHeader := by
      rintro rfl
      exact (nodup_cons.mp h.nodup).1 ho
    rw [(hnodes o (mem_cons_of_mem _ ho)).2.1, if_neg hoh, if_neg (by omega)]
  · intro o ho
    have hoa := ha o ho
    rw [(hnodes o ho).2.2]
    split
    · rfl
    · rw [if_neg (by omega)]
  · change (s.freeHeader :: a :: fs).Pairwise _
    obtain ⟨hhead, hfs⟩ := pairwise_cons.mp h.apart
    refine pairwise_cons.mpr ⟨fun b hb => ?_, pairwise_cons.mpr ⟨fun b hb =>
      ha b (mem_cons_of_mem _ hb), hfs⟩⟩
    rcases mem_cons.mp hb with rfl | hb
    · exact hah.symm
    · exact hhead b hb

end FreeRing

section
variable (hN : s.next a = N) (hlo : a + 24 ≤ n)
include hN hlo

/-- `header_ptr->next` is read after stores into the new item, which do not change it. -/
theorem newBlock_eq :
    newBlock s a n =
      (((((s.setMagic n rtMemheapMagic).setPoolPtr n s.memheap).setPrev n a).setNext n
      N).setPrev N n).setNext a n := by
  have hread : (((s.setMagic n rtMemheapMagic).setPoolPtr n s.memheap).setPrev n a).next a = N := by
    simp (disch := omega) [next_eq_view, ← hN]
  have hread' : ((((s.setMagic n rtMemheapMagic).setPoolPtr n s.memheap).setPrev n a).setNext n
      N).next a = N := by
    rw [next_eq_view, view_setNext_of_ne (by omega), ← next_eq_view, hread]
  simp only [newBlock, setMagic_memheap, hread, hread']

theorem newBlock_view (hhi : n + 24 ≤ N) (hk : s.memheap < 2 ^ 32) :
    (newBlock s a n).view a = { s.view a with next := n } ∧
      (newBlock s a n).view n = ⟨N, a, freeTag s.memheap⟩ ∧
      (newBlock s a n).view N = { s.view N with prev := n } ∧
      ∀ o, o + 24 ≤ a ∨ N + 24 ≤ o → (newBlock s a n).view o = s.view o := by
  have hlt : N < 2 ^ 32 := hN ▸ next_lt
  rw [newBlock_eq hN hlo]
  refine ⟨?_, ?_, ?_, fun o ho => ?_⟩
  · simp (disch := omega) [view_setNext]
  · simp (disch := omega) [view_setNext, view_setPrev, view_setPoolPtr, magic_eq_view]
    rw [view_setMagic (by decide)]
    rfl
  · simp (disch := omega) [view_setPrev]
  · simp (disch := omega)

theorem newBlock_free (hhi : n + 24 ≤ N) (ho : o + 24 ≤ a ∨ o = a ∨ o = N ∨ N + 24 ≤ o) :
    (newBlock s a n).nextFree o = s.nextFree o ∧ (newBlock s a n).prevFree o = s.prevFree o := by
  rw [newBlock_eq hN hlo]
  simp (disch := omega)

end

/-- `a->next = N; N->prev = a;` in one of the two orders. -/
structure Relinked (s s' : Heap) (a N : Nat) : Prop where
  frame : SameFrame s s'
  front : s'.view a = { s.view a with next := N }
  back : s'.view N = { s.view N with prev := a }
  rest : ∀ o, o + 24 ≤ a ∨ N + 24 ≤ o → s'.view o = s.view o
  free : ∀ o, (o + 24 ≤ a ∨ o = a ∨ a + 24 ≤ o) → (o + 24 ≤ N ∨ o = N ∨ N + 24 ≤ o) →
    s'.nextFree o = s.nextFree o ∧ s'.prevFree o = s.prevFree o

theorem relinked_setNext_setPrev (h : a + 24 ≤ N) (hN : N < 2 ^ 32) :
    Relinked s ((s.setNext a N).setPrev N a) a N where
  frame := ⟨rfl, rfl, rfl, rfl, rfl⟩
  front := by rw [view_setPrev_of_ne (by omega), view_setNext hN]
  back := by rw [view_setPrev (by omega), view_setNext_of_ne (by omega)]
  rest o ho := by simp (disch := omega)
  free o ha hN := by
    simp (disch := omega)

theorem relinked_setPrev_setNext (h : a + 24 ≤ N) (hN : N < 2 ^ 32) :
    Relinked s ((s.setPrev N a).setNext a N) a N where
  frame := ⟨rfl, rfl, rfl, rfl, rfl⟩
  front := by rw [view_setNext hN, view_setPrev_of_ne (by omega)]
  back := by rw [view_setNext_of_ne (by omega), view_setPrev (by omega)]
  rest o ho := by simp (disch := omega)
  free o ha hN := by
    simp (disch := omega)

/-- The two lists of a heap; the nodes of the free list are blocks. -/
structure Lists (s : Heap) (bs : List Blk) (fs : List Nat) : Prop where
  blocks : Blocks s bs
  free : FreeRing s fs
  nodes : ∀ o ∈ fs, ∃ x ∈ bs, x.off = o

namespace Lists

theorem node_cases (h : Lists s (l ++ x :: r) fs) (ho : o ∈ s.freeHeader :: fs) :
    o + 24 ≤ x.off ∨ o = x.off ∨ o = headOff r s.tail ∨ headOff r s.tail + 24 ≤ o := by
  rcases mem_cons.mp ho with rfl | ho
  · exact h.blocks.item_cases (.inl rfl)
  · exact h.blocks.item_cases (.inr (.inr (h.nodes o ho)))

theorem sep (h : Lists s bs fs) (ho : o = s.tail ∨ ∃ x ∈ bs, x.off = o)
    (ha : a ∈ s.freeHeader :: fs) : o = a ∨ o + 24 ≤ a ∨ a + 24 ≤ o := by
  rcases ho with rfl | ⟨x, hx, rfl⟩
  · rcases mem_cons.mp ha with rfl | ha
    · have hapart := h.blocks.frame.apart
      have hroom := h.blocks.frame.room
      have htail : s.tail = s.startAddr + s.poolSize - 24 := rfl
      omega
    · obtain ⟨z, hz, rfl⟩ := h.nodes a ha
      have := h.blocks.start_le hz
      omega
  · obtain ⟨l, r, rfl⟩ := append_of_mem hx
    have hgap := h.blocks.around.2.1
    have hnode := h.node_cases ha
    omega

theorem withSizes (h : Lists s bs fs) (hf : SameFrame s s') (hm : s'.mem = s.mem) :
    Lists s' bs fs := by
  refine ⟨h.blocks.withSizes hf hm, h.free.congr hf fun o _ => ?_, h.nodes⟩
  exact free_congr (by rw [hm]; exact fun _ _ _ => rfl)

theorem setAvailable (h : Lists s bs fs) (v : Nat) : Lists (s.setAvailable v) bs fs :=
  h.withSizes ⟨rfl, rfl, rfl, rfl, rfl⟩ rfl

theorem countUsed (h : Lists s bs fs) : Lists s.countUsed bs fs :=
  h.withSizes ⟨rfl, rfl, rfl, rfl, rfl⟩ rfl

theorem setMagic (h : Lists s (l ++ x :: r) fs)
    (ht : t = freeTag s.memheap ∨ t = usedTag s.memheap) :
    Lists (s.setMagic x.off t.magic) (l ++ ⟨x.off, t⟩ :: r) fs := by
  have hlt : t.magic < 2 ^ 32 ∧ t.poolPtr = s.memheap := by
    rcases ht with rfl | rfl
    · exact ⟨show rtMemheapMagic < 2 ^ 32 by decide, rfl⟩
    · exact ⟨show rtMemheapMagic ||| rtMemheapUsed < 2 ^ 32 by decide, rfl⟩
  have hpool : s.poolPtr x.off = s.memheap := by
    rw [poolPtr_eq_view, h.blocks.view_eq]
    rcases h.blocks.tags x (by simp) with htag | htag <;> rw [htag] <;> rfl
  refine ⟨h.blocks.retag ⟨rfl, rfl, rfl, rfl, rfl⟩ ht ?_ fun o ho =>
    view_setMagic_of_ne (by omega), h.free.congr ⟨rfl, rfl, rfl, rfl, rfl⟩ fun o ho => ?_, ?_⟩
  · rw [view_setMagic hlt.1, hpool, ← hlt.2]
  · have hgap := h.blocks.around.2.1
    have hnode := h.node_cases ho
    exact free_setMagic (by omega)
  · intro o ho
    obtain ⟨z, hz, rfl⟩ := h.nodes o ho
    rcases mem_append.mp hz with hz | hz
    · exact ⟨z, by simp [hz], rfl⟩
    · rcases mem_cons.mp hz with rfl | hz
      · exact ⟨⟨z.off, t⟩, by simp, rfl⟩
      · exact ⟨z, by simp [hz], rfl⟩

theorem newBlock (h : Lists s (l ++ x :: r) fs) (hlo : x.off + 24 ≤ n)
    (hhi : n + 24 ≤ headOff r s.tail) :
    Lists (newBlock s x.off n) (l ++ x :: ⟨n, freeTag s.memheap⟩ :: r) fs ∧
      SameFrame s (newBlock s x.off n) := by
  have hf : SameFrame s (Memheap.newBlock s x.off n) := ⟨rfl, rfl, rfl, rfl, rfl⟩
  obtain ⟨hfront, hnew, hback, hrest⟩ := newBlock_view h.blocks.next_eq hlo hhi h.blocks.memheap_lt
  refine ⟨⟨h.blocks.split hf hlo hhi hfront hnew hback hrest, h.free.congr hf fun o ho => ?_, ?_⟩,
    hf⟩
  · exact newBlock_free h.blocks.next_eq hlo hhi (h.node_cases ho)
  · intro o ho
    obtain ⟨z, hz, rfl⟩ := h.nodes o ho
    refine ⟨z, ?_, rfl⟩
    simp only [mem_append, mem_cons] at hz ⊢
    tauto

/-- The lists after a block has been merged into the one before it, without the block's own place
in the free list. -/
theorem relinked (h : Lists s (l ++ x :: y :: r) fs) (hs : Relinked s s' x.off (headOff r s.tail)) :
    Blocks s' (l ++ x :: r) ∧ FreeRing s' fs := by
  have hyc : Lists s ((l ++ [x]) ++ y :: r) fs := by simpa using h
  refine ⟨h.blocks.merge hs.frame hs.front hs.back hs.rest, h.free.congr hs.frame fun o ho => ?_⟩
  have hgap := h.blocks.around.2.1
  have hgapy := hyc.blocks.around.2.1
  have hx := h.node_cases ho
  have hy := hyc.node_cases ho
  exact hs.free o (by omega) (by omega)

theorem merge (h : Lists s (l ++ x :: y :: r) fs) (hs : Relinked s s' x.off (headOff r s.tail))
    (hy : y.off ∉ fs) : Lists s' (l ++ x :: r) fs := by
  obtain ⟨hblocks, hfree⟩ := h.relinked hs
  refine ⟨hblocks, hfree, fun o ho => ?_⟩
  obtain ⟨z, hz, rfl⟩ := h.nodes o ho
  have hne : z ≠ y := by
    rintro rfl
    exact hy ho
  refine ⟨z, ?_, rfl⟩
  simp only [mem_append, mem_cons] at hz ⊢
  tauto

theorem remove (h : Lists s bs (f1 ++ a :: f2)) : Lists (removeFree s a) bs (f1 ++ f2) := by
  refine ⟨h.blocks.transfer ⟨rfl, rfl, rfl, rfl, rfl⟩ fun o ho => ?_, h.free.remove, fun o ho => ?_⟩
  · exact (h.free.removeFree_links fun b hb => h.sep ho hb).1
  · refine h.nodes o ?_
    simp only [mem_append, mem_cons] at ho ⊢
    tauto

/-- A block of the free list is merged into the one before it, and then leaves the free list. -/
theorem mergeRemove (h : Lists s (l ++ x :: y :: r) (f1 ++ y.off :: f2))
    (hs : Relinked s s' x.off (headOff r s.tail)) :
    Lists (removeFree s' y.off) (l ++ x :: r) (f1 ++ f2) := by
  obtain ⟨hblocks, hfree⟩ := h.relinked hs
  have hsub : ∀ o, (o = s'.tail ∨ ∃ z ∈ l ++ x :: r, z.off = o) →
      (o = s.tail ∨ ∃ z ∈ l ++ x :: y :: r, z.off = o) := by
    rintro o (rfl | ⟨z, hz, rfl⟩)
    · exact .inl hs.frame.tail
    · refine .inr ⟨z, ?_, rfl⟩
      simp only [mem_append, mem_cons] at hz ⊢
      tauto
  refine ⟨hblocks.transfer ⟨rfl, rfl, rfl, rfl, rfl⟩ fun o ho => ?_, hfree.remove, fun o ho => ?_⟩
  · refine (hfree.removeFree_links fun b hb => ?_).1
    rw [hs.frame.freeHeader] at hb
    exact h.sep (hsub o ho) hb
  · have hmem : o ∈ f1 ++ y.off :: f2 := by
      simp only [mem_append, mem_cons] at ho ⊢
      tauto
    obtain ⟨z, hz, rfl⟩ := h.nodes o hmem
    have hne : z ≠ y := by
      rintro rfl
      have hnodup := (nodup_cons.mp h.free.nodup).2
      rw [nodup_middle] at hnodup
      exact (nodup_cons.mp hnodup).1 ho
    refine ⟨z, ?_, rfl⟩
    simp only [mem_append, mem_cons] at hz ⊢
    tauto

/-- `joinNext` reads `next_ptr->next` again after a store. -/
theorem joinNext_eq (h : Lists s (l ++ x :: y :: r) fs) :
    Memheap.joinNext s x.off = removeFree ((s.setPrev (headOff r s.tail) x.off).setNext x.off
      (headOff r s.tail)) y.off := by
  have hyc : Blocks s ((l ++ [x]) ++ y :: r) := by simpa using h.blocks
  have hgapy := hyc.around.2.1
  have hnext : s.next x.off = y.off := h.blocks.next_eq
  have hread : (s.setPrev (headOff r s.tail) x.off).next y.off = headOff r s.tail := by
    rw [next_eq_view, view_setPrev_of_ne (by omega), ← next_eq_view, hyc.next_eq]
  simp only [Memheap.joinNext, hnext, hyc.next_eq, hread]

theorem relinked_join (h : Lists s (l ++ x :: y :: r) fs) :
    Relinked s ((s.setPrev (headOff r s.tail) x.off).setNext x.off (headOff r s.tail)) x.off
      (headOff r s.tail) := by
  have hyc : Blocks s ((l ++ [x]) ++ y :: r) := by simpa using h.blocks
  have hgap := h.blocks.around.2.1
  have hgapy := hyc.around.2
  have htail := hyc.tail_lt
  rw [headOff_cons] at hgap
  exact relinked_setPrev_setNext (by omega) (by omega)

theorem joinNext (h : Lists s (l ++ x :: y :: r) (f1 ++ y.off :: f2)) :
    Lists (joinNext s x.off) (l ++ x :: r) (f1 ++ f2) ∧ SameFrame s (joinNext s x.off) := by
  rw [h.joinNext_eq]
  exact ⟨h.mergeRemove h.relinked_join, ⟨rfl, rfl, rfl, rfl, rfl⟩⟩

theorem insert (h : Lists s bs fs) (hx : x ∈ bs) (hnot : x.off ∉ fs) :
    Lists (insertFree s x.off) bs (x.off :: fs) := by
  have hlist := h.blocks.frame.freeList
  have hheader : s.freeHeader < 2 ^ 32 := by
    have := h.blocks.frame.header
    omega
  have hbound := h.blocks.start_le hx
  have htail := h.blocks.tail_lt
  have hsep : ∀ b ∈ s.freeHeader :: fs, x.off + 24 ≤ b ∨ b + 24 ≤ x.off := by
    intro b hb
    refine (h.sep (.inr ⟨x, hx, rfl⟩) hb).resolve_left ?_
    rintro rfl
    rcases mem_cons.mp hb with heq | hb
    · have hapart := h.blocks.frame.apart
      have htl : s.tail = s.startAddr + s.poolSize - 24 := rfl
      omega
    · exact hnot hb
  refine ⟨h.blocks.transfer ⟨rfl, rfl, rfl, rfl, rfl⟩ fun o ho => ?_,
    h.free.insert hlist hheader (by omega) hsep, fun o ho => ?_⟩
  · refine (h.free.insertFree_links hlist hheader (by omega) hsep ?_ fun b hb => h.sep ho hb).1
    rcases ho with rfl | ⟨z, hz, rfl⟩
    · exact .inr (.inr hbound.2)
    · by_cases heq : z = x
      · exact .inl (by rw [heq])
      · obtain ⟨l, r, rfl⟩ := append_of_mem hx
        have hgap := h.blocks.around.2.1
        have hcases := h.blocks.item_cases (.inr (.inr ⟨z, hz, rfl⟩))
        omega
  · rcases mem_cons.mp ho with rfl | ho
    · exact ⟨x, hx, rfl⟩
    · exact h.nodes o ho

theorem detach (h : Lists s bs (f1 ++ x.off :: f2)) (hx : x ∈ bs) :
    Lists (detachFree s x.off) bs (f1 ++ f2) := by
  have hr := h.remove
  have hnot : x.off ∉ s.freeHeader :: (f1 ++ f2) := by
    have hnodup := h.free.nodup
    rw [← cons_append, nodup_middle] at hnodup
    exact (nodup_cons.mp hnodup).1
  have hsep : ∀ b ∈ s.freeHeader :: (f1 ++ f2), b = x.off ∨ b + 24 ≤ x.off ∨ x.off + 24 ≤ b := by
    intro b hb
    have := hr.sep (.inr ⟨x, hx, rfl⟩) hb
    omega
  refine ⟨hr.blocks.transfer ⟨rfl, rfl, rfl, rfl, rfl⟩ fun o ho => ?_,
    hr.free.congr ⟨rfl, rfl, rfl, rfl, rfl⟩ fun o ho => ?_, hr.nodes⟩
  · have hox : o = x.off ∨ o + 24 ≤ x.off ∨ x.off + 24 ≤ o :=
      h.sep ho (by simp)
    rw [detachFree, view_setPrevFree hox, view_setNextFree hox]
  · have hox := hsep o ho
    have hne : o ≠ x.off := by
      rintro rfl
      exact hnot ho
    rw [detachFree, nextFree_setPrevFree hox, nextFree_setNextFree (by decide) hox, if_neg hne,
      prevFree_setPrevFree (by decide) hox, if_neg hne, prevFree_setNextFree hox]
    exact ⟨rfl, rfl⟩

end Lists
end RtThread.Memheap
