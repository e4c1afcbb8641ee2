import RtThread.Memheap.Calls

/-!
# `rt_memheap_init`

The items are written one after the other: the header of the free list, the first block and the
tailer. They are disjoint, so each keeps what it was given.
-/

namespace RtThread.Memheap
open BlockChain
open ByteMem
open Heap
open List
variable {s : Heap} {a b : Nat} {memheap startAddr size : Nat}

section
attribute [local simp] Heap.view Heap.next Heap.prev magic poolPtr nextFree prevFree setMagic
  setPoolPtr setNext setPrev setNextFree setPrevFree readLE_writeLE_of_disjoint readLE_writeLE_word

theorem initItem_self (hk : s.memheap < 2 ^ 32) (ha : a < 2 ^ 32) :
    (initItem s a).view a = ⟨rtNull, rtNull, freeTag s.memheap⟩ ∧
      (initItem s a).nextFree a = a ∧ (initItem s a).prevFree a = a := by
  have hmagic : rtMemheapMagic < 2 ^ 32 := by decide
  have hnull : rtNull < 2 ^ 32 := by decide
  simp (disch := first | omega | assumption) [initItem, freeTag]

theorem initItem_of_ne (h : b + 24 ≤ a ∨ a + 24 ≤ b) :
    (initItem s a).nextFree b = s.nextFree b ∧ (initItem s a).prevFree b = s.prevFree b := by
  simp (disch := omega) [initItem]

theorem initTail_self (hk : s.memheap < 2 ^ 32) (hstart : s.startAddr < 2 ^ 32) :
    (initTail s a).view a = ⟨s.startAddr, s.startAddr, usedTag s.memheap⟩ := by
  have hmagic : rtMemheapMagic ||| rtMemheapUsed < 2 ^ 32 := by decide
  simp (disch := first | omega | assumption) [initTail, usedTag]

theorem initTail_of_ne (h : b + 24 ≤ a ∨ a + 24 ≤ b) :
    (initTail s a).view b = s.view b ∧ (initTail s a).nextFree b = s.nextFree b ∧
      (initTail s a).prevFree b = s.prevFree b := by
  simp (disch := omega) [initTail]

end

/-- The control block of a new heap, before any item is written. -/
structure Fresh (s : Heap) : Prop where
  freeList : s.freeList = s.freeHeader
  room : 48 ≤ s.poolSize
  fits : s.startAddr + s.poolSize ≤ 2 ^ 32
  header : s.freeHeader + 24 ≤ 2 ^ 32
  apart : s.freeHeader + 24 ≤ s.startAddr ∨ s.startAddr + s.poolSize ≤ s.freeHeader
  available : s.availableSize = s.poolSize - 48

theorem Fresh.initHeader (h : Fresh s) : Fresh (initItem s a) :=
  ⟨h.freeList, h.room, h.fits, h.header, h.apart, h.available⟩

/-- The heap with the first block, which leads to the tailer in both directions, and is not in the
free list yet. -/
def firstBlock (s : Heap) : Heap :=
  { ((initItem s s.startAddr).setNext s.startAddr s.tail).setPrev s.startAddr s.tail with
    blockList := s.startAddr }

namespace Fresh

section
variable (h : Fresh s)
include h

theorem memheap_lt : s.memheap < 2 ^ 32 := by
  have hheader := h.header
  unfold Heap.freeHeader at hheader
  omega

theorem tail_lt : s.tail < 2 ^ 32 := by
  have hfits := h.fits
  unfold Heap.tail
  omega

theorem initFirst_eq : initFirst s = insertFree (firstBlock s) s.startAddr := by
  obtain ⟨-, hroom, hfits, -, -, havail⟩ := id h
  have htail : (s.startAddr + s.availableSize + rtMemheapSize) % 2 ^ 32 = s.tail := by
    rw [rtMemheapSize_eq, Nat.mod_eq_of_lt (by omega), Heap.tail]
    omega
  have hback : ((initItem s s.startAddr).setNext s.startAddr s.tail).next s.startAddr = s.tail := by
    rw [Heap.next_eq_view, Heap.view_setNext h.tail_lt]
  unfold initFirst firstBlock
  dsimp only
  rw [show (initItem s s.startAddr).availableSize = s.availableSize from rfl, htail, hback]

theorem firstBlock_view :
    (firstBlock s).view s.startAddr = ⟨s.tail, s.tail, freeTag s.memheap⟩ := by
  obtain ⟨-, hroom, hfits, -, -, -⟩ := id h
  obtain ⟨hself, -, -⟩ := initItem_self (a := s.startAddr) h.memheap_lt (by omega)
  change (((initItem s s.startAddr).setNext s.startAddr s.tail).setPrev s.startAddr s.tail).view
    s.startAddr = _
  rw [Heap.view_setPrev h.tail_lt, Heap.view_setNext h.tail_lt, hself]

theorem sep : s.startAddr + 24 ≤ s.freeHeader ∨ s.freeHeader + 24 ≤ s.startAddr := by
  have hroom := h.room
  have hapart := h.apart
  omega

theorem firstBlock_ring (hring : FreeRing s []) : FreeRing (firstBlock s) [] := by
  have hsep := h.sep
  obtain ⟨hnext, hprev⟩ := initItem_of_ne (a := s.startAddr) (b := s.freeHeader)
    (by omega)
  have hkeep := Heap.free_setPrev (s := (initItem s s.startAddr).setNext s.startAddr s.tail)
    (a := s.startAddr) (b := s.freeHeader) (v := s.tail) (by omega)
  have hkeep' := Heap.free_setNext (s := initItem s s.startAddr)
    (a := s.startAddr) (b := s.freeHeader) (v := s.tail) (by omega)
  exact ⟨⟨((hkeep.1.trans hkeep'.1).trans hnext).trans hring.ring.1,
    ((hkeep.2.trans hkeep'.2).trans hprev).trans hring.ring.2⟩, pairwise_singleton _ _⟩

theorem initFirst_spec (hring : FreeRing s []) :
    (initFirst s).view s.startAddr = ⟨s.tail, s.tail, freeTag s.memheap⟩ ∧
      FreeRing (initFirst s) [s.startAddr] := by
  have hring' := h.firstBlock_ring hring
  have hsep : ∀ b ∈ (firstBlock s).freeHeader :: [], s.startAddr + 24 ≤ b ∨
      b + 24 ≤ s.startAddr := by
    intro b hb
    rw [mem_singleton.mp hb]
    exact h.sep
  have hlt : (firstBlock s).freeHeader < 2 ^ 32 := by
    have hheader := h.header
    change s.freeHeader < 2 ^ 32
    omega
  have hstart : s.startAddr < 2 ^ 32 := by
    have hfits := h.fits
    have hroom := h.room
    omega
  rw [h.initFirst_eq]
  refine ⟨?_, hring'.insert h.freeList hlt hstart hsep⟩
  rw [(hring'.insertFree_links h.freeList hlt hstart hsep (.inl rfl)
    fun b hb => .inr (hsep b hb)).1, h.firstBlock_view]

end
end Fresh

theorem initTail_spec (hframe : Frame s) (hring : FreeRing s [s.startAddr])
    (hview : s.view s.startAddr = ⟨s.tail, s.tail, freeTag s.memheap⟩)
    (havail : s.availableSize = s.poolSize - 48) :
    Inv (initTail s s.tail) [⟨s.startAddr, freeTag s.memheap⟩] [s.startAddr] := by
  obtain ⟨-, -, hroom, hfits, hheader, hapart⟩ := id hframe
  have htail : s.tail = s.startAddr + s.poolSize - 24 := rfl
  have hk : s.memheap < 2 ^ 32 := by
    unfold Heap.freeHeader at hheader
    omega
  have hf : SameFrame s (initTail s s.tail) := ⟨rfl, rfl, rfl, rfl, rfl⟩
  have hself := initTail_self (a := s.tail) hk (by omega)
  have hfirst := initTail_of_ne (s := s) (a := s.tail) (b := s.startAddr) (by omega)
  have hlinked : Linked (initTail s s.tail).view 24 s.tail [⟨s.startAddr, freeTag s.memheap⟩]
      s.tail := by
    refine linked_cons.mpr ⟨hfirst.1.trans hview, ?_, linked_nil⟩
    rw [headOff_nil]
    dsimp only
    omega
  have hblocks : Blocks (initTail s s.tail) [⟨s.startAddr, freeTag s.memheap⟩] :=
    .of_sameFrame hframe hf rfl hlinked (fun x hx => .inl (by rw [mem_singleton.mp hx])) hself
  refine ⟨⟨hblocks, hring.congr hf fun o ho => (initTail_of_ne ?_).2, ?_⟩, ?_,
    isChain_singleton _, ?_⟩
  · simp only [mem_cons, not_mem_nil, or_false] at ho
    omega
  · intro o ho
    exact ⟨_, mem_singleton_self _, (mem_singleton.mp ho).symm⟩
  · rw [freeOffs_free (isFree_freeTag _)]
    exact List.Perm.refl _
  · rw [freeTotal_cons_free (isFree_freeTag _), hf.tail]
    change s.availableSize = s.tail - s.startAddr - 24 + 0
    omega

theorem rtMemheapInit_eq (m : ByteMem) (hroom : 48 ≤ size)
    (hfits : startAddr + size ≤ 2 ^ 32) (hheader : memheap + 68 ≤ 2 ^ 32)
    (hapart : memheap + 68 ≤ startAddr ∨ startAddr + size ≤ memheap + 44) :
    ∃ s, Fresh s ∧ s.mem = m ∧ s.memheap = memheap ∧ s.startAddr = startAddr ∧
      s.poolSize = size / 8 * 8 ∧ FreeRing (initItem s s.freeHeader) [] ∧
      rtMemheapInit m memheap startAddr size =
        initTail (initFirst (initItem s s.freeHeader)) s.tail := by
  have hpool : rtAlignDown size rtAlignSize = size / 8 * 8 := by
    rw [rtAlignSize, rtAlignDown_eight, Nat.mod_eq_of_lt (by omega)]
  have havail : sub32 (size / 8 * 8) (2 * rtMemheapSize) = size / 8 * 8 - 48 := by
    rw [rtMemheapSize_eq]
    exact sub32_of_le
  have hinit : rtMemheapInit m memheap startAddr size =
      let s : Heap := ⟨m, memheap, startAddr, size / 8 * 8, size / 8 * 8 - 48,
        sub32 (size / 8 * 8) (size / 8 * 8 - 48), 0, memheap + 44⟩
      let s1 := initFirst (initItem s s.freeHeader)
      initTail s1 (s1.next s.startAddr) := by
    unfold rtMemheapInit
    dsimp only
    rw [hpool, havail]
  dsimp only at hinit
  generalize hs : Heap.mk m memheap startAddr (size / 8 * 8) (size / 8 * 8 - 48)
    (sub32 (size / 8 * 8) (size / 8 * 8 - 48)) 0 (memheap + 44) = s at hinit
  have hh : s.freeHeader = memheap + 44 := by rw [← hs]; rfl
  have hk : s.memheap = memheap := by rw [← hs]
  have hstart : s.startAddr = startAddr := by rw [← hs]
  have hsize : s.poolSize = size / 8 * 8 := by rw [← hs]
  have hfresh : Fresh s := by
    refine ⟨by rw [← hs]; rfl, ?_, ?_, ?_, ?_, by rw [← hs]⟩ <;> omega
  obtain ⟨-, hnext, hprev⟩ := initItem_self (a := s.freeHeader) hfresh.memheap_lt
    (by omega)
  have hring : FreeRing (initItem s s.freeHeader) [] :=
    ⟨⟨hnext, hprev⟩, pairwise_singleton _ _⟩
  refine ⟨s, hfresh, by rw [← hs], hk, hstart, hsize, hring, ?_⟩
  have hview : (initFirst (initItem s s.freeHeader)).view s.startAddr =
      ⟨s.tail, s.tail, freeTag s.memheap⟩ := (hfresh.initHeader.initFirst_spec hring).1
  rw [hinit, ← hstart, Heap.next_eq_view, hview]

theorem rtMemheapInit_spec {m : ByteMem} (hroom : 48 ≤ size)
    (hfits : startAddr + size ≤ 2 ^ 32) (hheader : memheap + 68 ≤ 2 ^ 32)
    (hapart : memheap + 68 ≤ startAddr ∨ startAddr + size ≤ memheap + 44) :
    Inv (rtMemheapInit m memheap startAddr size) [⟨startAddr, freeTag memheap⟩] [startAddr] := by
  obtain ⟨s, hfresh, -, rfl, rfl, -, hring, heq⟩ := rtMemheapInit_eq m hroom hfits hheader hapart
  have hspec : (initFirst (initItem s s.freeHeader)).view s.startAddr =
      ⟨s.tail, s.tail, freeTag s.memheap⟩ ∧
      FreeRing (initFirst (initItem s s.freeHeader)) [s.startAddr] :=
        hfresh.initHeader.initFirst_spec hring
  obtain ⟨s1, hs1⟩ : ∃ s1, initFirst (initItem s s.freeHeader) = s1 := ⟨_, rfl⟩
  rw [hs1] at hspec heq
  have hk : s1.memheap = s.memheap := hs1 ▸ rfl
  have hstart : s1.startAddr = s.startAddr := hs1 ▸ rfl
  have hsize : s1.poolSize = s.poolSize := hs1 ▸ rfl
  have hheader1 : s1.freeHeader = s.freeHeader := by rw [Heap.freeHeader, hk, Heap.freeHeader]
  have htail : s1.tail = s.tail := by rw [Heap.tail, Heap.tail, hstart, hsize]
  have hframe : Frame s1 := by
    obtain ⟨hlist, hroom1, hfits1, hheader2, hapart1, -⟩ := id hfresh
    refine ⟨(hs1 ▸ hlist : s1.freeList = s.freeHeader).trans hheader1.symm, hs1 ▸ rfl, ?_, ?_, ?_,
      ?_⟩ <;> omega
  rw [heq, ← htail, ← hstart, ← hk]
  refine initTail_spec hframe (hstart ▸ hspec.2) ?_ ?_
  · rw [hstart, htail, hk]
    exact hspec.1
  · rw [hsize]
    exact (hs1 ▸ hfresh.available : s1.availableSize = s.poolSize - 48)

end RtThread.Memheap
