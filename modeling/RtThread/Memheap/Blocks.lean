import RtThread.Memheap.Heap
import RtThread.Lib.BlockChain
import RtThread.Lib.DoublyLinked
import RtThread.Lib.PointerList

/-!
# The two lists of a memory heap

`Blocks s bs` says that the items, read through `Heap.view`, link the blocks `bs` from the start of
the pool to the tailer and around. `FreeRing s fs` says that the items at `fs` are linked in a
circle through `free_header`. They read different words of an item, so that each statement of the
source changes one of them and keeps the other.
-/

namespace RtThread.Memheap
open BlockChain
open ByteMem
open List

/-- The part of `struct rt_memheap_item` that does not link. -/
structure Tag where
  magic : Nat
  poolPtr : Nat
  deriving DecidableEq

/-- A block of the pool, at its address. -/
abbrev Blk := Block Tag

/-- The tag of a free block of the heap at `k`. -/
def freeTag (k : Nat) : Tag := ⟨rtMemheapMagic, k⟩
/-- The tag of a used block of the heap at `k`. -/
def usedTag (k : Nat) : Tag := ⟨rtMemheapMagic ||| rtMemheapUsed, k⟩

/-- The magic has the bit `RT_MEMHEAP_USED`. -/
def Tag.Used (t : Tag) : Prop := t.magic &&& rtMemheapUsed ≠ 0

instance : DecidablePred Tag.Used := fun t =>
  inferInstanceAs (Decidable (t.magic &&& rtMemheapUsed ≠ 0))

theorem not_used_freeTag (k : Nat) : ¬ (freeTag k).Used := by
  show ¬ (rtMemheapMagic &&& rtMemheapUsed ≠ 0)
  decide

theorem used_usedTag (k : Nat) : (usedTag k).Used := by
  show (rtMemheapMagic ||| rtMemheapUsed) &&& rtMemheapUsed ≠ 0
  decide

namespace Heap
variable {s s' : Heap} {a b v k : Nat}

/-- The item at address `a`, without its place in the free list. -/
def view (s : Heap) (a : Nat) : Header Tag := ⟨s.next a, s.prev a, ⟨s.magic a, s.poolPtr a⟩⟩

def tail (s : Heap) : Nat := s.startAddr + s.poolSize - 24

theorem next_eq_view : s.next a = (s.view a).next := rfl
theorem prev_eq_view : s.prev a = (s.view a).prev := rfl
theorem magic_eq_view : s.magic a = (s.view a).tag.magic := rfl
theorem poolPtr_eq_view : s.poolPtr a = (s.view a).tag.poolPtr := rfl

theorem isUsed_iff : s.isUsed a ↔ (s.view a).tag.Used := decide_eq_true_iff

theorem next_lt : s.next a < 2 ^ 32 := readLE_word_lt _ _
theorem nextFree_lt : s.nextFree a < 2 ^ 32 := readLE_word_lt _ _
theorem prevFree_lt : s.prevFree a < 2 ^ 32 := readLE_word_lt _ _

theorem view_congr (h : AgreeOn s'.mem s.mem a 16) : s'.view a = s.view a := by
  simp only [view, next, prev, magic, poolPtr, Header.mk.injEq, Tag.mk.injEq]
  refine ⟨?_, ?_, ?_, ?_⟩ <;> exact readLE_congr (h.mono (by omega) (by omega))

theorem free_congr (h : AgreeOn s'.mem s.mem (a + 16) 8) :
    s'.nextFree a = s.nextFree a ∧ s'.prevFree a = s.prevFree a :=
  ⟨readLE_congr (h.mono (by omega) (by omega)), readLE_congr (h.mono (by omega) (by omega))⟩

section
attribute [local simp] view next prev magic poolPtr readLE_writeLE_of_disjoint readLE_writeLE_word

theorem view_setMagic (hv : v < 2 ^ 32) :
    (s.setMagic a v).view a = { s.view a with tag := ⟨v, s.poolPtr a⟩ } := by
  simp (disch := omega) [setMagic]

theorem view_setPoolPtr (hv : v < 2 ^ 32) :
    (s.setPoolPtr a v).view a = { s.view a with tag := ⟨s.magic a, v⟩ } := by
  simp (disch := omega) [setPoolPtr]

theorem view_setNext (hv : v < 2 ^ 32) : (s.setNext a v).view a = { s.view a with next := v } := by
  simp (disch := omega) [setNext]

theorem view_setPrev (hv : v < 2 ^ 32) : (s.setPrev a v).view a = { s.view a with prev := v } := by
  simp (disch := omega) [setPrev]

end

section
variable (h : b + 24 ≤ a ∨ a + 24 ≤ b)
include h

@[simp] theorem view_setMagic_of_ne : (s.setMagic a v).view b = s.view b :=
  view_congr (writeLE_agreeOn _ (by omega))
@[simp] theorem view_setPoolPtr_of_ne : (s.setPoolPtr a v).view b = s.view b :=
  view_congr (writeLE_agreeOn _ (by omega))
@[simp] theorem view_setNext_of_ne : (s.setNext a v).view b = s.view b :=
  view_congr (writeLE_agreeOn _ (by omega))
@[simp] theorem view_setPrev_of_ne : (s.setPrev a v).view b = s.view b :=
  view_congr (writeLE_agreeOn _ (by omega))

end

section
variable (h : b = a ∨ b + 24 ≤ a ∨ a + 24 ≤ b)
include h

theorem view_setNextFree : (s.setNextFree a v).view b = s.view b :=
  view_congr (writeLE_agreeOn _ (by omega))
theorem view_setPrevFree : (s.setPrevFree a v).view b = s.view b :=
  view_congr (writeLE_agreeOn _ (by omega))

@[simp] theorem free_setMagic :
    (s.setMagic a v).nextFree b = s.nextFree b ∧ (s.setMagic a v).prevFree b = s.prevFree b :=
  free_congr (writeLE_agreeOn _ (by omega))
@[simp] theorem free_setPoolPtr :
    (s.setPoolPtr a v).nextFree b = s.nextFree b ∧ (s.setPoolPtr a v).prevFree b = s.prevFree b :=
  free_congr (writeLE_agreeOn _ (by omega))
@[simp] theorem free_setNext :
    (s.setNext a v).nextFree b = s.nextFree b ∧ (s.setNext a v).prevFree b = s.prevFree b :=
  free_congr (writeLE_agreeOn _ (by omega))
@[simp] theorem free_setPrev :
    (s.setPrev a v).nextFree b = s.nextFree b ∧ (s.setPrev a v).prevFree b = s.prevFree b :=
  free_congr (writeLE_agreeOn _ (by omega))

theorem prevFree_setNextFree : (s.setNextFree a v).prevFree b = s.prevFree b :=
  readLE_writeLE_of_disjoint _ (by omega)
theorem nextFree_setPrevFree : (s.setPrevFree a v).nextFree b = s.nextFree b :=
  readLE_writeLE_of_disjoint _ (by omega)

end

theorem nextFree_setNextFree (hv : v < 2 ^ 32) (h : b = a ∨ b + 24 ≤ a ∨ a + 24 ≤ b) :
    (s.setNextFree a v).nextFree b = if b = a then v else s.nextFree b := by
  by_cases hb : b = a
  · rw [if_pos hb, hb]
    exact readLE_writeLE_word _ _ hv
  · rw [if_neg hb]
    exact readLE_writeLE_of_disjoint _ (by omega)

theorem prevFree_setPrevFree (hv : v < 2 ^ 32) (h : b = a ∨ b + 24 ≤ a ∨ a + 24 ≤ b) :
    (s.setPrevFree a v).prevFree b = if b = a then v else s.prevFree b := by
  by_cases hb : b = a
  · rw [if_pos hb, hb]
    exact readLE_writeLE_word _ _ hv
  · rw [if_neg hb]
    exact readLE_writeLE_of_disjoint _ (by omega)

end Heap

/-- The fixed part of an initialised heap: the pool lies in the address space, and does not
overlap the header of the free list. -/
structure Frame (s : Heap) : Prop where
  freeList : s.freeList = s.freeHeader
  blockList : s.blockList = s.startAddr
  room : 48 ≤ s.poolSize
  fits : s.startAddr + s.poolSize ≤ 2 ^ 32
  header : s.freeHeader + 24 ≤ 2 ^ 32
  apart : s.freeHeader + 24 ≤ s.startAddr ∨ s.startAddr + s.poolSize ≤ s.freeHeader

/-- `s'` has the fixed part of `s`. -/
structure SameFrame (s s' : Heap) : Prop where
  memheap : s'.memheap = s.memheap
  startAddr : s'.startAddr = s.startAddr
  poolSize : s'.poolSize = s.poolSize
  blockList : s'.blockList = s.blockList
  freeList : s'.freeList = s.freeList

/-- The items link the blocks `bs` from the start of the pool to the tailer and around. -/
structure Blocks (s : Heap) (bs : List Blk) : Prop where
  frame : Frame s
  head : headOff bs s.tail = s.startAddr
  linked : Linked s.view 24 s.tail bs s.tail
  tags : ∀ x ∈ bs, x.tag = freeTag s.memheap ∨ x.tag = usedTag s.memheap
  tail : s.view s.tail = ⟨s.startAddr, lastOff s.tail bs, usedTag s.memheap⟩

/-- The items at `fs` are linked in a circle through `free_header`. -/
structure FreeRing (s : Heap) (fs : List Nat) : Prop where
  ring : DLinked s.nextFree s.prevFree s.freeHeader fs s.freeHeader
  apart : (s.freeHeader :: fs).Pairwise fun a b => a + 24 ≤ b ∨ b + 24 ≤ a

variable {s s' : Heap} {bs l r : List Blk} {x y : Blk} {fs : List Nat} {n a o : Nat} {t : Tag}

namespace SameFrame

theorem refl (s : Heap) : SameFrame s s := ⟨rfl, rfl, rfl, rfl, rfl⟩

theorem trans {s'' : Heap} (h : SameFrame s s') (h' : SameFrame s' s'') : SameFrame s s'' :=
  ⟨h'.memheap.trans h.memheap, h'.startAddr.trans h.startAddr, h'.poolSize.trans h.poolSize,
    h'.blockList.trans h.blockList, h'.freeList.trans h.freeList⟩

theorem setAvailable (s : Heap) (v : Nat) : SameFrame s (s.setAvailable v) :=
  ⟨rfl, rfl, rfl, rfl, rfl⟩

theorem setMagic (s : Heap) (a v : Nat) : SameFrame s (s.setMagic a v) :=
  ⟨rfl, rfl, rfl, rfl, rfl⟩

theorem insertFree (s : Heap) (a : Nat) : SameFrame s (insertFree s a) :=
  ⟨rfl, rfl, rfl, rfl, rfl⟩

theorem tail (h : SameFrame s s') : s'.tail = s.tail := by
  rw [Heap.tail, Heap.tail, h.startAddr, h.poolSize]

theorem freeHeader (h : SameFrame s s') : s'.freeHeader = s.freeHeader := by
  rw [Heap.freeHeader, Heap.freeHeader, h.memheap]

end SameFrame

theorem Frame.transfer (h : Frame s) (hf : SameFrame s s') : Frame s' := by
  obtain ⟨hfree, hblock, hroom, hfits, hheader, hapart⟩ := h
  refine ⟨?_, ?_, ?_, ?_, ?_, ?_⟩ <;>
    simp only [hf.startAddr, hf.poolSize, hf.blockList, hf.freeList, hf.freeHeader] <;> assumption

namespace Blocks

theorem around (h : Blocks s (l ++ x :: r)) :
    (∀ z ∈ l, z.off + 24 ≤ x.off) ∧ x.off + 24 ≤ headOff r s.tail ∧
      (∀ z ∈ r, headOff r s.tail ≤ z.off ∧ z.off + 24 ≤ s.tail) ∧
      headOff r s.tail ≤ s.tail := by
  obtain ⟨hl, -, hgap, hr⟩ := linked_append_cons.mp h.linked
  exact ⟨fun z hz => (hl.bounds z hz).2, hgap, hr.bounds, hr.headOff_le⟩

theorem view_eq (h : Blocks s (l ++ x :: r)) :
    s.view x.off = ⟨headOff r s.tail, lastOff s.tail l, x.tag⟩ :=
  (linked_append_cons.mp h.linked).2.1

theorem tail_lt (h : Blocks s bs) : s.tail + 24 ≤ 2 ^ 32 ∧ s.startAddr + 24 ≤ s.tail := by
  have hroom := h.frame.room
  have hfits := h.frame.fits
  unfold Heap.tail
  omega

theorem start_le (h : Blocks s bs) (hx : x ∈ bs) : s.startAddr ≤ x.off ∧ x.off + 24 ≤ s.tail := by
  have hbounds := h.linked.bounds x hx
  rwa [h.head] at hbounds

theorem memheap_lt (h : Blocks s bs) : s.memheap < 2 ^ 32 := by
  have hheader := h.frame.header
  unfold Heap.freeHeader at hheader
  omega

theorem off_injective (h : Blocks s bs) (hx : x ∈ bs) (hy : y ∈ bs) (heq : x.off = y.off) :
    x = y := by
  obtain ⟨l, r, rfl⟩ := append_of_mem hx
  obtain ⟨hl, hgap, hr, -⟩ := h.around
  rcases mem_append.mp hy with hy | hy
  · have := hl y hy
    omega
  · rcases mem_cons.mp hy with rfl | hy
    · rfl
    · have := hr y hy
      omega

/-- Where another item is, seen from a block: below it, above the block behind it, or one of these
two. -/
theorem item_cases (h : Blocks s (l ++ x :: r))
    (ho : o = s.freeHeader ∨ o = s.tail ∨ ∃ z ∈ l ++ x :: r, z.off = o) :
    o + 24 ≤ x.off ∨ o = x.off ∨ o = headOff r s.tail ∨ headOff r s.tail + 24 ≤ o := by
  obtain ⟨hl, hgap, hr, hle⟩ := h.around
  have hstart := h.start_le (x := x) (by simp)
  rcases ho with rfl | rfl | ⟨z, hz, rfl⟩
  · have hapart := h.frame.apart
    have htail : s.tail = s.startAddr + s.poolSize - 24 := rfl
    omega
  · cases r with
    | nil => exact .inr (.inr (.inl rfl))
    | cons y r =>
      have := hr y mem_cons_self
      omega
  · rcases mem_append.mp hz with hz | hz
    · exact .inl (hl z hz)
    · rcases mem_cons.mp hz with rfl | hz
      · exact .inr (.inl rfl)
      · cases r with
        | nil => cases hz
        | cons y r =>
          rcases mem_cons.mp hz with rfl | hz
          · exact .inr (.inr (.inl rfl))
          · have hyc : Blocks s ((l ++ [x]) ++ y :: r) := by simpa using h
            obtain ⟨-, hgapy, hry, -⟩ := hyc.around
            have := hry z hz
            simp only [headOff_cons]
            omega

theorem of_sameFrame (hframe : Frame s) (hf : SameFrame s s')
    (hhead : headOff bs s.tail = s.startAddr) (hlinked : Linked s'.view 24 s.tail bs s.tail)
    (htags : ∀ x ∈ bs, x.tag = freeTag s.memheap ∨ x.tag = usedTag s.memheap)
    (htail : s'.view s.tail = ⟨s.startAddr, lastOff s.tail bs, usedTag s.memheap⟩) :
    Blocks s' bs where
  frame := hframe.transfer hf
  head := by rw [hf.tail, hf.startAddr]; exact hhead
  linked := by rw [hf.tail]; exact hlinked
  tags := by rw [hf.memheap]; exact htags
  tail := by rw [hf.tail, hf.startAddr, hf.memheap]; exact htail

theorem transfer (h : Blocks s bs) (hf : SameFrame s s')
    (hview : ∀ o, o = s.tail ∨ (∃ x ∈ bs, x.off = o) → s'.view o = s.view o) : Blocks s' bs :=
  .of_sameFrame h.frame hf h.head
    (h.linked.congr fun x hx => hview x.off (.inr ⟨x, hx, rfl⟩)) h.tags
    ((hview _ (.inl rfl)).trans h.tail)

theorem withSizes (h : Blocks s bs) (hf : SameFrame s s') (hm : s'.mem = s.mem) : Blocks s' bs :=
  h.transfer hf fun _ _ => Heap.view_congr (by rw [hm]; exact fun _ _ _ => rfl)

theorem retag (h : Blocks s (l ++ x :: r)) (hf : SameFrame s s')
    (ht : t = freeTag s.memheap ∨ t = usedTag s.memheap)
    (hx : s'.view x.off = { s.view x.off with tag := t })
    (hview : ∀ o, o + 24 ≤ x.off ∨ x.off + 24 ≤ o → s'.view o = s.view o) :
    Blocks s' (l ++ ⟨x.off, t⟩ :: r) := by
  obtain ⟨hl, hgap, hr, hle⟩ := h.around
  have htags := h.tags
  simp only [forall_mem_append, forall_mem_cons] at htags
  refine .of_sameFrame h.frame hf ?_ ?_ ?_ ?_
  · rw [← h.head]
    simp
  · exact h.linked.setTag hx hview
  · simp only [forall_mem_append, forall_mem_cons]
    exact ⟨htags.1, ht, htags.2.2⟩
  · rw [hview _ (by omega), h.tail]
    simp

theorem tail_behind {p : Nat} (h : Blocks s (l ++ x :: r))
    (hnext : s'.view (headOff r s.tail) = { s.view (headOff r s.tail) with prev := p })
    (hview : ∀ o, headOff r s.tail + 24 ≤ o → s'.view o = s.view o) :
    s'.view s.tail = ⟨s.startAddr, lastOff p r, usedTag s.memheap⟩ := by
  cases r with
  | nil =>
    rw [headOff_nil] at hnext
    rw [hnext, h.tail]
    rfl
  | cons y r =>
    have hy := h.around.2.2.1 y mem_cons_self
    rw [hview _ hy.2, h.tail]
    simp

theorem split (h : Blocks s (l ++ x :: r)) (hf : SameFrame s s')
    (hlo : x.off + 24 ≤ n) (hhi : n + 24 ≤ headOff r s.tail)
    (hx : s'.view x.off = { s.view x.off with next := n })
    (hn : s'.view n = ⟨headOff r s.tail, x.off, freeTag s.memheap⟩)
    (hnext : s'.view (headOff r s.tail) = { s.view (headOff r s.tail) with prev := n })
    (hview : ∀ o, o + 24 ≤ x.off ∨ headOff r s.tail + 24 ≤ o → s'.view o = s.view o) :
    Blocks s' (l ++ x :: ⟨n, freeTag s.memheap⟩ :: r) := by
  obtain ⟨hl, hgap, hr, hle⟩ := h.around
  have htags := h.tags
  simp only [forall_mem_append, forall_mem_cons] at htags
  refine .of_sameFrame h.frame hf ?_ ?_ ?_ ?_
  · rw [← h.head]
    simp
  · refine h.linked.split hlo hhi ?_ hn (fun _ => hnext) hview
    rw [hx, h.view_eq]
  · simp only [forall_mem_append, forall_mem_cons]
    exact ⟨htags.1, htags.2.1, .inl trivial, htags.2.2⟩
  · rw [h.tail_behind hnext fun o ho => hview o (.inr ho)]
    simp

theorem merge (h : Blocks s (l ++ x :: y :: r)) (hf : SameFrame s s')
    (hx : s'.view x.off = { s.view x.off with next := headOff r s.tail })
    (hnext : s'.view (headOff r s.tail) = { s.view (headOff r s.tail) with prev := x.off })
    (hview : ∀ o, o + 24 ≤ x.off ∨ headOff r s.tail + 24 ≤ o → s'.view o = s.view o) :
    Blocks s' (l ++ x :: r) := by
  have hyc : Blocks s ((l ++ [x]) ++ y :: r) := by simpa using h
  have htags := h.tags
  simp only [forall_mem_append, forall_mem_cons] at htags
  refine .of_sameFrame h.frame hf ?_ ?_ ?_ ?_
  · rw [← h.head]
    simp
  · exact h.linked.merge hx (fun _ => hnext) hview
  · simp only [forall_mem_append, forall_mem_cons]
    exact ⟨htags.1, htags.2.1, htags.2.2.2⟩
  · rw [hyc.tail_behind hnext fun o ho => hview o (.inr ho)]
    simp

theorem memitemSize_eq (h : Blocks s (l ++ x :: r)) :
    s.memitemSize x.off = headOff r s.tail - x.off - 24 := by
  obtain ⟨-, hgap, -, hle⟩ := h.around
  have htail := h.tail_lt
  have hinner : sub32 (headOff r s.tail) x.off = headOff r s.tail - x.off :=
    sub32_of_le
  rw [Heap.memitemSize, Heap.next_eq_view, h.view_eq, rtMemheapSize_eq, hinner]
  exact sub32_of_le

theorem next_eq (h : Blocks s (l ++ x :: r)) : s.next x.off = headOff r s.tail := by
  rw [Heap.next_eq_view, h.view_eq]

theorem isUsed_iff (h : Blocks s (l ++ x :: r)) : s.isUsed x.off ↔ x.tag.Used := by
  rw [Heap.isUsed_iff, h.view_eq]

theorem isUsed_tail (h : Blocks s bs) : s.isUsed s.tail = true := by
  rw [Heap.isUsed_iff, h.tail]
  exact used_usedTag _

theorem isUsed_next (h : Blocks s (l ++ x :: r)) :
    s.isUsed (headOff r s.tail) ↔ ∀ y ∈ r.head?, y.tag.Used := by
  cases r with
  | nil =>
    rw [headOff_nil, h.isUsed_tail]
    simp
  | cons y r =>
    have hyc : Blocks s ((l ++ [x]) ++ y :: r) := by simpa using h
    rw [headOff_cons, hyc.isUsed_iff]
    simp

theorem isUsed_prev (h : Blocks s (l ++ x :: r)) :
    s.isUsed (s.prev x.off) ↔ ∀ w ∈ l.getLast?, w.tag.Used := by
  rw [Heap.prev_eq_view, h.view_eq]
  rcases eq_nil_or_concat l with rfl | ⟨l, w, rfl⟩
  · rw [lastOff_nil, h.isUsed_tail]
    simp
  · have hwc : Blocks s (l ++ w :: x :: r) := by simpa using h
    rw [concat_eq_append, lastOff_append, lastOff_cons, lastOff_nil, hwc.isUsed_iff]
    simp

end Blocks
end RtThread.Memheap
