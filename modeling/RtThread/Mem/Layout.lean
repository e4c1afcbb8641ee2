import RtThread.Mem.Heap
import RtThread.Lib.BlockChain

/-!
# The block chain of the heap

The headers of the heap, read through `Heap.view`, link a list of blocks from offset zero to
`heap_end`. `Chain s bs` collects what holds of these blocks at every point of every function of
`mem.c`; `Layout s bs` adds that no two neighbours are unused and that `lfree` points at a block or
at `heap_end`. The rules lift the library's tag, split and merge rules to the field writes of the
source.
-/

namespace RtThread.Mem
open BlockChain
open ByteMem
open List

/-- The part of `struct heap_mem` that does not link. -/
structure Tag where
  magic : Nat
  used : Nat
  deriving DecidableEq

abbrev Blk := Block Tag

def freeTag : Tag := ⟨heapMagic, 0⟩
def usedTag : Tag := ⟨heapMagic, 1⟩

theorem usedTag_used : usedTag.used ≠ 0 := by decide

def Heap.headerAt (s : Heap) (a : Nat) : Header Tag :=
  ⟨s.next a, s.prev a, ⟨s.magic a, s.used a⟩⟩

/-- The header at offset `o`. -/
def Heap.view (s : Heap) (o : Nat) : Header Tag := s.headerAt (s.heapPtr + o)

def Heap.endOff (s : Heap) : Nat := s.memSizeAligned + sizeofStructMem

namespace Heap
variable {s s' : Heap} {a b o v : Nat}

theorem next_eq_view : s.next (s.heapPtr + o) = (s.view o).next := rfl
theorem prev_eq_view : s.prev (s.heapPtr + o) = (s.view o).prev := rfl
theorem used_eq_view : s.used (s.heapPtr + o) = (s.view o).tag.used := rfl

theorem endOff_eq (s : Heap) : s.endOff = s.memSizeAligned + 16 := by
  rw [endOff, sizeofStructMem_eq]

theorem next_lt : s.next a < 2 ^ 32 := readLE_lt _ 4 _

theorem headerAt_congr (h : AgreeOn s'.mem s.mem a 12) : s'.headerAt a = s.headerAt a := by
  simp only [headerAt, next, prev, magic, used, Header.mk.injEq, Tag.mk.injEq]
  refine ⟨?_, ?_, ?_, ?_⟩ <;> exact readLE_congr (h.mono (by omega) (by omega))

section
variable (h : b + 12 ≤ a ∨ a + 12 ≤ b)
include h

@[simp] theorem headerAt_setMagic_of_ne : (s.setMagic a v).headerAt b = s.headerAt b :=
  headerAt_congr (writeLE_agreeOn _ (by omega))
@[simp] theorem headerAt_setUsed_of_ne : (s.setUsed a v).headerAt b = s.headerAt b :=
  headerAt_congr (writeLE_agreeOn _ (by omega))
@[simp] theorem headerAt_setNext_of_ne : (s.setNext a v).headerAt b = s.headerAt b :=
  headerAt_congr (writeLE_agreeOn _ (by omega))
@[simp] theorem headerAt_setPrev_of_ne : (s.setPrev a v).headerAt b = s.headerAt b :=
  headerAt_congr (writeLE_agreeOn _ (by omega))

end

section
attribute [local simp] headerAt next prev magic used readLE_writeLE_of_disjoint readLE_writeLE_same
  Nat.mod_eq_of_lt

theorem headerAt_setMagic_same (hv : v < 2 ^ 16) : (s.setMagic a v).headerAt a =
      ⟨(s.headerAt a).next, (s.headerAt a).prev, ⟨v, (s.headerAt a).tag.used⟩⟩ := by
  simp (disch := omega) [setMagic]

theorem headerAt_setUsed_same (hv : v < 2 ^ 16) : (s.setUsed a v).headerAt a =
      ⟨(s.headerAt a).next, (s.headerAt a).prev, ⟨(s.headerAt a).tag.magic, v⟩⟩ := by
  simp (disch := omega) [setUsed]

theorem headerAt_setNext_same (hv : v < 2 ^ 32) :
    (s.setNext a v).headerAt a = ⟨v, (s.headerAt a).prev, (s.headerAt a).tag⟩ := by
  simp (disch := omega) [setNext]

theorem headerAt_setPrev_same (hv : v < 2 ^ 32) :
    (s.setPrev a v).headerAt a = ⟨(s.headerAt a).next, v, (s.headerAt a).tag⟩ := by
  simp (disch := omega) [setPrev]

end

theorem headerAt_newHeader {g u n p : Nat} (hg : g < 2 ^ 16) (hu : u < 2 ^ 16) (hn : n < 2 ^ 32)
    (hp : p < 2 ^ 32) :
    ((((s.setMagic a g).setUsed a u).setNext a n).setPrev a p).headerAt a = ⟨n, p, ⟨g, u⟩⟩ := by
  rw [headerAt_setPrev_same hp, headerAt_setNext_same hn, headerAt_setUsed_same hu,
    headerAt_setMagic_same hg]

end Heap

/-- Two neighbouring blocks of which at most one is unused. -/
def Coalesced (x y : Blk) : Prop := x.tag.used ≠ 0 ∨ y.tag.used ≠ 0

/-- The fixed geometry of an initialised heap. -/
structure Frame (s : Heap) : Prop where
  heapEnd : s.heapEnd = s.heapPtr + s.endOff
  fits : s.heapPtr + s.endOff + 16 < 2 ^ 32
  alignPtr : 8 ∣ s.heapPtr
  alignEnd : 8 ∣ s.endOff

/-- What holds of one block: its magic, its alignment, and that a used block has its payload start
before `heap_end`. -/
structure BlockOk (e : Nat) (x : Blk) : Prop where
  magic : x.tag.magic = heapMagic
  aligned : 8 ∣ x.off
  room : x.tag.used ≠ 0 → x.off + 16 < e

/-- The headers link the blocks `bs` from offset zero to `heap_end`, whose own header marks a
used block that is its own successor. -/
structure Chain (s : Heap) (bs : List Blk) : Prop where
  frame : Frame s
  head : headOff bs s.endOff = 0
  linked : Linked s.view 16 0 bs s.endOff
  blocks : ∀ x ∈ bs, BlockOk s.endOff x
  endNext : (s.view s.endOff).next = s.endOff
  endTag : (s.view s.endOff).tag = usedTag

/-- `o` is the offset of a block of `bs`, or the end offset `e`. -/
def OnChain (bs : List Blk) (e o : Nat) : Prop := o = e ∨ ∃ x ∈ bs, x.off = o

/-- The state of the heap between two calls. -/
structure Layout (s : Heap) (bs : List Blk) : Prop extends Chain s bs where
  coalesced : bs.IsChain Coalesced
  lfree : ∃ o, s.lfree = s.heapPtr + o ∧ OnChain bs s.endOff o

/-- `s'` has the geometry of `s`. -/
structure SameFrame (s s' : Heap) : Prop where
  heapPtr : s'.heapPtr = s.heapPtr
  heapEnd : s'.heapEnd = s.heapEnd
  memSize : s'.memSizeAligned = s.memSizeAligned

variable {s s' : Heap} {bs l r : List Blk} {x y : Blk} {m n : Nat} {t : Tag}

theorem SameFrame.endOff (h : SameFrame s s') : s'.endOff = s.endOff := by
  rw [Heap.endOff, Heap.endOff, h.memSize]

theorem Frame.transfer (h : Frame s) (hf : SameFrame s s') : Frame s' := by
  obtain ⟨hend, hfits, hptr, hoff⟩ := h
  refine ⟨?_, ?_, ?_, ?_⟩ <;> simp only [hf.heapPtr, hf.heapEnd, hf.endOff] <;> assumption

namespace Chain

theorem bounds (h : Chain s bs) : ∀ x ∈ bs, x.off + 16 ≤ s.endOff :=
  fun x hx => (h.linked.bounds x hx).2

theorem around (h : Chain s (l ++ x :: r)) :
    (∀ z ∈ l, z.off + 16 ≤ x.off) ∧ x.off + 16 ≤ headOff r s.endOff ∧
      (∀ z ∈ r, headOff r s.endOff ≤ z.off ∧ z.off + 16 ≤ s.endOff) ∧
      headOff r s.endOff ≤ s.endOff := by
  obtain ⟨hl, -, hgap, hr⟩ := linked_append_cons.mp h.linked
  exact ⟨fun z hz => (hl.bounds z hz).2, hgap, hr.bounds, hr.headOff_le⟩

theorem view_eq (h : Chain s (l ++ x :: r)) :
    s.view x.off = ⟨headOff r s.endOff, lastOff 0 l, x.tag⟩ :=
  (linked_append_cons.mp h.linked).2.1

section
variable (h : Chain s bs)
include h

theorem endOff_lt : s.endOff < 2 ^ 32 := by
  have := h.frame.fits
  omega

theorem ne_nil : bs ≠ [] := by
  rintro rfl
  have hzero := h.head
  simp only [headOff_nil, Heap.endOff, sizeofStructMem_eq] at hzero
  omega

theorem unique {bs' : List Blk} (h' : Chain s bs') : bs = bs' :=
  h.linked.unique (by decide) h'.linked (h.head.trans h'.head.symm)

theorem apart (hx : x ∈ bs) (hy : y ∈ bs) (hne : x ≠ y) :
    x.off + 16 ≤ y.off ∨ y.off + 16 ≤ x.off := by
  obtain ⟨l, r, rfl⟩ := append_of_mem hx
  obtain ⟨hl, hgap, hr, -⟩ := h.around
  rcases mem_append.mp hy with hy | hy
  · exact .inr (hl y hy)
  · rcases mem_cons.mp hy with rfl | hy
    · exact absurd rfl hne
    · have := hr y hy
      omega

theorem off_injective (hx : x ∈ bs) (hy : y ∈ bs) (heq : x.off = y.off) : x = y := by
  by_contra hne
  have := h.apart hx hy hne
  omega

theorem transfer (hf : SameFrame s s') (hview : ∀ x ∈ bs, s'.view x.off = s.view x.off)
    (hend : s'.view s.endOff = s.view s.endOff) : Chain s' bs where
  frame := h.frame.transfer hf
  head := by rw [hf.endOff]; exact h.head
  linked := by rw [hf.endOff]; exact h.linked.congr hview
  blocks := by rw [hf.endOff]; exact h.blocks
  endNext := by rw [hf.endOff, hend]; exact h.endNext
  endTag := by rw [hf.endOff, hend]; exact h.endTag

end

theorem retag (h : Chain s (l ++ x :: r)) (hf : SameFrame s s') (hok : BlockOk s.endOff ⟨x.off, t⟩)
    (hx : s'.view x.off = { s.view x.off with tag := t })
    (hview : ∀ o, o + 16 ≤ x.off ∨ x.off + 16 ≤ o → s'.view o = s.view o) :
    Chain s' (l ++ ⟨x.off, t⟩ :: r) := by
  obtain ⟨hl, hgap, hr, hle⟩ := h.around
  have hend : s'.view s.endOff = s.view s.endOff := hview _ (by omega)
  have hblocks := h.blocks
  simp only [forall_mem_append, forall_mem_cons] at hblocks
  refine ⟨h.frame.transfer hf, ?_, ?_, ?_, ?_, ?_⟩ <;> rw [hf.endOff]
  · rw [← h.head]; simp
  · exact h.linked.setTag hx hview
  · simp only [forall_mem_append, forall_mem_cons]
    exact ⟨hblocks.1, hok, hblocks.2.2⟩
  · rw [hend]; exact h.endNext
  · rw [hend]; exact h.endTag

theorem setUsed {v : Nat} (h : Chain s (l ++ x :: r)) (hv : v < 2 ^ 16)
    (hroom : v ≠ 0 → x.off + 16 < s.endOff) :
    Chain (s.setUsed (s.heapPtr + x.off) v) (l ++ ⟨x.off, ⟨heapMagic, v⟩⟩ :: r) := by
  have hok := h.blocks x (by simp)
  refine h.retag ⟨rfl, rfl, rfl⟩ ⟨rfl, hok.aligned, hroom⟩ ?_ fun o ho => ?_
  · rw [Heap.view, Heap.setUsed_heapPtr, Heap.headerAt_setUsed_same hv, ← Heap.view, h.view_eq,
      hok.magic]
  · rw [Heap.view, Heap.setUsed_heapPtr, Heap.headerAt_setUsed_of_ne (by omega)]
    rfl

theorem setMagic (h : Chain s (l ++ x :: r)) :
    Chain (s.setMagic (s.heapPtr + x.off) heapMagic) (l ++ x :: r) := by
  have hok := h.blocks x (by simp)
  refine h.retag (t := x.tag) ⟨rfl, rfl, rfl⟩ hok ?_ fun o ho => ?_
  · rw [Heap.view, Heap.setMagic_heapPtr, Heap.headerAt_setMagic_same (by decide), ← Heap.view,
      h.view_eq, ← hok.magic]
  · rw [Heap.view, Heap.setMagic_heapPtr, Heap.headerAt_setMagic_of_ne (by omega)]
    rfl

/-- A new header at offset `m` inside a block cuts it in two. The `prev` of the block behind is
rewritten unless that is `heap_end`. -/
theorem splitBlock (h : Chain s (l ++ x :: r)) (hf : SameFrame s s') {t' : Tag}
    (hn : headOff r s.endOff = n) (hlo : x.off + 16 ≤ m) (hhi : m + 16 ≤ n)
    (hok : BlockOk s.endOff ⟨x.off, t⟩) (hok' : BlockOk s.endOff ⟨m, t'⟩)
    (hx : s'.view x.off = ⟨m, (s.view x.off).prev, t⟩)
    (hm : s'.view m = ⟨n, x.off, t'⟩)
    (hnext : n ≠ s.endOff → s'.view n = { s.view n with prev := m })
    (hend : s'.view s.endOff = s.view s.endOff)
    (hview : ∀ o, o + 16 ≤ x.off ∨ n + 16 ≤ o → s'.view o = s.view o) :
    Chain s' (l ++ ⟨x.off, t⟩ :: ⟨m, t'⟩ :: r) := by
  obtain ⟨hl, hgap, hr, hle⟩ := h.around
  have hblocks := h.blocks
  simp only [forall_mem_append, forall_mem_cons] at hblocks
  subst hn
  have hbehind : r ≠ [] → headOff r s.endOff ≠ s.endOff := by
    intro hne
    obtain ⟨y, r', rfl⟩ := exists_cons_of_ne_nil hne
    have := (hr y mem_cons_self).2
    simp only [headOff_cons]
    omega
  refine ⟨h.frame.transfer hf, ?_, ?_, ?_, ?_, ?_⟩ <;> rw [hf.endOff]
  · rw [← h.head]; simp
  · exact h.linked.split hlo hhi hx hm (fun hne => hnext (hbehind hne)) hview
  · simp only [forall_mem_append, forall_mem_cons]
    exact ⟨hblocks.1, hok, hok', hblocks.2.2⟩
  · rw [hend]; exact h.endNext
  · rw [hend]; exact h.endTag

/-- A header that is skipped merges its block into the one before it; the `prev` of whatever is
behind, `heap_end` included, is rewritten. -/
theorem mergeBlocks (h : Chain s (l ++ x :: y :: r)) (hf : SameFrame s s')
    (hn : headOff r s.endOff = n)
    (hx : s'.view x.off = { s.view x.off with next := n })
    (hnext : s'.view n = { s.view n with prev := x.off })
    (hview : ∀ o, o + 16 ≤ x.off ∨ n + 16 ≤ o → s'.view o = s.view o) :
    Chain s' (l ++ x :: r) := by
  obtain ⟨hl, hgap, hr, hle⟩ := h.around
  obtain ⟨-, hgapy, hry, hley⟩ := (show Chain s ((l ++ [x]) ++ y :: r) by simpa using h).around
  subst hn
  have hblocks := h.blocks
  simp only [forall_mem_append, forall_mem_cons] at hblocks
  -- `heap_end` is either the block behind, or untouched
  have hend : (s'.view s.endOff).next = (s.view s.endOff).next ∧
      (s'.view s.endOff).tag = (s.view s.endOff).tag := by
    cases r with
    | nil =>
      simp only [headOff_nil] at hnext
      rw [hnext]
      exact ⟨rfl, rfl⟩
    | cons z r' =>
      have hz := hry z mem_cons_self
      rw [hview _ (.inr (by omega))]
      exact ⟨rfl, rfl⟩
  refine ⟨h.frame.transfer hf, ?_, ?_, ?_, ?_, ?_⟩ <;> rw [hf.endOff]
  · rw [← h.head]; simp
  · exact h.linked.merge hx (fun _ => hnext) hview
  · simp only [forall_mem_append, forall_mem_cons]
    exact ⟨hblocks.1, hblocks.2.1, hblocks.2.2.2⟩
  · rw [hend.1]; exact h.endNext
  · rw [hend.2]; exact h.endTag

end Chain
end RtThread.Mem
