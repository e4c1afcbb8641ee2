import RtThread.Mem.Realloc
import RtThread.Lib.Run
import Mathlib.Data.Finset.Basic
import Mathlib.Data.Set.Pairwise.Lattice
import Mathlib.Order.CompletePartialOrder

/-!
# Programs on the heap

A program calls the four functions of the heap in any order and writes into the areas it holds.
It hands `rt_free` and `rt_realloc` only `RT_NULL` or a pointer it holds. `WellFormed` is what the
heap owes the program in return.
-/

namespace RtThread.Mem
open BlockChain
open Heap
open List

/-- A step of a program: a call, or a store of one byte. -/
inductive Call
  | malloc (size : BitVec 32)
  | calloc (count size : BitVec 32)
  | realloc (rmem : Nat) (newsize : BitVec 32)
  | free (rmem : Nat)
  | store (a : Nat) (v : BitVec 8)
  deriving DecidableEq

/-- The heap and the pointers the program holds. -/
structure Sys where
  heap : Heap
  live : Finset Nat

/-- A pointer returned by an allocation is held unless it is `RT_NULL`. -/
def hand (p : Nat) (live : Finset Nat) : Finset Nat := if p = rtNull then live else insert p live

/-- The effect of a call, `none` if it never returns. A failed `rt_realloc` leaves the old pointer
with the program. -/
def call (σ : Sys) : Call → Option Sys
  | .malloc size => (rtMalloc σ.heap size.toNat).map fun (p, s) => ⟨s, hand p σ.live⟩
  | .calloc count size =>
    (rtCalloc σ.heap count.toNat size.toNat).map fun (p, s) => ⟨s, hand p σ.live⟩
  | .realloc rmem newsize =>
    (rtRealloc σ.heap rmem newsize.toNat).map fun (p, s) =>
      ⟨s, if p = rtNull then σ.live else insert p (σ.live.erase rmem)⟩
  | .free rmem => some ⟨rtFree σ.heap rmem, σ.live.erase rmem⟩
  | .store a v => some ⟨{ σ.heap with mem := Function.update σ.heap.mem a v }, σ.live⟩

/-- The area behind the pointer `p`: from `p` to the next header. -/
def userArea (s : Heap) (p : Nat) : Set Nat :=
  Set.Ico p (s.heapPtr + s.next (p - sizeofStructMem))

def Legal (σ : Sys) : Call → Prop
  | .malloc _ | .calloc _ _ => True
  | .realloc p _ | .free p => p = rtNull ∨ p ∈ σ.live
  | .store a _ => ∃ p ∈ σ.live, a ∈ userArea σ.heap p

/-- `p` is the payload of a used block of the chain `bs`. -/
def IsUser (s : Heap) (bs : List Blk) (p : Nat) : Prop :=
  ∃ x ∈ bs, x.tag.used ≠ 0 ∧ p = s.heapPtr + x.off + 16

/-- The blocks `bs` tile the heap from offset zero to `heap_end`, aligned, linked in both
directions, with their magic, no two neighbours unused; the areas the program holds are exactly
the payloads of the used blocks, pairwise disjoint and inside the heap. -/
structure WellFormed (σ : Sys) (bs : List Blk) : Prop where
  layout : Layout σ.heap bs
  live : ∀ p, p ∈ σ.live ↔ IsUser σ.heap bs p
  disjoint : (σ.live : Set Nat).PairwiseDisjoint (userArea σ.heap)
  inside : ∀ p ∈ σ.live, userArea σ.heap p ⊆ Set.Ico σ.heap.heapPtr σ.heap.heapEnd

variable {s s' : Heap} {σ σ' : Sys} {bs l r : List Blk} {x : Blk} {p size : Nat} {m : ByteMem}

theorem Chain.userArea_eq (h : Chain s (l ++ x :: r)) : userArea s (s.heapPtr + x.off + 16) =
      Set.Ico (s.heapPtr + x.off + 16) (s.heapPtr + headOff r s.endOff) := by
  rw [userArea, sub_sizeofStructMem, next_eq_view, h.view_eq]

theorem Chain.userArea_disjoint {y : Blk} (h : Chain s bs) (hx : x ∈ bs) (hy : y ∈ bs)
    (hlt : x.off < y.off) :
    Disjoint (userArea s (s.heapPtr + x.off + 16)) (userArea s (s.heapPtr + y.off + 16)) := by
  obtain ⟨l, r, rfl⟩ := append_of_mem hx
  obtain ⟨hl, hgap, hr, -⟩ := h.around
  have hyr : y ∈ r := by
    simp only [mem_append, mem_cons] at hy
    obtain hy | rfl | hy := hy
    · have := hl y hy
      omega
    · omega
    · exact hy
  have := (hr y hyr).1
  rw [h.userArea_eq, userArea]
  exact Set.disjoint_left.mpr fun a ha ha' => by
    have := ha.2
    have := ha'.1
    omega

theorem WellFormed.of_layout (h : Layout σ.heap bs)
    (hlive : ∀ p, p ∈ σ.live ↔ IsUser σ.heap bs p) : WellFormed σ bs where
  layout := h
  live := hlive
  disjoint := by
    intro p hp q hq hne
    obtain ⟨x, hx, -, rfl⟩ := (hlive p).mp hp
    obtain ⟨y, hy, -, rfl⟩ := (hlive q).mp hq
    rcases Nat.lt_trichotomy x.off y.off with hlt | heq | hgt
    · exact h.userArea_disjoint hx hy hlt
    · exact absurd (by rw [heq]) hne
    · exact (h.userArea_disjoint hy hx hgt).symm
  inside := by
    intro p hp a ha
    obtain ⟨x, hx, -, rfl⟩ := (hlive p).mp hp
    obtain ⟨l, r, rfl⟩ := append_of_mem hx
    have hle := h.around.2.2.2
    have hend := h.frame.heapEnd
    rw [h.userArea_eq] at ha
    exact ⟨by have := ha.1; omega, by have := ha.2; omega⟩

theorem IsUser.congr (hf : SameFrame s s') (h : ∀ z : Blk, z.tag.used ≠ 0 → (z ∈ bs ↔ z ∈ l)) :
    IsUser s' bs p ↔ IsUser s l p := by
  simp only [IsUser, hf.heapPtr]
  refine exists_congr fun z => ⟨fun ⟨hz, hu, hp⟩ => ⟨(h z hu).mp hz, hu, hp⟩,
    fun ⟨hz, hu, hp⟩ => ⟨(h z hu).mpr hz, hu, hp⟩⟩

theorem isUser_taken (hf : SameFrame s s') (hx : x.tag.used = 0) :
    IsUser s' (l ++ taken s.endOff size x r) p ↔
      p = s.heapPtr + x.off + 16 ∨ IsUser s (l ++ x :: r) p := by
  simp only [IsUser, hf.heapPtr]
  constructor
  · rintro ⟨z, hz, hu, hp⟩
    obtain rfl | hz := (mem_taken_of_used hu).mp hz
    · exact .inl hp
    · exact .inr ⟨z, by simp only [mem_append, mem_cons]; tauto, hu, hp⟩
  · rintro (hp | ⟨z, hz, hu, hp⟩)
    · exact ⟨⟨x.off, usedTag⟩, (mem_taken_of_used usedTag_used).mpr (.inl rfl), usedTag_used, hp⟩
    · have hne : z ≠ x := by rintro rfl; exact hu hx
      refine ⟨z, (mem_taken_of_used hu).mpr (.inr ?_), hu, hp⟩
      simpa [hne] using hz

theorem isUser_plugged (h : Chain s (l ++ x :: r)) (hf : SameFrame s s') :
    IsUser s' (plugged l ⟨x.off, freeTag⟩ r) p ↔
      p ≠ s.heapPtr + x.off + 16 ∧ IsUser s (l ++ x :: r) p := by
  simp only [IsUser, hf.heapPtr]
  constructor
  · rintro ⟨z, hz, hu, hp⟩
    have hlr := (mem_plug (F := fun t : Tag => t.used = 0) rfl hu).mp hz
    obtain ⟨hl, hgap, hr, -⟩ := h.around
    have hoff : z.off ≠ x.off := by
      rcases hlr with hz | hz
      · have := hl z hz
        omega
      · have := hr z hz
        omega
    exact ⟨by omega, z, by simp only [mem_append, mem_cons]; tauto, hu, hp⟩
  · rintro ⟨hne, z, hz, hu, hp⟩
    have hzx : z ≠ x := by rintro rfl; exact hne hp
    exact ⟨z, (mem_plug (F := fun t : Tag => t.used = 0) rfl hu).mpr (by simpa [hzx] using hz), hu,
      hp⟩

theorem isUser_split {m : Nat} (hf : SameFrame s s') :
    IsUser s' (l ++ x :: ⟨m, freeTag⟩ :: joinRight r) p ↔ IsUser s (l ++ x :: r) p := by
  refine IsUser.congr hf fun z hu => ?_
  have hne : z ≠ ⟨m, freeTag⟩ := by rintro rfl; exact hu rfl
  simp [hne, mem_dropFree (F := fun t : Tag => t.used = 0) hu]

theorem IsUser.split (h : IsUser s bs p) :
    ∃ l x r, bs = l ++ x :: r ∧ x.tag.used ≠ 0 ∧ p = s.heapPtr + x.off + 16 := by
  obtain ⟨x, hx, hu, hp⟩ := h
  obtain ⟨l, r, hbs⟩ := append_of_mem hx
  exact ⟨l, x, r, hbs, hu, hp⟩

theorem WellFormed.null_not_live (h : WellFormed σ bs) : rtNull ∉ σ.live := by
  intro hmem
  obtain ⟨x, -, -, hp⟩ := (h.live rtNull).mp hmem
  exact payload_ne_null _ hp.symm

theorem WellFormed.allocated (h : WellFormed σ (l ++ x :: r)) (ha : Allocated σ.heap size l x r s')
    (hlay : Layout { s' with mem := m } (l ++ taken σ.heap.endOff size x r)) :
    WellFormed ⟨{ s' with mem := m }, hand (σ.heap.heapPtr + x.off + 16) σ.live⟩
      (l ++ taken σ.heap.endOff size x r) := by
  refine .of_layout hlay fun p => ?_
  have hframe : SameFrame σ.heap { s' with mem := m } := ⟨ha.frame.1, ha.frame.2, ha.frame.3⟩
  rw [hand, if_neg (payload_ne_null _), Finset.mem_insert, h.live,
    ← isUser_taken hframe ha.fits.unused]

theorem WellFormed.freed (h : WellFormed σ (l ++ x :: r)) (hx : x.tag.used ≠ 0)
    (hp : p = σ.heap.heapPtr + x.off + 16) :
    WellFormed ⟨rtFree σ.heap p, σ.live.erase p⟩ (plugged l ⟨x.off, freeTag⟩ r) ∧
      SameFrame σ.heap (rtFree σ.heap p) := by
  subst hp
  obtain ⟨lf, hlf, -⟩ := h.layout.lfree
  obtain ⟨hlay, hf, -⟩ := rtFree_spec h.layout hx hlf
  refine ⟨.of_layout hlay fun p => ?_, hf⟩
  rw [Finset.mem_erase, h.live, isUser_plugged h.layout.toChain hf]

/-- A call returns, in a well-formed state. -/
def Returns (σ : Sys) (c : Call) : Prop :=
  ∃ σ', call σ c = some σ' ∧ σ'.heap.memSizeAligned = σ.heap.memSizeAligned ∧ ∃ bs, WellFormed σ' bs

@[simp] theorem hand_null (live : Finset Nat) : hand rtNull live = live := if_pos rfl

section
variable (h : WellFormed σ bs) (hmin : minSizeAligned ≤ σ.heap.memSizeAligned)
include h hmin

theorem rtMalloc_returns (req : Nat) : ∃ q s', rtMalloc σ.heap req = some (q, s') ∧
      s'.memSizeAligned = σ.heap.memSizeAligned ∧ ∃ bs', WellFormed ⟨s', hand q σ.live⟩ bs' := by
  rcases rtMalloc_spec h.layout hmin req with ⟨hret, -⟩ | ⟨l, x, r, s', rfl, hret, ha⟩
  · exact ⟨_, _, hret, rfl, bs, by simpa using h⟩
  · exact ⟨_, _, hret, ha.frame.memSize, _, h.allocated ha ha.layout⟩

theorem malloc_returns (req : BitVec 32) : Returns σ (.malloc req) := by
  obtain ⟨q, s', hret, hsize, hwf⟩ := rtMalloc_returns h hmin req.toNat
  exact ⟨_, by rw [call, hret]; rfl, hsize, hwf⟩

theorem realloc_null_returns (newsize : BitVec 32) : Returns σ (.realloc rtNull newsize) := by
  have hlive : ∀ q, (if q = rtNull then σ.live else insert q (σ.live.erase rtNull)) =
      hand q σ.live := by
    intro q
    rw [hand, Finset.erase_eq_of_notMem h.null_not_live]
  simp only [Returns, call, rtRealloc_null]
  by_cases hbig : σ.heap.memSizeAligned < rtAlign newsize.toNat rtAlignSize
  · rw [if_pos hbig]
    exact ⟨σ, by simp, rfl, bs, h⟩
  · obtain ⟨q, s', hret, hsize, hwf⟩ := rtMalloc_returns h hmin (rtAlign newsize.toNat rtAlignSize)
    rw [if_neg hbig, hret]
    exact ⟨⟨s', hand q σ.live⟩, by simp [hlive], hsize, hwf⟩

end

/-- `rt_realloc` on a held pointer: the pointer stays, or is exchanged for the new one. -/
theorem realloc_returns (h : WellFormed σ (l ++ x :: r)) (hx : x.tag.used ≠ 0)
    (hmin : minSizeAligned ≤ σ.heap.memSizeAligned) (newsize : BitVec 32) :
    Returns σ (.realloc (σ.heap.heapPtr + x.off + 16) newsize) := by
  have hmem : σ.heap.heapPtr + x.off + 16 ∈ σ.live := (h.live _).mpr ⟨x, by simp, hx, rfl⟩
  obtain ⟨q, s', hret, hout⟩ := rtRealloc_spec h.layout hx hmin newsize.toNat
  refine ⟨_, by rw [call, hret]; rfl, ?_⟩
  cases hout with
  | refused _ => exact ⟨rfl, _, by simpa using h⟩
  | kept _ => exact ⟨rfl, _, by simpa [payload_ne_null, Finset.insert_erase hmem] using h⟩
  | split hsize heq =>
    obtain ⟨lf, hlf, -⟩ := h.layout.lfree
    obtain ⟨hlay, hf, -⟩ := reallocSplit_spec (headOff r σ.heap.endOff - x.off - 16)
      h.layout hx hlf rfl (dvd_rtAlign newsize.toNat) (by simp only [rtAlignSize] at hsize; omega)
    rw [← rtAlignSize, ← heq] at hlay hf
    refine ⟨hf.memSize, _, .of_layout hlay fun p => ?_⟩
    simp only [if_neg (payload_ne_null _), Finset.insert_erase hmem]
    rw [h.live, isUser_split hf]
  | @moved l1 r1 l2 r2 y s1 m _ hbs _ ha hbs2 hlay =>
    -- allocate, then release
    have halloc := (hbs ▸ h).allocated ha (hbs2 ▸ hlay)
    rw [hbs2] at halloc
    obtain ⟨hfreed, hf⟩ := halloc.freed hx rfl
    refine ⟨hf.memSize.trans ha.frame.memSize, plugged l2 ⟨x.off, freeTag⟩ r2, ?_⟩
    have hxy : x ≠ y := by rintro rfl; exact hx ha.fits.unused
    have hoff : y.off ≠ x.off := fun heq =>
      hxy (h.layout.off_injective (by simp) (hbs ▸ (by simp)) heq.symm)
    have hset : (hand (σ.heap.heapPtr + y.off + 16) σ.live).erase (s1.heapPtr + x.off + 16) =
        insert (σ.heap.heapPtr + y.off + 16) (σ.live.erase (σ.heap.heapPtr + x.off + 16)) := by
      rw [hand, if_neg (payload_ne_null _), ha.frame.heapPtr, Finset.erase_insert_of_ne (by omega)]
    simp only [hset] at hfreed
    simpa only [if_neg (payload_ne_null _)] using hfreed

theorem free_returns (h : WellFormed σ bs) (hp : p = rtNull ∨ p ∈ σ.live) :
    Returns σ (.free p) := by
  rcases hp with rfl | hp
  · refine ⟨σ, ?_, rfl, bs, h⟩
    rw [call, Finset.erase_eq_of_notMem h.null_not_live, rtFree, if_pos rfl]
  · obtain ⟨l, x, r, rfl, hx, rfl⟩ := ((h.live p).mp hp).split
    obtain ⟨hwf, hf⟩ := h.freed hx rfl
    exact ⟨_, rfl, hf.memSize, _, hwf⟩

theorem WellFormed.stored (h : WellFormed σ bs) {a : Nat} (v : BitVec 8)
    (ha : ∃ p ∈ σ.live, a ∈ userArea σ.heap p) :
    WellFormed ⟨{ σ.heap with mem := Function.update σ.heap.mem a v }, σ.live⟩ bs := by
  obtain ⟨p, hp, hin⟩ := ha
  obtain ⟨l, x, r, rfl, hx, rfl⟩ := ((h.live p).mp hp).split
  rw [h.layout.userArea_eq] at hin
  refine .of_layout (h.layout.payloadWrite fun b hb => ?_) h.live
  have hlo := hin.1
  have hhi := hin.2
  exact Function.update_of_ne (by omega) _ _

/-- `rt_calloc` may zero what it was asked for: the request does not wrap to zero when rounded up,
or it is refused since no block from `lfree` on can hold even the smallest request. -/
def CallocSafe (s : Heap) (count size : Nat) : Prop :=
  callocBytes count size + 7 < 2 ^ 32 ∨ ∀ bs, Layout s bs → NoFit s bs minSizeAligned

theorem blockSize_wrap {n : Nat} (h : 2 ^ 32 ≤ n + 7) (hn : n < 2 ^ 32) :
    rtAlign n rtAlignSize = 0 ∧ blockSize (rtAlign n rtAlignSize) = minSizeAligned := by
  have hzero : rtAlign n rtAlignSize = 0 := by
    rw [rtAlignSize, rtAlign_eight]
    omega
  exact ⟨hzero, by rw [hzero]; rfl⟩

/-- A fill that reaches `2 ^ 32` from inside the heap zeroes the magic of `heap_end`. -/
theorem fill_breaks {a n : Nat} (hframe : Frame s) (ha : a ≤ s.heapPtr + s.endOff)
    (hn : 2 ^ 32 ≤ a + n) : ¬ Layout { s with mem := s.mem.fill a n 0 } bs := by
  intro h
  have hfits := hframe.fits
  have hmagic : (Heap.view { s with mem := s.mem.fill a n 0 } s.endOff).tag.magic = 0 :=
    ByteMem.readLE_fill_zero s.mem ha (by simp only; omega)
  have hend := h.endTag
  rw [Heap.endOff] at hend hmagic
  rw [hend] at hmagic
  exact absurd hmagic (by decide)

/-- `rt_calloc` always returns; the heap is well formed afterwards exactly if it was safe. -/
theorem calloc_returns (h : WellFormed σ bs) (hmin : minSizeAligned ≤ σ.heap.memSizeAligned)
    (count size : BitVec 32) :
    ∃ σ', call σ (.calloc count size) = some σ' ∧ σ'.heap.memSizeAligned = σ.heap.memSizeAligned ∧
      ((∃ bs, WellFormed σ' bs) ↔ CallocSafe σ.heap count.toNat size.toNat) := by
  have hlt : callocBytes count.toNat size.toNat < 2 ^ 32 := Nat.mod_lt _ (by decide)
  -- what a refusal of a wrapping request means
  have hrefused : rtCalloc σ.heap count.toNat size.toNat = some (rtNull, σ.heap) →
      CallocSafe σ.heap count.toNat size.toNat := by
    intro hret
    by_cases hwrap : callocBytes count.toNat size.toNat + 7 < 2 ^ 32
    · exact .inl hwrap
    obtain ⟨hzero, hblock⟩ := blockSize_wrap (Nat.le_of_not_lt hwrap) hlt
    refine .inr fun bs' hbs' => ?_
    rcases rtCalloc_spec hbs' hmin count.toNat size.toNat with
      ⟨-, hn | hbig | hno⟩ | ⟨l, x, r, s', -, -, hret'⟩
    · omega
    · omega
    · rwa [hblock] at hno
    · rw [hret] at hret'
      simp [rtNull] at hret'
  rcases rtCalloc_spec h.layout hmin count.toNat size.toNat with
    ⟨hret, -⟩ | ⟨l, x, r, s', rfl, ha, hret⟩
  · exact ⟨σ, by simp [call, hret], rfl, fun _ => hrefused hret, fun _ => ⟨bs, h⟩⟩
  · refine ⟨_, by rw [call, hret]; rfl, ha.frame.memSize, ?_⟩
    by_cases hwrap : callocBytes count.toNat size.toNat + 7 < 2 ^ 32
    · exact ⟨fun _ => .inl hwrap, fun _ => ⟨_, h.allocated ha (ha.fill 0 hwrap)⟩⟩
    · have hroom := h.layout.bounds x (by simp)
      have hbroken : ∀ bs', ¬ Layout { s' with
          mem := s'.mem.fill (σ.heap.heapPtr + x.off + 16)
            (callocBytes count.toNat size.toNat) 0 } bs' := fun bs' =>
        fill_breaks ha.layout.frame (by rw [ha.frame.heapPtr, ha.frame.endOff]; omega) (by omega)
      constructor
      · rintro ⟨bs', hwf⟩
        exact absurd hwf.layout (hbroken bs')
      rintro (hsafe | hno)
      · exact absurd hsafe hwrap
      · rw [(blockSize_wrap (Nat.le_of_not_lt hwrap) hlt).2] at ha
        exact absurd ha.fits (hno _ h.layout l x r rfl ha.above)

theorem initStart_headerAt (hsize : s.memSizeAligned + sizeofStructMem < 2 ^ 32) :
    (initStart s).headerAt s.heapPtr = ⟨s.memSizeAligned + sizeofStructMem, 0, freeTag⟩ := by
  simp only [initStart, setMagic_memSizeAligned]
  rw [headerAt_setUsed_same (by decide), headerAt_setPrev_same (by decide),
    headerAt_setNext_same hsize, headerAt_setMagic_same (by decide)]
  rfl

theorem initEnd_headerAt (mem : Nat) {e : Nat} (hnext : s.next mem = e)
    (hsize : s.memSizeAligned + sizeofStructMem < 2 ^ 32) :
    (initEnd s mem).headerAt (s.heapPtr + e) =
      ⟨s.memSizeAligned + sizeofStructMem, s.memSizeAligned + sizeofStructMem, usedTag⟩ ∧
    ∀ b, b + 12 ≤ s.heapPtr + e → (initEnd s mem).headerAt b = s.headerAt b := by
  simp only [initEnd, hnext, setUsed_memSizeAligned, setMagic_memSizeAligned,
    setNext_memSizeAligned]
  refine ⟨headerAt_newHeader (by decide) (by decide) hsize hsize, fun b hb => ?_⟩
  simp (disch := omega)
  rfl

variable {beginAddr endAddr : Nat}

theorem rtSystemHeapInit_layout (h : rtSystemHeapInit m beginAddr endAddr = some s) :
    Layout s [⟨0, freeTag⟩] ∧ s.lfree = s.heapPtr := by
  have hdown := rtAlignDown_eight endAddr
  have h8 := dvd_rtAlign beginAddr
  simp only [rtSystemHeapInit, Option.ite_none_right_eq_some, Option.some.injEq,
    sizeofStructMem_eq, rtAlignSize] at h
  generalize rtAlign beginAddr 8 = b at h h8
  generalize rtAlignDown endAddr 8 = e at h hdown
  obtain ⟨⟨hlo, hle⟩, rfl⟩ := h
  -- the state before the first header is written
  generalize hs0 : (⟨m, b, 0, 0, e - b - 2 * 16, 0, 0⟩ : Heap) = s0
  have hptr : s0.heapPtr = b := by rw [← hs0]
  have hsize : s0.memSizeAligned = e - b - 2 * 16 := by rw [← hs0]
  have hfits : s0.heapPtr + s0.endOff + 16 < 2 ^ 32 := by
    rw [Heap.endOff, sizeofStructMem_eq, hsize, hptr]; omega
  have hfirst := initStart_headerAt (s := s0) (by rw [Heap.endOff] at hfits; omega)
  obtain ⟨hend, hkeep⟩ := initEnd_headerAt s0.heapPtr
    (congrArg Header.next hfirst) (by
      change s0.memSizeAligned + sizeofStructMem < 2 ^ 32
      rw [Heap.endOff] at hfits; omega)
  have hview0 : (initEnd (initStart s0) s0.heapPtr).view 0 = ⟨s0.endOff, 0, freeTag⟩ := by
    refine (hkeep s0.heapPtr ?_).trans hfirst
    change s0.heapPtr + 12 ≤ s0.heapPtr + s0.endOff
    rw [Heap.endOff, sizeofStructMem_eq]; omega
  have hviewEnd : (initEnd (initStart s0) s0.heapPtr).view s0.endOff =
      ⟨s0.endOff, s0.endOff, usedTag⟩ := hend
  rw [← hptr]
  refine ⟨⟨⟨⟨?_, hfits, ?_, ?_⟩, rfl, ?_, ?_, congrArg Header.next hviewEnd,
    congrArg Header.tag hviewEnd⟩, isChain_singleton _, 0, rfl,
    .inr ⟨⟨0, freeTag⟩, by simp, rfl⟩⟩, rfl⟩
  · exact congrArg (s0.heapPtr + Header.next ·) hfirst
  · rw [← hptr] at h8
    exact h8
  · change 8 ∣ s0.memSizeAligned + sizeofStructMem
    rw [hsize, sizeofStructMem_eq]; omega
  · exact linked_cons.mpr ⟨hview0, by
      change 0 + 16 ≤ s0.memSizeAligned + sizeofStructMem
      rw [sizeofStructMem_eq]; omega, trivial⟩
  · simp only [mem_singleton, forall_eq]
    exact ⟨rfl, Nat.dvd_zero 8, fun hne => absurd rfl hne⟩

theorem wellFormed_init (h : rtSystemHeapInit m beginAddr endAddr = some s) :
    WellFormed ⟨s, ∅⟩ [⟨0, freeTag⟩] :=
  .of_layout (rtSystemHeapInit_layout h).1 (by simp [IsUser, freeTag])

/-- The one thing a program must not ask for. -/
def Safe (σ : Sys) : Call → Prop
  | .calloc count size => CallocSafe σ.heap count.toNat size.toNat
  | _ => True

def LegalStep (σ : Sys) (c : Call) (σ' : Sys) : Prop := Legal σ c ∧ call σ c = some σ'

def SafeStep (σ : Sys) (c : Call) (σ' : Sys) : Prop := Safe σ c ∧ LegalStep σ c σ'

/-- Every legal call returns, and the heap is well formed afterwards exactly if it was safe. -/
theorem call_returns (h : WellFormed σ bs) (hmin : minSizeAligned ≤ σ.heap.memSizeAligned)
    {c : Call} (hc : Legal σ c) :
    ∃ σ', call σ c = some σ' ∧ σ'.heap.memSizeAligned = σ.heap.memSizeAligned ∧
      ((∃ bs, WellFormed σ' bs) ↔ Safe σ c) := by
  have hall : Returns σ c → Safe σ c → ∃ σ', call σ c = some σ' ∧
      σ'.heap.memSizeAligned = σ.heap.memSizeAligned ∧ ((∃ bs, WellFormed σ' bs) ↔ Safe σ c) :=
    fun ⟨σ', hret, hsize, hwf⟩ hsafe => ⟨σ', hret, hsize, fun _ => hsafe, fun _ => hwf⟩
  cases c with
  | malloc size => exact hall (malloc_returns h hmin size) trivial
  | calloc count size => exact calloc_returns h hmin count size
  | realloc rmem newsize =>
    refine hall ?_ trivial
    rcases hc with rfl | hp
    · exact realloc_null_returns h hmin newsize
    · obtain ⟨l, x, r, rfl, hx, rfl⟩ := ((h.live rmem).mp hp).split
      exact realloc_returns h hx hmin newsize
  | free rmem => exact hall (free_returns h hc) trivial
  | store a v => exact hall ⟨_, rfl, rfl, bs, h.stored v hc⟩ trivial

/-- In every run of safe steps the heap stays well formed. At each point of such a run every legal
call returns, and a call that is not safe is one that damages the heap. -/
theorem wellFormed_of_safe_run {m : ByteMem} {beginAddr endAddr : Nat} {s₀ : Heap}
    (hinit : rtSystemHeapInit m beginAddr endAddr = some s₀)
    (hmin : minSizeAligned ≤ s₀.memSizeAligned) {cs : List Call}
    (hrun : Run SafeStep ⟨s₀, ∅⟩ cs σ) :
    (∃ bs, WellFormed σ bs) ∧
      ∀ c, Legal σ c → ∃ σ', call σ c = some σ' ∧ ((∃ bs, WellFormed σ' bs) ↔ Safe σ c) := by
  have hinv : (∃ bs, WellFormed σ bs) ∧ minSizeAligned ≤ σ.heap.memSizeAligned := by
    refine hrun.state_invariant ⟨⟨_, wellFormed_init hinit⟩, hmin⟩ ?_
    rintro τ c τ' ⟨⟨bs, hwf⟩, hsize⟩ ⟨hsafe, hlegal, hcall⟩
    obtain ⟨τ'', hret, hsize', hiff⟩ := call_returns hwf hsize hlegal
    cases hret.symm.trans hcall
    exact ⟨hiff.mpr hsafe, hsize'.symm ▸ hsize⟩
  obtain ⟨⟨bs, hwf⟩, hsize⟩ := hinv
  refine ⟨⟨bs, hwf⟩, fun c hc => ?_⟩
  obtain ⟨σ', hret, -, hiff⟩ := call_returns hwf hsize hc
  exact ⟨σ', hret, hiff⟩

/-- A call of `rt_malloc`, or of `rt_free` with a pointer that is held. -/
def AllocStep (σ : Sys) (c : Call) (σ' : Sys) : Prop :=
  LegalStep σ c σ' ∧ match c with
    | .malloc _ | .free _ => True
    | .calloc _ _ | .realloc _ _ | .store _ _ => False

theorem AllocStep.safe {c : Call} (h : AllocStep σ c σ') : SafeStep σ c σ' := by
  cases c with
  | malloc | free => exact ⟨trivial, h.1⟩
  | calloc | realloc | store => exact h.2.elim

def nextAlloc (σ : Sys) (c : Call) : Option (Call × Sys) :=
  match c with
  | .malloc _ => (call σ c).map (c, ·)
  | .free rmem => if rmem ∈ σ.live then (call σ c).map (c, ·) else none
  | .calloc _ _ | .realloc _ _ | .store _ _ => none

theorem allocStep_of_nextAlloc {a c : Call} (h : nextAlloc σ c = some (a, σ')) :
    AllocStep σ a σ' := by
  cases c with
  | malloc size =>
    obtain ⟨σ'', hcall, heq⟩ := Option.map_eq_some_iff.mp h
    cases heq
    exact ⟨⟨trivial, hcall⟩, trivial⟩
  | free rmem =>
    obtain ⟨hmem, h⟩ := Option.ite_none_right_eq_some.mp h
    cases h
    exact ⟨⟨.inr hmem, rfl⟩, trivial⟩
  | calloc | realloc | store => cases h

/-- Four blocks are handed out, and those of 16 and 48 bytes that have another one behind them are
freed. -/
def fragments : List Call := [.malloc 16, .malloc 16, .malloc 48, .malloc 16, .free 24, .free 88]

theorem run_fragments : ∃ s₀ σ s', rtSystemHeapInit (fun _ => 0) 8 296 = some s₀ ∧
    Run AllocStep ⟨s₀, ∅⟩ fragments σ ∧ Run SafeStep ⟨s₀, ∅⟩ fragments σ ∧
      s₀.memSizeAligned = 256 ∧ σ.heap.memSizeAligned = 256 ∧
        rtMalloc σ.heap 40 = some (88, s') := by
  have hvalue : (rtSystemHeapInit (fun _ => 0) 8 296).map (fun s₀ =>
      let r := Run.exec nextAlloc ⟨s₀, ∅⟩ fragments
      (r.1, s₀.memSizeAligned, r.2.heap.memSizeAligned, (rtMalloc r.2.heap 40).map Prod.fst)) =
        some (fragments, 256, 256, some 88) := by decide +kernel
  obtain ⟨s₀, hinit, hvalue⟩ := Option.map_eq_some_iff.mp hvalue
  simp only [Prod.mk.injEq] at hvalue
  obtain ⟨hcalls, hsize, hsize', hmalloc⟩ := hvalue
  obtain ⟨⟨p, s'⟩, hmalloc, rfl⟩ := Option.map_eq_some_iff.mp hmalloc
  have hrun := @Run.of_exec _ _ AllocStep _ nextAlloc allocStep_of_nextAlloc ⟨s₀, ∅⟩ fragments
  rw [hcalls] at hrun
  exact ⟨s₀, _, s', hinit, hrun, hrun.mono AllocStep.safe, hsize, hsize', hmalloc⟩

theorem wellFormed_of_safe_run_fragments : ∃ s₀ σ,
    rtSystemHeapInit (fun _ => 0) 8 296 = some s₀ ∧ Run SafeStep ⟨s₀, ∅⟩ fragments σ ∧
      ∃ bs, WellFormed σ bs := by
  obtain ⟨s₀, σ, -, hinit, -, hrun, hsize, -⟩ := run_fragments
  exact ⟨s₀, σ, hinit, hrun, (wellFormed_of_safe_run hinit (by rw [hsize]; decide) hrun).1⟩

theorem exists_small_heap : ∃ s0, rtSystemHeapInit (fun _ => 0) 8 72 = some s0 ∧
    s0.memSizeAligned = 32 := by
  simp only [rtSystemHeapInit]
  exact ⟨_, if_pos (by decide), rfl⟩

/-- `rt_calloc(1, 0xffffffff)` on a fresh heap gets a block of sixteen bytes, since the rounded
size wraps to zero, and zeroes the header of `heap_end` along with everything else. -/
theorem calloc_wrap_breaks_heap : ∃ s₀ σ,
    rtSystemHeapInit (fun _ => 0) 8 72 = some s₀ ∧ minSizeAligned ≤ s₀.memSizeAligned ∧
      Run LegalStep ⟨s₀, ∅⟩ [.calloc 1 0xFFFFFFFF] σ ∧ ¬ ∃ bs, WellFormed σ bs := by
  obtain ⟨s₀, hinit, hsize⟩ := exists_small_heap
  have hmin : minSizeAligned ≤ s₀.memSizeAligned := by rw [hsize]; decide
  have hwf := wellFormed_init hinit
  obtain ⟨σ, hret, -, hiff⟩ := calloc_returns hwf hmin 1 0xFFFFFFFF
  refine ⟨s₀, σ, hinit, hmin, Run.nil.snoc ⟨trivial, hret⟩, fun hex => ?_⟩
  rcases hiff.mp hex with hwrap | hno
  · exact absurd hwrap (by decide)
  · refine hno _ hwf.layout [] ⟨0, freeTag⟩ [] rfl (rtSystemHeapInit_layout hinit).2.le
      ⟨rfl, ?_, ?_⟩
    · rw [hsize]; decide
    · rw [headOff_nil, Heap.endOff, hsize]; decide

end RtThread.Mem
