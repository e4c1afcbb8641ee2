import RtThread.Mem.Requests

/-!
# `rt_malloc_align` and `rt_free_align`

An aligned area is cut out of a block that is larger by the alignment, and the pointer to the block
is kept in the four bytes in front of the area. The area lies in the block if and only if the size
of the block does not wrap around.
-/

namespace RtThread.Mem
open Nat
open BlockChain

/-- `align_size` (`kservice.c:1171`), for an `align` that has been rounded up. -/
def alignSize (size align : Nat) : Nat := (rtAlign size 4 + align) % 2 ^ 32

/-- `align_ptr` (`:1177-1184`). -/
def alignPtr (ptr align : Nat) : Nat :=
  if ptr &&& sub32 align 1 = 0 then (ptr + align) % 2 ^ 32 else rtAlign ptr align

/-- `rt_malloc_align` (`:1161-1193`); `(x + 0x03) & ~0x03` is `RT_ALIGN(x, 4)` written
out. -/
def rtMallocAlign (s : Heap) (size align : Nat) : Option (Nat × Heap) := do
  let align := rtAlign align 4
  let (ptr, s) ← rtMalloc s (alignSize size align)
  if ptr ≠ rtNull then
    -- set the pointer before alignment pointer to the real pointer
    let mem := s.mem.writeLE 4 (sub32 (alignPtr ptr align) 4) ptr
    return (alignPtr ptr align, { s with mem := mem })
  else return (ptr, s)

/-- `rt_free_align` (`:1202-1208`). -/
def rtFreeAlign (s : Heap) (ptr : Nat) : Heap := rtFree s (s.mem.readLE 4 (sub32 ptr 4))

variable {s s' : Heap} {σ : Sys} {bs l r : List Blk} {x : Blk} {p q k size : Nat}

theorem four_dvd_two_pow (hk : 2 ≤ k) : 4 ∣ 2 ^ k := pow_dvd_pow 2 hk

theorem rtAlign_four_two_pow (hk : 2 ≤ k) (hk' : k ≤ 16) : rtAlign (2 ^ k) 4 = 2 ^ k := by
  have hdvd := four_dvd_two_pow hk
  have hle : 2 ^ k ≤ 65536 := Nat.pow_le_pow_right (by decide) hk'
  have hpos : 0 < 2 ^ k := Nat.two_pow_pos k
  have heq := rtAlign_two_pow (2 ^ k) (k := 2) (by decide)
  rw [show (4 : Nat) = 2 ^ 2 from rfl, heq]
  omega

theorem alignSize_eq (h : (size + 3) / 4 * 4 + 2 ^ k < 2 ^ 32) :
    alignSize size (2 ^ k) = (size + 3) / 4 * 4 + 2 ^ k := by
  have hpos : 0 < 2 ^ k := Nat.two_pow_pos k
  have heq := rtAlign_two_pow size (k := 2) (by decide)
  rw [alignSize, show (4 : Nat) = 2 ^ 2 from rfl, heq]
  omega

/-- If the size wraps around, `rt_malloc` is asked for no more than the alignment. -/
theorem blockSize_of_wraps (hk : 2 ≤ k) (hk' : k ≤ 16) (hsize : size < 2 ^ 32)
    (hwrap : 2 ^ 32 ≤ (size + 3) / 4 * 4 + 2 ^ k + 7) :
    blockSize (rtAlign (alignSize size (rtAlign (2 ^ k) 4)) rtAlignSize) ≤ 65536 := by
  have hdvd := four_dvd_two_pow hk
  have hle : 2 ^ k ≤ 2 ^ 16 := Nat.pow_le_pow_right (by decide) hk'
  have hsum : alignSize size (2 ^ k) ≤ 2 ^ k ∨ alignSize size (2 ^ k) = 2 ^ 32 - 4 := by
    have heq := rtAlign_two_pow size (k := 2) (by decide)
    rw [alignSize, show (4 : Nat) = 2 ^ 2 from rfl, heq]
    omega
  rw [rtAlign_four_two_pow hk hk', show rtAlignSize = 8 from rfl, rtAlign_eight]
  exact blockSize_le (by decide) (by omega)

/-- The aligned pointer leaves room for four bytes behind the pointer of the block, and does not go
further than the alignment. -/
theorem alignPtr_spec (hk : 2 ≤ k) (hk' : k ≤ 16) (h8 : 8 ∣ q) (hlt : q + 2 ^ k < 2 ^ 32) :
    2 ^ k ∣ alignPtr q (2 ^ k) ∧ q + 4 ≤ alignPtr q (2 ^ k) ∧ alignPtr q (2 ^ k) ≤ q + 2 ^ k := by
  have hdvd := four_dvd_two_pow hk
  have hpos : 0 < 2 ^ k := Nat.two_pow_pos k
  rw [alignPtr, sub32_of_le hpos, and_two_pow_sub_one_eq_mod]
  split
  · rename_i haligned
    rw [mod_eq_of_lt hlt]
    exact ⟨Nat.dvd_add (Nat.dvd_of_mod_eq_zero haligned) (Nat.dvd_refl _), by omega, le_rfl⟩
  · rename_i hgap
    have hdiv := div_add_mod' q (2 ^ k)
    have hround : (q + 2 ^ k - 1) / 2 ^ k = q / 2 ^ k + 1 := by
      refine Nat.div_eq_of_lt_le ?_ ?_
      · rw [Nat.succ_mul]
        omega
      · rw [succ_mul, succ_mul]
        omega
    rw [rtAlign_two_pow q (by omega), mod_eq_of_lt (by omega), hround]
    have hdvd' : 4 ∣ (q / 2 ^ k + 1) * 2 ^ k := Nat.dvd_mul_left_of_dvd hdvd _
    have hnext : (q / 2 ^ k + 1) * 2 ^ k = q / 2 ^ k * 2 ^ k + 2 ^ k := succ_mul _ _
    exact ⟨dvd_mul_left _ _, by omega, by omega⟩

theorem alignPtr_lt (ptr align : Nat) : alignPtr ptr align < 2 ^ 32 := by
  rw [alignPtr]
  split
  · exact mod_lt _ (by decide)
  · exact Nat.and_le_left.trans_lt (mod_lt _ (by decide))

theorem exists_taken {e : Nat} (hfit : x.off + 16 + size ≤ headOff r e) :
    ∃ rest, taken e size x r = ⟨x.off, usedTag⟩ :: rest ∧
      usedBlocks e rest = usedBlocks e r ∧ x.off + 16 + size ≤ headOff rest e ∧
      headOff rest e < x.off + 16 + size + 32 := by
  rw [taken]
  split
  · exact ⟨_, rfl, usedBlocks_free rfl, le_rfl, Nat.lt_add_of_pos_right (by decide)⟩
  · rename_i hsplit
    exact ⟨_, rfl, rfl, hfit, Nat.lt_of_not_le hsplit⟩

theorem allocated_of_rtMalloc {req : Nat} (h : Layout s bs)
    (hret : rtMalloc s req = some (q, s')) (hq : q ≠ rtNull) :
    ∃ l x r, bs = l ++ x :: r ∧ q = s.heapPtr + x.off + 16 ∧
      Allocated s (blockSize (rtAlign req rtAlignSize)) l x r s' := by
  by_cases hmin : minSizeAligned ≤ s.memSizeAligned
  · rcases rtMalloc_spec h hmin req with ⟨hret', -⟩ | ⟨l, x, r, s'', hbs, hret', ha⟩ <;>
      cases hret.symm.trans hret'
    · exact absurd rfl hq
    · exact ⟨l, x, r, hbs, rfl, ha⟩
  · rcases rtMalloc_small h (Nat.lt_of_not_le hmin) req with hret' | hret' <;> rw [hret] at hret'
    · exact absurd (Prod.mk.inj (Option.some.inj hret')).1 hq
    · cases hret'

theorem rtMallocAlign_eq {align : Nat}
    (hmalloc : rtMalloc s (alignSize size (rtAlign align 4)) = some (q, s')) (hq : q ≠ rtNull) :
    rtMallocAlign s size align = some (alignPtr q (rtAlign align 4), { s' with
      mem := s'.mem.writeLE 4 (sub32 (alignPtr q (rtAlign align 4)) 4) q }) := by
  simp [rtMallocAlign, hmalloc, hq]

theorem rtMallocAlign_cases {align : Nat} (hret : rtMallocAlign s size align = some (p, s'))
    (hp : p ≠ rtNull) :
    ∃ q s1, rtMalloc s (alignSize size (rtAlign align 4)) = some (q, s1) ∧ q ≠ rtNull ∧
      p = alignPtr q (rtAlign align 4) ∧
      s' = { s1 with mem := s1.mem.writeLE 4 (sub32 p 4) q } := by
  obtain ⟨⟨q, s1⟩, hmalloc, hrest⟩ := Option.bind_eq_some_iff.mp hret
  by_cases hq : q = rtNull
  · simp only [hq, ne_eq, not_true, if_false] at hrest
    exact absurd (Prod.mk.inj (Option.some.inj hrest)).1.symm hp
  · rw [rtMallocAlign_eq hmalloc hq] at hret
    cases hret
    exact ⟨q, s1, hmalloc, hq, rfl, rfl⟩

/-- After an allocation and writes into the new block, `rt_free` of the block leaves the used blocks
as they were before. -/
theorem WellFormed.restored (h : WellFormed σ (l ++ x :: r)) (ha : Allocated σ.heap size l x r s')
    {rest : List Blk} (htaken : taken σ.heap.endOff size x r = ⟨x.off, usedTag⟩ :: rest)
    (hrest : usedBlocks σ.heap.endOff rest = usedBlocks σ.heap.endOff r) {m : ByteMem}
    (hm : PayloadWrite s' ⟨x.off, usedTag⟩ rest m) :
    WellFormed ⟨{ s' with mem := m }, insert (σ.heap.heapPtr + x.off + 16) σ.live⟩
        (l ++ ⟨x.off, usedTag⟩ :: rest) ∧
      ∃ bs', WellFormed ⟨rtFree { s' with mem := m } (σ.heap.heapPtr + x.off + 16), σ.live⟩ bs' ∧
        usedBlocks σ.heap.endOff bs' = usedBlocks σ.heap.endOff (l ++ x :: r) := by
  have hlay : Layout s' (l ++ ⟨x.off, usedTag⟩ :: rest) := htaken ▸ ha.layout
  have hnew : σ.heap.heapPtr + x.off + 16 ∉ σ.live := by
    intro hmem
    obtain ⟨y, hy, hused, heq⟩ := (h.live _).mp hmem
    obtain rfl : x = y := h.layout.off_injective (by simp) hy (by omega)
    exact hused ha.fits.unused
  have hheld := h.allocated ha (by rw [htaken]; exact hlay.payloadWrite hm)
  rw [htaken, hand, if_neg (payload_ne_null _)] at hheld
  obtain ⟨hfreed, -⟩ := hheld.freed usedTag_used (p := σ.heap.heapPtr + x.off + 16)
    (by rw [← ha.frame.heapPtr])
  rw [Finset.erase_insert hnew] at hfreed
  refine ⟨hheld, _, hfreed, ?_⟩
  rw [usedBlocks_plugged rfl, hrest, usedBlocks_unused ha.fits.unused]

/-- What is asked of `rt_malloc_align`, if it has returned `p` in the state `s'`: the area and the
pointer in front of it lie in the block that `rt_malloc` returned, and `rt_free_align` releases this
block, whatever was written into the area. -/
def ServedAligned (σ : Sys) (bs : List Blk) (size k p : Nat) (s' : Heap) : Prop :=
  2 ^ k ∣ p ∧ ∃ q s₁, rtMalloc σ.heap (alignSize size (rtAlign (2 ^ k) 4)) = some (q, s₁) ∧
    Set.Ico (p - 4) (p + size) ⊆ userArea s' q ∧
    (∃ bs', WellFormed ⟨s', insert q σ.live⟩ bs') ∧
    ∀ m : ByteMem, (∀ a, a < p ∨ p + size ≤ a → m a = s'.mem a) →
      rtFreeAlign { s' with mem := m } p = rtFree { s' with mem := m } q ∧
      ∃ bs', WellFormed ⟨rtFreeAlign { s' with mem := m } p, σ.live⟩ bs' ∧
        usedBlocks σ.heap.endOff bs' = usedBlocks σ.heap.endOff bs

theorem servedAligned_of_fits (h : WellFormed σ bs) (hk : 2 ≤ k) (hk' : k ≤ 16)
    (hwrap : (size + 3) / 4 * 4 + 2 ^ k + 7 < 2 ^ 32)
    (hret : rtMallocAlign σ.heap size (2 ^ k) = some (p, s')) (hp : p ≠ rtNull) :
    ServedAligned σ bs size k p s' := by
  obtain ⟨q, s₁, hmalloc, hq, hpeq, rfl⟩ := rtMallocAlign_cases hret hp
  obtain ⟨l, x, r, rfl, hqeq, ha⟩ := allocated_of_rtMalloc h.layout hmalloc hq
  obtain ⟨rest, htaken, hrest, hroom, -⟩ := exists_taken ha.fits.payload
  -- the block is large enough for the alignment and the area
  have hlarge : (size + 3) / 4 * 4 + 2 ^ k ≤
      blockSize (rtAlign (alignSize size (rtAlign (2 ^ k) 4)) rtAlignSize) := by
    rw [rtAlign_four_two_pow hk hk', alignSize_eq (by omega)]
    exact (le_rtAlign hwrap).trans (le_blockSize _).2
  have hlay : Layout s₁ (l ++ ⟨x.off, usedTag⟩ :: rest) := htaken ▸ ha.layout
  have hend := hlay.around.2.2.2
  have hfits := hlay.frame.fits
  have h8 : 8 ∣ q := by
    have haligned := (h.layout.blocks x (by simp)).aligned
    have hptr := h.layout.frame.alignPtr
    omega
  simp only [ha.frame.heapPtr, ha.frame.endOff] at hend hfits
  rw [rtAlign_four_two_pow hk hk'] at hpeq
  obtain ⟨hdvd, hlo, hhi⟩ := alignPtr_spec hk hk' h8 (by omega)
  rw [← hpeq] at hdvd hlo hhi
  have hback : sub32 p 4 = p - 4 := sub32_of_le
  rw [hback]
  -- whatever is written from `p - 4` on up to the end of the area stays in the block
  have hwrite : ∀ m : ByteMem, (∀ a, a < p - 4 ∨ p + size ≤ a → m a = s₁.mem a) →
      PayloadWrite s₁ ⟨x.off, usedTag⟩ rest m := by
    intro m hm a hout
    refine hm a ?_
    simp only [ha.frame.heapPtr, ha.frame.endOff] at hout
    omega
  have hstored : ∀ a, a < p - 4 ∨ p ≤ a → s₁.mem.writeLE 4 (p - 4) q a = s₁.mem a := fun a hout =>
    ByteMem.writeLE_apply_of_disjoint _ _ _ _ _ (by omega)
  have hheld := (h.restored ha htaken hrest (hwrite _ fun a hout => hstored a (by omega))).1
  rw [← hqeq] at hheld
  refine ⟨hdvd, q, s₁, hmalloc, ?_, ⟨_, hheld⟩, fun m hm => ?_⟩
  · have hq' : q = s₁.heapPtr + x.off + 16 := by rw [hqeq, ha.frame.heapPtr]
    have harea := hheld.layout.userArea_eq
    simp only [← hq'] at harea
    rw [harea]
    refine Set.Ico_subset_Ico (by omega) ?_
    change p + size ≤ s₁.heapPtr + headOff rest s₁.endOff
    rw [ha.frame.heapPtr, ha.frame.endOff]
    omega
  · have hreal : rtFreeAlign { s₁ with mem := m } p = rtFree { s₁ with mem := m } q := by
      have hread : m.readLE 4 (p - 4) = (s₁.mem.writeLE 4 (p - 4) q).readLE 4 (p - 4) :=
        ByteMem.readLE_congr fun a hlo' hhi' => hm a (by omega)
      rw [rtFreeAlign, hback, hread, ByteMem.readLE_writeLE_same, mod_eq_of_lt (by omega)]
    have hm' : ∀ a, a < p - 4 ∨ p + size ≤ a → m a = s₁.mem a := fun a hout =>
      (hm a (by omega)).trans (hstored a (by omega))
    have hfreed := (h.restored ha htaken hrest (hwrite m hm')).2
    rw [← hqeq] at hfreed
    exact ⟨hreal, hreal ▸ hfreed⟩

/-- The block of a size that has wrapped around is too short for the area. -/
theorem fits_of_servedAligned (h : WellFormed σ bs) (hk : 2 ≤ k) (hk' : k ≤ 16)
    (hsize : size < 2 ^ 32) (hret : rtMallocAlign σ.heap size (2 ^ k) = some (p, s'))
    (hp : p ≠ rtNull) (hserved : ServedAligned σ bs size k p s') :
    (size + 3) / 4 * 4 + 2 ^ k + 7 < 2 ^ 32 := by
  by_contra hwrap
  have hle : 2 ^ k ≤ 2 ^ 16 := Nat.pow_le_pow_right (by decide) hk'
  have hsmall := blockSize_of_wraps hk hk' hsize (not_lt.mp hwrap)
  obtain ⟨-, q', s₂, hmalloc', harea, -⟩ := hserved
  obtain ⟨q, s₁, hmalloc, hq, hpeq, rfl⟩ := rtMallocAlign_cases hret hp
  obtain ⟨rfl, rfl⟩ := Prod.mk.inj (Option.some.inj (hmalloc.symm.trans hmalloc'))
  obtain ⟨l, x, r, rfl, hqeq, ha⟩ := allocated_of_rtMalloc h.layout hmalloc hq
  obtain ⟨rest, htaken, -, -, hshort⟩ := exists_taken ha.fits.payload
  have hlay : Layout s₁ (l ++ ⟨x.off, usedTag⟩ :: rest) := htaken ▸ ha.layout
  have hview := hlay.userArea_eq
  simp only [ha.frame.heapPtr, ha.frame.endOff, ← hqeq] at hview
  have hfirst : p - 4 ∈ Set.Ico (p - 4) (p + size) := ⟨le_rfl, by omega⟩
  have hlast : p + size - 1 ∈ Set.Ico (p - 4) (p + size) := ⟨by omega, by omega⟩
  have hlo : q ≤ p - 4 := (harea hfirst).1
  have hlt : p < 2 ^ 32 := hpeq ▸ alignPtr_lt q _
  -- the pointer is stored behind the header of the block
  have hnext : Heap.next { s₁ with mem := s₁.mem.writeLE 4 (p - 4) q } (q - sizeofStructMem) =
      s₁.next (q - sizeofStructMem) := by
    refine ByteMem.readLE_writeLE_of_disjoint _ (.inl ?_)
    rw [sizeofStructMem_eq]
    omega
  rw [userArea, sub32_of_le (by omega) hlt, hnext] at harea
  have hin : p + size - 1 ∈ userArea s₁ q := ⟨by omega, (harea hlast).2⟩
  rw [hview] at hin
  have hhi := hin.2
  omega

/-- `rt_malloc_align` does what is asked of it if and only if it returns no pointer, or neither the
size of the block nor its rounding up in `rt_malloc` wraps around. -/
theorem rtMallocAlign_within_block (h : WellFormed σ bs) (hk : 2 ≤ k) (hk' : k ≤ 16)
    (hsize : size < 2 ^ 32) (hret : rtMallocAlign σ.heap size (2 ^ k) = some (p, s')) :
    (p ≠ rtNull → ServedAligned σ bs size k p s') ↔
      p = rtNull ∨ (size + 3) / 4 * 4 + 2 ^ k + 7 < 2 ^ 32 := by
  by_cases hp : p = rtNull
  · exact iff_of_true (fun hne => absurd hp hne) (.inl hp)
  · exact ⟨fun hserved => .inr (fits_of_servedAligned h hk hk' hsize hret hp (hserved hp)),
      fun hfits _ => servedAligned_of_fits h hk hk' (hfits.resolve_left hp) hret hp⟩

theorem rtMallocAlign_within_block_eight : ∃ s₀ s',
    rtSystemHeapInit (fun _ => 0) 8 72 = some s₀ ∧ rtMallocAlign s₀ 5 (2 ^ 3) = some (32, s') ∧
      ∃ q, Set.Ico 28 37 ⊆ userArea s' q := by
  have hcalls : (do
      let s₀ ← rtSystemHeapInit (fun _ => 0) 8 72
      let a ← rtMallocAlign s₀ 5 (2 ^ 3)
      return a.1) = some 32 := by
    decide +kernel
  obtain ⟨s₀, hinit, hcalls⟩ := Option.bind_eq_some_iff.mp hcalls
  obtain ⟨⟨p, s'⟩, hret, hcalls⟩ := Option.bind_eq_some_iff.mp hcalls
  obtain rfl : p = 32 := Option.some.inj hcalls
  obtain ⟨-, q, -, -, hin, -⟩ := (rtMallocAlign_within_block (wellFormed_init hinit) (by decide)
    (by decide) (by decide) hret).mpr (.inr (by decide)) (by decide)
  exact ⟨s₀, s', hinit, hret, q, hin⟩

/-- `rt_malloc_align(0xffffffff, 8)` on a fresh heap asks `rt_malloc` for eight bytes, and returns a
pointer. -/
theorem rtMallocAlign_wraps : ∃ s₀ p s' q s₁, rtSystemHeapInit (fun _ => 0) 8 72 = some s₀ ∧
      rtMallocAlign s₀ 0xFFFFFFFF (2 ^ 3) = some (p, s') ∧ p ≠ rtNull ∧
      rtMalloc s₀ (alignSize 0xFFFFFFFF (rtAlign (2 ^ 3) 4)) = some (q, s₁) ∧
      ¬ Set.Ico (p - 4) (p + 0xFFFFFFFF) ⊆ userArea s' q := by
  have hcalls : (do
      let s₀ ← rtSystemHeapInit (fun _ => 0) 8 72
      let a ← rtMallocAlign s₀ 0xFFFFFFFF (2 ^ 3)
      let b ← rtMalloc s₀ (alignSize 0xFFFFFFFF (rtAlign (2 ^ 3) 4))
      return (a.1, b.1, a.2.heapPtr + a.2.next (b.1 - sizeofStructMem))) = some (32, 24, 56) := by
    decide +kernel
  obtain ⟨s₀, hinit, hcalls⟩ := Option.bind_eq_some_iff.mp hcalls
  obtain ⟨⟨p, s'⟩, hret, hcalls⟩ := Option.bind_eq_some_iff.mp hcalls
  obtain ⟨⟨q, s₁⟩, hmalloc, hcalls⟩ := Option.bind_eq_some_iff.mp hcalls
  obtain ⟨rfl, rfl, hend⟩ : p = 32 ∧ q = 24 ∧ s'.heapPtr + s'.next (q - sizeofStructMem) = 56 := by
    simpa using hcalls
  refine ⟨s₀, 32, s', 24, s₁, hinit, hret, by decide, hmalloc, fun hin => ?_⟩
  -- the block ends before that
  have hlast := (hin (show 0xFFFFFFFF ∈ Set.Ico (32 - 4) (32 + 0xFFFFFFFF) by simp)).2
  omega

end RtThread.Mem
