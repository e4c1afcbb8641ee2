import RtThread.Mem.Free

/-!
# `rt_malloc`

The first-fit search stops at the first block from `lfree` on that `Fits`; that block is taken whole
or split, and if it was the lowest unused one `lfree` moves on. The search ends on every heap of at
least `MIN_SIZE_ALIGNED` bytes; on a smaller one `mem_size_aligned - size` wraps around and the loop
circles at `heap_end`.
-/

namespace RtThread.Mem
open BlockChain
open Heap
open List
variable {s s1 : Heap} {bs l r : List Blk} {x : Blk} {m n size k : Nat} {t : Tag} {e o : Nat}

/-- The loop of `rt_malloc` stops at the block `x`, whose successors are `r`. -/
structure Fits (s : Heap) (size : Nat) (x : Blk) (r : List Blk) : Prop where
  unused : x.tag.used = 0
  inside : x.off + size < s.memSizeAligned
  payload : x.off + 16 + size ≤ headOff r s.endOff

/-- The offset of the first unused block, `e` when there is none. -/
def firstFree (e : Nat) : List Blk → Nat
  | [] => e
  | x :: xs => if x.tag.used = 0 then x.off else firstFree e xs

theorem Chain.length_lt (h : Chain s bs) : bs.length < loopBound := by
  have hlen := h.linked.length_mul_le
  have hlt := h.endOff_lt
  unfold loopBound
  omega

theorem Chain.payload_eq (h : Chain s (l ++ x :: r)) :
    sub32 (s.next (s.heapPtr + x.off)) (x.off + sizeofStructMem) =
      headOff r s.endOff - (x.off + 16) := by
  obtain ⟨-, hgap, -, hle⟩ := h.around
  have hlt := h.endOff_lt
  rw [next_eq_view, h.view_eq, sizeofStructMem_eq, sub32_of_le hgap]

theorem mallocSearch_block (h : Chain s (l ++ x :: r)) : mallocSearch s size (k + 1) x.off =
      if x.off < sub32 s.memSizeAligned size then
        if x.tag.used = 0 ∧ size ≤ headOff r s.endOff - (x.off + 16) then some (some x.off)
        else mallocSearch s size k (headOff r s.endOff)
      else some none := by
  simp only [mallocSearch, h.payload_eq]
  simp only [used_eq_view, next_eq_view, h.view_eq]

theorem mallocSearch_spec (h : Chain s (l ++ r)) (hsize : size ≤ s.memSizeAligned)
    (hfuel : r.length < k) :
    (∃ l' x r', r = l' ++ x :: r' ∧ Fits s size x r' ∧
      mallocSearch s size k (headOff r s.endOff) = some (some x.off)) ∨
    ((∀ l' x r', r = l' ++ x :: r' → ¬ Fits s size x r') ∧
      mallocSearch s size k (headOff r s.endOff) = some none) := by
  have hlt := h.endOff_lt
  have hend := s.endOff_eq
  have hbound : sub32 s.memSizeAligned size = s.memSizeAligned - size :=
    sub32_of_le hsize
  induction r generalizing l k with
  | nil =>
    obtain ⟨k, rfl⟩ := Nat.exists_eq_add_of_lt hfuel
    refine .inr ⟨by simp, ?_⟩
    rw [headOff_nil, mallocSearch, hbound, if_neg (by omega)]
  | cons x r ih =>
    obtain ⟨k, rfl⟩ := Nat.exists_eq_succ_of_ne_zero (Nat.ne_zero_of_lt hfuel)
    obtain ⟨-, hgap, hr, -⟩ := h.around
    rw [headOff_cons, mallocSearch_block h, hbound]
    by_cases hin : x.off < s.memSizeAligned - size
    · rw [if_pos hin]
      by_cases hfit : x.tag.used = 0 ∧ size ≤ headOff r s.endOff - (x.off + 16)
      · rw [if_pos hfit]
        exact .inl ⟨[], x, r, rfl, ⟨hfit.1, by omega, by omega⟩, rfl⟩
      · rw [if_neg hfit]
        have hnot : ¬ Fits s size x r := fun hf => hfit ⟨hf.unused, by have := hf.payload; omega⟩
        rcases ih (l := l ++ [x]) (k := k) (by simpa using h)
          (by simp only [length_cons] at hfuel; omega) with
          ⟨l', y, r', rfl, hy, heq⟩ | ⟨hnone, heq⟩
        · exact .inl ⟨x :: l', y, r', rfl, hy, heq⟩
        · refine .inr ⟨fun l' y r' hsplit => ?_, heq⟩
          cases l' with
          | nil => obtain ⟨rfl, rfl⟩ := List.cons.inj hsplit; exact hnot
          | cons z l' => exact hnone l' y r' (List.cons.inj hsplit).2
    · rw [if_neg hin]
      -- the blocks behind are further up, out of the loop's range as well
      refine .inr ⟨fun l' y r' hsplit hfit => ?_, rfl⟩
      have hy : y ∈ x :: r := by rw [hsplit]; simp
      have hinside := hfit.inside
      rcases mem_cons.mp hy with rfl | hy
      · omega
      · have := hr y hy
        omega

/-- On a heap below `MIN_SIZE_ALIGNED` the loop bound wraps and the search never ends. -/
theorem mallocSearch_diverges (h : Chain s (l ++ r)) (hsize : s.memSizeAligned < 16) :
    mallocSearch s 16 k (headOff r s.endOff) = none := by
  have hend := s.endOff_eq
  have hbound : sub32 s.memSizeAligned 16 = s.memSizeAligned + 2 ^ 32 - 16 := by
    rw [sub32]; omega
  induction k generalizing l r with
  | zero => rfl
  | succ k ih =>
    cases r with
    | nil =>
      simp only [headOff_nil, mallocSearch, hbound, used_eq_view, next_eq_view, h.endTag, h.endNext]
      rw [if_pos (by omega), if_neg (by simp [usedTag])]
      exact ih h
    | cons x r =>
      obtain ⟨-, hgap, -, hle⟩ := h.around
      rw [headOff_cons, mallocSearch_block h, hbound, if_pos (by omega), if_neg (by omega)]
      exact ih (l := l ++ [x]) (by simpa using h)

theorem skipUsed_spec (h : Chain s (l ++ r)) (hfuel : r.length < k) :
    skipUsed s k (s.heapPtr + headOff r s.endOff) = some (s.heapPtr + firstFree s.endOff r) := by
  have hend := h.frame.heapEnd
  induction r generalizing l k with
  | nil =>
    obtain ⟨k, rfl⟩ := Nat.exists_eq_add_of_lt hfuel
    rw [headOff_nil, skipUsed, if_neg (by rw [hend]; tauto)]
    rfl
  | cons x r ih =>
    obtain ⟨k, rfl⟩ := Nat.exists_eq_succ_of_ne_zero (Nat.ne_zero_of_lt hfuel)
    have hbelow := h.bounds x (by simp)
    rw [headOff_cons, skipUsed, used_eq_view, next_eq_view, h.view_eq, firstFree]
    by_cases hx : x.tag.used = 0
    · rw [if_neg (by tauto), if_pos hx]
    · rw [if_pos ⟨hx, by omega⟩, if_neg hx]
      exact ih (l := l ++ [x]) (by simpa using h) (by simp only [length_cons] at hfuel; omega)

theorem createMem2_headers (ptr ptr2 : Nat) (h : ptr + 12 ≤ ptr2) (h2 : ptr2 < 2 ^ 32) :
    (createMem2 s ptr ptr2).view ptr = ⟨ptr2, (s.view ptr).prev, (s.view ptr).tag⟩ ∧
      (createMem2 s ptr ptr2).view ptr2 = ⟨(s.view ptr).next, ptr, freeTag⟩ ∧
      ∀ o, o + 12 ≤ ptr ∨ ptr2 + 12 ≤ o → (createMem2 s ptr ptr2).view o = s.view o := by
  -- `mem->next` is read after two writes into the new header
  have hread : ((s.setMagic (s.heapPtr + ptr2) heapMagic).setUsed (s.heapPtr + ptr2) 0).next
      (s.heapPtr + ptr) = s.next (s.heapPtr + ptr) := by
    have hkeep : ((s.setMagic (s.heapPtr + ptr2) heapMagic).setUsed (s.heapPtr + ptr2) 0).headerAt
        (s.heapPtr + ptr) = s.headerAt (s.heapPtr + ptr) := by
      simp (disch := omega)
    exact congrArg Header.next hkeep
  simp only [createMem2, hread, Heap.view, setNext_heapPtr, setPrev_heapPtr,
    setUsed_heapPtr, setMagic_heapPtr]
  refine ⟨?_, ?_, fun o ho => ?_⟩
  · simp (disch := omega) [headerAt_setNext_same]
  · rw [headerAt_setNext_of_ne (by omega),
      headerAt_newHeader (by decide) (by decide) next_lt (by omega)]
    rfl
  · simp (disch := omega)

/-- The block `x` of `s` has been cut at offset `m`; the `prev` behind it is not yet fixed. -/
structure CutAt (s s1 : Heap) (x : Blk) (m n : Nat) (t : Tag) : Prop where
  frame : SameFrame s s1
  lfree : s1.lfree = s.lfree
  front : s1.view x.off = ⟨m, (s.view x.off).prev, t⟩
  back : s1.view m = ⟨n, x.off, freeTag⟩
  rest : ∀ o, o + 16 ≤ x.off ∨ n ≤ o → s1.view o = s.view o

theorem createMem2_cutAt (h : Chain s (l ++ x :: r)) (hn : headOff r s.endOff = n)
    (hlo : x.off + 16 ≤ m) (hhi : m + 16 ≤ n) : CutAt s (createMem2 s x.off m) x m n x.tag := by
  obtain ⟨-, -, -, hle⟩ := h.around
  have hlt := h.endOff_lt
  obtain ⟨hfront, hback, hrest⟩ := createMem2_headers x.off m (by omega) (by omega)
  refine ⟨⟨rfl, rfl, rfl⟩, rfl, ?_, ?_, fun o ho => hrest o (by omega)⟩
  · rw [hfront, h.view_eq]
  · rw [hback, h.view_eq, hn]

theorem fixPrev_spec (h : Chain s (l ++ x :: r)) (hn : headOff r s.endOff = n)
    (hlo : x.off + 16 ≤ m) (hhi : m + 16 ≤ n) (hm : 8 ∣ m) (hok : BlockOk s.endOff ⟨x.off, t⟩)
    (hcut : CutAt s s1 x m n t) :
    Chain (fixPrev s1 m) (l ++ ⟨x.off, t⟩ :: ⟨m, freeTag⟩ :: r) ∧
      SameFrame s (fixPrev s1 m) ∧ (fixPrev s1 m).lfree = s.lfree := by
  obtain ⟨-, -, -, hle⟩ := h.around
  have hlt := h.endOff_lt
  have hok' : BlockOk s.endOff ⟨m, freeTag⟩ := ⟨rfl, hm, fun hu => absurd rfl hu⟩
  have hnext : s1.next (s1.heapPtr + m) = n := by rw [next_eq_view, hcut.back]
  by_cases hlast : n = s.endOff
  · -- the cut block was the last one: `heap_end` keeps its `prev`
    have hid : fixPrev s1 m = s1 := by
      rw [fixPrev, hnext]
      exact if_neg (not_not.mpr (hlast.trans hcut.frame.endOff.symm))
    rw [hid]
    exact ⟨h.splitBlock hcut.frame hn hlo hhi hok hok' hcut.front hcut.back
      (fun hne => absurd hlast hne) (hcut.rest _ (by omega)) (fun o ho => hcut.rest o (by omega)),
      hcut.frame, hcut.lfree⟩
  · have hset : fixPrev s1 m = s1.setPrev (s1.heapPtr + n) m := by
      rw [fixPrev, hnext]
      exact if_pos fun heq => hlast (heq.trans hcut.frame.endOff)
    have hother : ∀ o, o + 16 ≤ n ∨ n + 16 ≤ o → (fixPrev s1 m).view o = s1.view o := by
      intro o ho
      rw [hset, Heap.view, setPrev_heapPtr, headerAt_setPrev_of_ne (by omega)]
      rfl
    have hat : (fixPrev s1 m).view n = { s.view n with prev := m } := by
      rw [hset, Heap.view, setPrev_heapPtr, headerAt_setPrev_same (by omega),
        ← hcut.rest n (by omega)]
      rfl
    have hframe : SameFrame s (fixPrev s1 m) := hset ▸ hcut.frame.trans ⟨rfl, rfl, rfl⟩
    -- `heap_end` is behind the block whose `prev` changes
    have hend : n + 16 ≤ s.endOff := by
      cases r with
      | nil => exact absurd hn.symm hlast
      | cons y r => exact hn ▸ (h.bounds y (by simp))
    refine ⟨h.splitBlock hframe hn hlo hhi hok hok' ?_ ?_ (fun _ => hat) ?_ ?_, hframe, ?_⟩
    · rw [hother _ (by omega), hcut.front]
    · rw [hother _ (by omega), hcut.back]
    · rw [hother _ (by omega), hcut.rest _ (by omega)]
    · intro o ho
      rw [hother o (by omega), hcut.rest o (by omega)]
    · rw [hset, setPrev_lfree, hcut.lfree]

theorem CutAt.setUsed (hcut : CutAt s s1 x m n t) (hlo : x.off + 16 ≤ m) (hhi : m + 16 ≤ n) :
    CutAt s (s1.setUsed (s1.heapPtr + x.off) 1) x m n ⟨t.magic, 1⟩ where
  frame := hcut.frame.trans ⟨rfl, rfl, rfl⟩
  lfree := hcut.lfree
  front := by
    rw [Heap.view, setUsed_heapPtr, headerAt_setUsed_same (by decide), ← Heap.view, hcut.front]
  back := by
    rw [Heap.view, setUsed_heapPtr, headerAt_setUsed_of_ne (by omega), ← Heap.view, hcut.back]
  rest o ho := by
    rw [Heap.view, setUsed_heapPtr, headerAt_setUsed_of_ne (by omega), ← Heap.view, hcut.rest o ho]

theorem Chain.addUsedMem (h : Chain s bs) (n : Nat) : Chain (s.addUsedMem n) bs :=
  h.transfer ⟨rfl, rfl, rfl⟩ (fun _ _ => rfl) rfl

/-- The block `x` and its successors after `rt_malloc` took `size` bytes of it. -/
def taken (e size : Nat) (x : Blk) (r : List Blk) : List Blk :=
  if x.off + 16 + size + 32 ≤ headOff r e then
    ⟨x.off, usedTag⟩ :: ⟨x.off + 16 + size, freeTag⟩ :: r
  else ⟨x.off, usedTag⟩ :: r

/-- The block that was found becomes used, and is cut if the rest can hold a block. -/
theorem takeBlock_spec (h : Chain s (l ++ x :: r)) (hfit : Fits s size x r) (h8 : 8 ∣ size)
    (hpos : 0 < size) :
    Chain (takeBlock s x.off size) (l ++ taken s.endOff size x r) ∧
      SameFrame s (takeBlock s x.off size) ∧ (takeBlock s x.off size).lfree = s.lfree := by
  obtain ⟨-, hgap, -, hle⟩ := h.around
  have hok := h.blocks x (by simp)
  have hpay := hfit.payload
  have hroom : x.off + 16 < s.endOff := by omega
  simp only [takeBlock, h.payload_eq, taken]
  by_cases hsplit : x.off + 16 + size + 32 ≤ headOff r s.endOff
  · have hcond : size + sizeofStructMem + minSizeAligned ≤ headOff r s.endOff - (x.off + 16) := by
      rw [sizeofStructMem_eq, minSizeAligned_eq]; omega
    have hlo : x.off + 16 ≤ x.off + 16 + size := by omega
    have hhi : x.off + 16 + size + 16 ≤ headOff r s.endOff := by omega
    have hcut : CutAt s ((createMem2 s x.off (x.off + 16 + size)).setUsed (s.heapPtr + x.off) 1)
        x (x.off + 16 + size) (headOff r s.endOff) usedTag := by
      have hused := (createMem2_cutAt h rfl hlo hhi).setUsed hlo hhi
      rw [hok.magic] at hused
      exact hused
    obtain ⟨hc, hf, hl⟩ := fixPrev_spec (t := usedTag) h rfl hlo hhi
      ((Nat.dvd_add_right (Nat.dvd_add hok.aligned (by decide))).mpr h8)
      ⟨rfl, hok.aligned, fun _ => hroom⟩ hcut
    rw [if_pos hcond, if_pos hsplit, sizeofStructMem_eq]
    generalize fixPrev ((createMem2 s x.off (x.off + 16 + size)).setUsed (s.heapPtr + x.off) 1)
      (x.off + 16 + size) = s2 at hc hf hl ⊢
    have hmagic := (hc.addUsedMem (size + 16)).setMagic
    rw [addUsedMem_heapPtr, hf.heapPtr] at hmagic
    exact ⟨hmagic, hf.trans ⟨rfl, rfl, rfl⟩, hl⟩
  · have hcond : ¬ size + sizeofStructMem + minSizeAligned ≤
        headOff r s.endOff - (x.off + 16) := by
      rw [sizeofStructMem_eq, minSizeAligned_eq]; omega
    rw [if_neg hcond, if_neg hsplit]
    have hc := h.setUsed (v := 1) (by decide) fun _ => hroom
    exact ⟨(hc.addUsedMem _).setMagic, ⟨rfl, rfl, rfl⟩, rfl⟩

theorem firstFree_onChain (bs : List Blk) (e : Nat) : OnChain bs e (firstFree e bs) := by
  induction bs with
  | nil => exact .inl rfl
  | cons x bs ih =>
    rw [firstFree]
    by_cases hx : x.tag.used = 0
    · rw [if_pos hx]
      exact .inr ⟨x, by simp, rfl⟩
    · rw [if_neg hx]
      exact ih.imp_right fun ⟨z, hz, hoff⟩ => ⟨z, by simp [hz], hoff⟩

theorem OnChain.split (h : OnChain bs e o) : ∃ l r, bs = l ++ r ∧ headOff r e = o := by
  rcases h with rfl | hmem
  · exact ⟨bs, [], by simp, rfl⟩
  · obtain ⟨x, hx, hoff⟩ := hmem
    obtain ⟨l, r, rfl⟩ := append_of_mem hx
    exact ⟨l, x :: r, rfl, hoff⟩

theorem OnChain.append_right (h : OnChain r e o) : OnChain (l ++ r) e o :=
  h.imp_right fun ⟨z, hz, hoff⟩ => ⟨z, by simp [hz], hoff⟩

theorem taken_onChain (h : OnChain (l ++ x :: r) e o) : OnChain (l ++ taken e size x r) e o := by
  refine h.imp_right fun ⟨z, hz, hoff⟩ => ?_
  simp only [mem_append, mem_cons] at hz
  obtain hz | rfl | hz := hz
  · exact ⟨z, by simp [hz], hoff⟩
  · exact ⟨⟨z.off, usedTag⟩, by rw [taken]; split <;> simp, hoff⟩
  · exact ⟨z, by rw [taken]; split <;> simp [hz], hoff⟩

theorem mem_taken_of_used {e : Nat} {z : Blk} (hz : z.tag.used ≠ 0) :
    z ∈ l ++ taken e size x r ↔ z = ⟨x.off, usedTag⟩ ∨ z ∈ l ∨ z ∈ r := by
  have hne : z ≠ ⟨x.off + 16 + size, freeTag⟩ := by rintro rfl; exact hz rfl
  rw [taken]
  split <;> simp [hne] <;> tauto

theorem taken_coalesced {e : Nat} (h : (l ++ x :: r).IsChain Coalesced) (hx : x.tag.used = 0) :
    (l ++ taken e size x r).IsChain Coalesced := by
  obtain ⟨hl, hxr, -⟩ := isChain_append.mp h
  obtain ⟨hhead, hr⟩ := isChain_cons.mp hxr
  have hend : ∀ (t : List Blk), ((⟨x.off, usedTag⟩ : Blk) :: t).IsChain Coalesced →
      (l ++ ⟨x.off, usedTag⟩ :: t).IsChain Coalesced := fun t ht =>
    isChain_append.mpr ⟨hl, ht, fun w _ z hz => .inr (by simp at hz; exact hz ▸ usedTag_used)⟩
  rw [taken]
  split
  · refine hend _ (isChain_cons.mpr ⟨fun _ _ => .inl usedTag_used, ?_⟩)
    -- the rest is unused, like the block it comes from, whose successor is used
    refine isChain_cons.mpr ⟨fun y hy => .inr ?_, hr⟩
    exact (hhead y hy).resolve_left (not_not.mpr hx)
  · exact hend _ (isChain_cons.mpr ⟨fun _ _ => .inl usedTag_used, hr⟩)

theorem advanceLfree_spec (h : Chain s (l ++ x :: r)) :
    ∃ s', advanceLfree s (s.heapPtr + x.off) = some s' ∧ Chain s' (l ++ x :: r) ∧
      SameFrame s s' ∧ s'.lfree = if s.lfree = s.heapPtr + x.off then
        s.heapPtr + firstFree s.endOff (x :: r) else s.lfree := by
  rw [advanceLfree]
  by_cases hlf : s.heapPtr + x.off = s.lfree
  · have hlen := h.length_lt
    rw [length_append] at hlen
    have hskip := skipUsed_spec (k := loopBound) h (by omega)
    rw [headOff_cons, hlf] at hskip
    rw [if_pos hlf, if_pos hlf.symm, hskip]
    exact ⟨_, rfl, h.transfer ⟨rfl, rfl, rfl⟩ (fun _ _ => rfl) rfl, ⟨rfl, rfl, rfl⟩, rfl⟩
  · rw [if_neg hlf, if_neg (Ne.symm hlf)]
    exact ⟨s, rfl, h, .refl s, rfl⟩

/-- No block from `lfree` on fits. -/
def NoFit (s : Heap) (bs : List Blk) (size : Nat) : Prop :=
  ∀ l x r, bs = l ++ x :: r → s.lfree ≤ s.heapPtr + x.off → ¬ Fits s size x r

/-- `rt_malloc` took `size` bytes of the block `x` between `l` and `r`. -/
structure Allocated (s : Heap) (size : Nat) (l : List Blk) (x : Blk) (r : List Blk) (s' : Heap) :
    Prop where
  fits : Fits s size x r
  above : s.lfree ≤ s.heapPtr + x.off
  layout : Layout s' (l ++ taken s.endOff size x r)
  frame : SameFrame s s'
  lfree : s'.lfree = if s.lfree = s.heapPtr + x.off then
    s.heapPtr + firstFree s.endOff (taken s.endOff size x r) else s.lfree

theorem takeBlock_allocated (h : Layout s (l ++ x :: r)) (hfit : Fits s size x r)
    (habove : s.lfree ≤ s.heapPtr + x.off) (h8 : 8 ∣ size) (hpos : 0 < size) :
    ∃ s', advanceLfree (takeBlock s x.off size) (s.heapPtr + x.off) = some s' ∧
      Allocated s size l x r s' := by
  obtain ⟨hc, hf, hl⟩ := takeBlock_spec h.toChain hfit h8 hpos
  obtain ⟨y, t, htaken, hoff⟩ : ∃ y t, taken s.endOff size x r = y :: t ∧ y.off = x.off := by
    rw [taken]; split <;> exact ⟨_, _, rfl, rfl⟩
  obtain ⟨s', hadv, hc', hf', hl'⟩ := advanceLfree_spec (htaken ▸ hc)
  rw [hf.heapPtr, hoff] at hadv
  rw [hl, hf.heapPtr, hf.endOff, hoff, ← htaken] at hl'
  rw [← htaken] at hc'
  have hframe := hf.trans hf'
  refine ⟨s', hadv, hfit, habove, ⟨hc', taken_coalesced h.coalesced hfit.unused, ?_⟩, hframe, hl'⟩
  rw [hl', hframe.heapPtr, hframe.endOff]
  split
  · exact ⟨_, rfl, (firstFree_onChain _ s.endOff).append_right⟩
  · obtain ⟨o, ho, hon⟩ := h.lfree
    exact ⟨o, ho, taken_onChain hon⟩

theorem dvd_blockSize (req : Nat) : 8 ∣ blockSize (rtAlign req rtAlignSize) := by
  rw [blockSize]
  split
  · decide
  · exact dvd_rtAlign req

theorem le_blockSize (size : Nat) : 16 ≤ blockSize size ∧ size ≤ blockSize size := by
  rw [blockSize, minSizeAligned_eq]
  split <;> omega

theorem blockSize_le (h : 16 ≤ n) (hsize : size ≤ n) : blockSize size ≤ n := by
  rw [blockSize, minSizeAligned_eq]
  split <;> omega

/-- The blocks a search from `lfree` passes are those at or above `lfree`. -/
theorem suffix_of_above {y : Blk} {l' r' : List Blk} (h : Chain s (l ++ r))
    (hlf : s.lfree = s.heapPtr + headOff r s.endOff) (hsplit : l ++ r = l' ++ y :: r')
    (habove : s.lfree ≤ s.heapPtr + y.off) : ∃ a, r = a ++ y :: r' := by
  rcases append_eq_append_iff.mp hsplit with ⟨a, -, hr⟩ | ⟨c, hl, hyr⟩
  · exact ⟨a, hr⟩
  · cases c with
    | nil => exact ⟨[], hyr.symm⟩
    | cons z c =>
      -- a block of `l` ends below `lfree`
      obtain ⟨rfl, -⟩ := List.cons.inj hyr
      have hbelow := ((linked_append.mp h.linked).1.bounds y (by simp [hl])).2
      omega

theorem noFit_of_suffix (h : Chain s (l ++ r)) (hlf : s.lfree = s.heapPtr + headOff r s.endOff)
    (hnone : ∀ l' x r', r = l' ++ x :: r' → ¬ Fits s size x r') : NoFit s (l ++ r) size := by
  intro l' y r' hsplit habove
  obtain ⟨a, hr⟩ := suffix_of_above h hlf hsplit habove
  exact hnone a y r' hr

/-- `rt_malloc` on a heap that can hold a block at all always returns: `RT_NULL`, with the heap
unchanged, or the payload of a block it allocated. -/
theorem rtMalloc_spec (h : Layout s bs) (hmin : minSizeAligned ≤ s.memSizeAligned) (req : Nat) :
    (rtMalloc s req = some (rtNull, s) ∧ (req = 0 ∨ s.memSizeAligned < rtAlign req rtAlignSize ∨
        NoFit s bs (blockSize (rtAlign req rtAlignSize)))) ∨
    ∃ l x r s', bs = l ++ x :: r ∧ rtMalloc s req = some (s.heapPtr + x.off + 16, s') ∧
      Allocated s (blockSize (rtAlign req rtAlignSize)) l x r s' := by
  rw [minSizeAligned_eq] at hmin
  by_cases hzero : req = 0
  · exact .inl ⟨by rw [rtMalloc, if_pos hzero], .inl hzero⟩
  by_cases hbig : s.memSizeAligned < rtAlign req rtAlignSize
  · exact .inl ⟨by simp only [rtMalloc, if_neg hzero, if_pos hbig], .inr (.inl hbig)⟩
  obtain ⟨lf, hlf, hon⟩ := h.lfree
  obtain ⟨l0, r0, rfl, hhead⟩ := hon.split
  have hlen := h.length_lt
  rw [length_append] at hlen
  have hsize := blockSize_le hmin (Nat.le_of_not_lt hbig)
  have hstart : s.lfree - s.heapPtr = headOff r0 s.endOff := by omega
  have hsearch := mallocSearch_spec (k := loopBound) h.toChain hsize (by omega)
  rw [← hstart] at hsearch
  rcases hsearch with ⟨l', x, r', rfl, hfit, hfound⟩ | ⟨hnone, hfound⟩
  · have hlayout : Layout s ((l0 ++ l') ++ x :: r') := by simpa using h
    have habove : s.lfree ≤ s.heapPtr + x.off := by
      have := ((linked_append.mp h.linked).2.bounds x (by simp)).1
      omega
    have hsize' := le_blockSize (rtAlign req rtAlignSize)
    obtain ⟨s', hadv, halloc⟩ :=
      takeBlock_allocated hlayout hfit habove (dvd_blockSize req) (by omega)
    refine .inr ⟨l0 ++ l', x, r', s', by simp, ?_, halloc⟩
    simp [rtMalloc, hzero, hbig, hfound, hadv, sizeofStructMem_eq]
  · refine .inl ⟨?_, .inr (.inr (noFit_of_suffix h.toChain (by omega) hnone))⟩
    simp [rtMalloc, hzero, hbig, hfound]

theorem rtMalloc_diverges {req : Nat} (h : Layout s bs) (hmin : s.memSizeAligned < minSizeAligned)
    (hzero : req ≠ 0) (hbig : ¬ s.memSizeAligned < rtAlign req rtAlignSize) :
    rtMalloc s req = none := by
  rw [minSizeAligned_eq] at hmin
  obtain ⟨lf, hlf, hon⟩ := h.lfree
  obtain ⟨l0, r0, rfl, hhead⟩ := hon.split
  have hstart : s.lfree - s.heapPtr = headOff r0 s.endOff := by omega
  have hsize : blockSize (rtAlign req rtAlignSize) = 16 := by
    rw [blockSize, minSizeAligned_eq, if_pos (by omega)]
  have hloop := mallocSearch_diverges (k := loopBound) h.toChain hmin
  simp [rtMalloc, hzero, hbig, hstart, hsize, hloop]

theorem rtMalloc_small (h : Layout s bs) (hmin : s.memSizeAligned < minSizeAligned) (req : Nat) :
    rtMalloc s req = some (rtNull, s) ∨ rtMalloc s req = none := by
  by_cases hzero : req = 0
  · exact .inl (by rw [rtMalloc, if_pos hzero])
  by_cases hbig : s.memSizeAligned < rtAlign req rtAlignSize
  · exact .inl (by simp only [rtMalloc, if_neg hzero, if_pos hbig])
  · exact .inr (rtMalloc_diverges h hmin hzero hbig)

end RtThread.Mem
