import RtThread.Memheap.Lists
import Mathlib.Algebra.BigOperators.Group.List.Basic
import Mathlib.Data.List.Perm.Subperm

/-!
# The functions of a memory heap

`Inv s bs fs` is the state between two calls: the free list holds exactly the free blocks, no two
neighbours are free, and `available_size` is the sum of the payloads of the free blocks. The result
of a function is described by what it does to the list of the blocks.
-/

namespace RtThread.Memheap
open BlockChain
open List
variable {s s' : Heap} {bs l r : List Blk} {x y : Blk} {fs f1 f2 : List Nat} {n a o e k size : Nat}

/-- The magic lacks the bit `RT_MEMHEAP_USED`. -/
def IsFree (t : Tag) : Prop := ¬ t.Used

instance : DecidablePred IsFree := fun t => inferInstanceAs (Decidable (¬ t.Used))

theorem isFree_freeTag (k : Nat) : IsFree (freeTag k) := not_used_freeTag k
theorem not_isFree_usedTag (k : Nat) : ¬ IsFree (usedTag k) := not_not.mpr (used_usedTag k)

/-- The addresses of the free blocks. -/
def freeOffs (bs : List Blk) : List Nat := (bs.filter fun x => IsFree x.tag).map Block.off

/-- The sum of the payloads of the free blocks. -/
def freeTotal (e : Nat) (bs : List Blk) : Nat :=
  ((spans IsFree e bs).map fun b => b.2 - b.1 - 24).sum

theorem freeOffs_append : freeOffs (l ++ r) = freeOffs l ++ freeOffs r := by
  rw [freeOffs, filter_append, map_append]
  rfl

theorem freeOffs_free (hx : IsFree x.tag) : freeOffs (x :: r) = x.off :: freeOffs r := by
  rw [freeOffs, filter_cons_of_pos (by simpa using hx), map_cons]
  rfl

theorem freeOffs_used (hx : ¬ IsFree x.tag) : freeOffs (x :: r) = freeOffs r := by
  rw [freeOffs, filter_cons_of_neg (by simpa using hx)]
  rfl

theorem mem_freeOffs : o ∈ freeOffs bs ↔ ∃ x ∈ bs, IsFree x.tag ∧ x.off = o := by
  simp only [freeOffs, mem_map, mem_filter, decide_eq_true_eq, and_assoc]

theorem freeTotal_free (hx : IsFree x.tag) : freeTotal e (l ++ x :: r) =
      freeTotal x.off l + (headOff r e - x.off - 24) + freeTotal e r := by
  rw [freeTotal, spans_append, spans_pos hx, map_append, map_cons, sum_append,
    sum_cons, ← Nat.add_assoc]
  rfl

theorem freeTotal_used (hx : ¬ IsFree x.tag) :
    freeTotal e (l ++ x :: r) = freeTotal x.off l + freeTotal e r := by
  rw [freeTotal, spans_append, spans_neg hx, map_append, sum_append]
  rfl

theorem freeTotal_cons_free (hx : IsFree x.tag) :
    freeTotal e (x :: r) = headOff r e - x.off - 24 + freeTotal e r := by
  rw [freeTotal, spans_pos hx, map_cons, sum_cons]
  rfl

theorem freeTotal_cons_used (hx : ¬ IsFree x.tag) : freeTotal e (x :: r) = freeTotal e r := by
  rw [freeTotal, spans_neg hx]
  rfl

theorem freeTotal_le {hdr : Nat → Header Tag} {p : Nat} (h : Linked hdr 24 p bs e) :
    freeTotal e bs + headOff bs e ≤ e := by
  induction bs generalizing p with
  | nil => exact Nat.le_of_eq (Nat.zero_add e)
  | cons x bs ih =>
    obtain ⟨-, hgap, hbs⟩ := linked_cons.mp h
    have hle := ih hbs
    rw [headOff_cons]
    by_cases hx : IsFree x.tag
    · rw [freeTotal_cons_free hx]
      omega
    · rw [freeTotal_cons_used hx]
      omega

/-- The state of the heap between two calls. -/
structure Inv (s : Heap) (bs : List Blk) (fs : List Nat) : Prop where
  lists : Lists s bs fs
  perm : fs.Perm (freeOffs bs)
  coalesced : bs.IsChain (NotBothFree IsFree)
  available : s.availableSize = freeTotal s.tail bs

theorem Lists.freeTotal_lt (h : Lists s bs fs) : freeTotal s.tail bs < 2 ^ 32 := by
  have hle := freeTotal_le h.blocks.linked
  have htail := h.blocks.tail_lt
  omega

namespace Inv

theorem not_mem (h : Inv s bs fs) (hx : x ∈ bs) (hused : ¬ IsFree x.tag) : x.off ∉ fs := by
  intro hmem
  obtain ⟨z, hz, hfree, hoff⟩ := mem_freeOffs.mp (h.perm.mem_iff.mp hmem)
  rw [h.lists.blocks.off_injective hz hx hoff] at hfree
  exact hused hfree

theorem exists_node (h : Inv s (l ++ x :: r) fs) (hx : IsFree x.tag) :
    ∃ f1 f2, fs = f1 ++ x.off :: f2 ∧ (f1 ++ f2).Perm (freeOffs l ++ freeOffs r) := by
  have hperm := h.perm
  rw [freeOffs_append, freeOffs_free hx] at hperm
  have hmem : x.off ∈ fs := hperm.mem_iff.mpr (by simp)
  obtain ⟨f1, f2, rfl⟩ := append_of_mem hmem
  exact ⟨f1, f2, rfl, perm_inv_core hperm⟩

end Inv

/-- The search stops at a free block that is large enough, or, if there is none, at `free_list`. -/
theorem allocSearch_spec (f1 : List Nat) {p v : Nat} (h : Lists s bs (f1 ++ f2))
    (hlink : DLinked s.nextFree s.prevFree p f2 s.freeHeader) (hv : v < size)
    (hk : f2.length + 1 < k) :
    (∃ l x r, bs = l ++ x :: r ∧ x.off ∈ f2 ∧ size ≤ headOff r s.tail - x.off - 24 ∧
      allocSearch s size k (s.nextFree p) v = some (x.off, headOff r s.tail - x.off - 24)) ∨
    (∀ o ∈ f2, s.memitemSize o < size) ∧
      ∃ w < size, allocSearch s size k (s.nextFree p) v = some (s.freeHeader, w) := by
  have hlist := h.blocks.frame.freeList
  induction f2 generalizing f1 p v k with
  | nil =>
    obtain ⟨k, rfl⟩ := Nat.exists_eq_add_of_lt hk
    refine .inr ⟨fun o ho => absurd ho not_mem_nil, v, hv, ?_⟩
    rw [hlink.1, allocSearch, if_neg (by rw [hlist]; tauto)]
  | cons a f2 ih =>
    obtain ⟨k, rfl⟩ : ∃ k', k = k' + 1 + 1 := ⟨k - 2, by simp only [length_cons] at hk; omega⟩
    obtain ⟨ha, -, hrest⟩ := hlink
    obtain ⟨x, hx, rfl⟩ := h.nodes a (by simp)
    obtain ⟨l, r, rfl⟩ := append_of_mem hx
    have hne : x.off ≠ s.freeList := by
      rw [hlist]
      intro heq
      exact (nodup_cons.mp h.free.nodup).1 (by simp [← heq])
    rw [ha, allocSearch, if_pos ⟨hne, hv⟩]
    dsimp only
    rw [h.blocks.memitemSize_eq]
    by_cases hsize : headOff r s.tail - x.off - 24 < size
    · rw [if_pos hsize]
      have hnext := ih (f1 ++ [x.off]) (k := k + 1) (by simpa using h) hrest hsize
        (by simp only [length_cons] at hk; omega)
      rcases hnext with ⟨l', z, r', hbs, hz, hfit, heq⟩ | ⟨hsmall, hnone⟩
      · exact .inl ⟨l', z, r', hbs, mem_cons_of_mem _ hz, hfit, heq⟩
      · refine .inr ⟨forall_mem_cons.mpr ⟨?_, hsmall⟩, hnone⟩
        rwa [h.blocks.memitemSize_eq]
    · rw [if_neg hsize, allocSearch, if_neg (by omega)]
      exact .inl ⟨l, x, r, rfl, mem_cons_self, by omega, rfl⟩

theorem FreeRing.length_lt (h : FreeRing s fs) (hfs : ∀ o ∈ s.freeHeader :: fs, o < 2 ^ 32) :
    fs.length + 1 < searchBound := by
  have hsub : s.freeHeader :: fs ⊆ List.range (2 ^ 32) := fun o ho => mem_range.mpr (hfs o ho)
  have hle := (h.nodup.subperm hsub).length_le
  rw [length_range, length_cons] at hle
  unfold searchBound
  omega

/-- The block `x` and its successors after `rt_memheap_alloc` took `size` bytes of it. -/
def taken (k e size : Nat) (x : Blk) (r : List Blk) : List Blk :=
  if size + 36 ≤ headOff r e - x.off - 24 then
    ⟨x.off, usedTag k⟩ :: ⟨x.off + size + 24, freeTag k⟩ :: r
  else ⟨x.off, usedTag k⟩ :: r

theorem taken_cases (k : Nat) (hroom : size ≤ headOff r e - x.off - 24)
    (hgap : x.off + 24 ≤ headOff r e) :
    ∃ t, taken k e size x r = ⟨x.off, usedTag k⟩ :: t ∧ x.off + 24 + size ≤ headOff t e ∧
      (t = r ∨ t = ⟨x.off + 24 + size, freeTag k⟩ :: r) := by
  unfold taken
  rw [Nat.add_right_comm x.off size]
  split
  · exact ⟨_, rfl, le_rfl, .inr rfl⟩
  · exact ⟨r, rfl, by omega, .inl rfl⟩

theorem taken_coalesced (k e size : Nat) (h : (l ++ x :: r).IsChain (NotBothFree IsFree))
    (hx : IsFree x.tag) : (l ++ taken k e size x r).IsChain (NotBothFree IsFree) := by
  obtain ⟨hl, hxr, -⟩ := isChain_append.mp h
  obtain ⟨hhead, hr⟩ := isChain_cons.mp hxr
  unfold taken
  split
  · refine notBothFree_append_cons (not_isFree_usedTag k) hl ?_
    -- the rest is free, like the block it comes from, whose successor is used
    refine isChain_cons.mpr ⟨fun y hy => .inr ?_, hr⟩
    exact (hhead y hy).resolve_left (not_not.mpr hx)
  · exact notBothFree_append_cons (not_isFree_usedTag k) hl hr

theorem Lists.markUsed (h : Lists s (l ++ x :: r) fs) (hx : IsFree x.tag) :
    Lists (s.setMagic x.off (s.magic x.off ||| rtMemheapUsed))
      (l ++ ⟨x.off, usedTag s.memheap⟩ :: r) fs := by
  have hmagic : s.magic x.off = rtMemheapMagic := by
    rw [Heap.magic_eq_view, h.blocks.view_eq]
    rcases h.blocks.tags x (by simp) with htag | htag
    · rw [htag]
      rfl
    · rw [htag] at hx
      exact absurd hx (not_isFree_usedTag _)
  rw [hmagic]
  exact h.setMagic (.inr rfl)

theorem Inv.take (h : Inv s (l ++ x :: r) fs) (hx : IsFree x.tag) (size : Nat) :
    SameFrame s (takeBlock s x.off (headOff r s.tail - x.off - 24) size) ∧
      ∃ fs', Inv (takeBlock s x.off (headOff r s.tail - x.off - 24) size)
        (l ++ taken s.memheap s.tail size x r) fs' := by
  obtain ⟨f1, f2, rfl, hperm⟩ := h.exists_node hx
  obtain ⟨-, hgap, -, hle⟩ := h.lists.blocks.around
  have hlt := h.lists.freeTotal_lt
  have havail := h.available
  rw [← havail] at hlt
  rw [freeTotal_free hx] at havail
  have hcoalesced := taken_coalesced s.memheap s.tail size h.coalesced hx
  unfold takeBlock
  rw [rtMemheapSize_eq, rtMemheapMinialloc]
  by_cases hsplit : size + 36 ≤ headOff r s.tail - x.off - 24
  · -- the block is cut, and the rest takes its place in the free list
    obtain ⟨hcut, hf⟩ := h.lists.newBlock (n := x.off + size + 24) (by omega) (by omega)
    have hdetached := hcut.detach (by simp)
    have hnot : x.off + size + 24 ∉ f1 ++ f2 := by
      intro hmem
      have hcases := h.lists.node_cases
        (mem_cons_of_mem _ (((sublist_cons_self _ f2).append_left f1).subset hmem))
      omega
    have hinserted := hdetached.insert (x := ⟨x.off + size + 24, freeTag s.memheap⟩) (by simp) hnot
    rw [taken, if_pos hsplit] at hcoalesced ⊢
    rw [if_pos (by omega)]
    have hmarked := (hinserted.setAvailable
      (sub32 (sub32 s.availableSize size) 24)).countUsed.markUsed hx
    refine ⟨⟨rfl, rfl, rfl, rfl, rfl⟩, _, hmarked, ?_, hcoalesced, ?_⟩
    · rw [freeOffs_append, freeOffs_used (not_isFree_usedTag _), freeOffs_free (isFree_freeTag _)]
      exact (hperm.cons _).trans perm_middle.symm
    · change sub32 (sub32 s.availableSize size) 24 = freeTotal s.tail _
      rw [freeTotal_used (not_isFree_usedTag _), freeTotal_cons_free (isFree_freeTag _),
        sub32_of_le (by omega) hlt, sub32_of_le]
      dsimp only
      omega
  · rw [taken, if_neg hsplit] at hcoalesced ⊢
    rw [if_neg (by omega)]
    have hdetached := ((h.lists.setAvailable
      (sub32 s.availableSize (headOff r s.tail - x.off - 24))).countUsed).detach (by simp)
    have hmarked := hdetached.markUsed hx
    refine ⟨⟨rfl, rfl, rfl, rfl, rfl⟩, _, hmarked, ?_, hcoalesced, ?_⟩
    · rw [freeOffs_append, freeOffs_used (not_isFree_usedTag _)]
      exact hperm
    · change sub32 s.availableSize (headOff r s.tail - x.off - 24) = freeTotal s.tail _
      rw [freeTotal_used (not_isFree_usedTag _), sub32_of_le (by omega) hlt]
      dsimp only
      omega

/-- `rt_memheap_alloc` returns `RT_NULL` with the heap unchanged when `available_size` or every free
block is too small, and takes a free block otherwise. -/
theorem rtMemheapAlloc_cases (h : Inv s bs fs) (req : Nat) :
    (rtMemheapAlloc s req = some (rtNull, s) ∧ (roundSize req < s.availableSize →
      ∀ l x r, bs = l ++ x :: r → IsFree x.tag → headOff r s.tail - x.off - 24 < roundSize req)) ∨
    ∃ l x r, bs = l ++ x :: r ∧ IsFree x.tag ∧ roundSize req < s.availableSize ∧
      roundSize req ≤ headOff r s.tail - x.off - 24 ∧
      rtMemheapAlloc s req = some (x.off + 24,
        takeBlock s x.off (headOff r s.tail - x.off - 24) (roundSize req)) := by
  unfold rtMemheapAlloc
  by_cases hlarge : roundSize req < s.availableSize
  · rw [if_pos hlarge]
    have hpos : 0 < roundSize req := by
      unfold roundSize rtMemheapMinialloc
      dsimp only
      split <;> omega
    have hlen := h.lists.free.length_lt fun o ho => by
      have hheader := h.lists.blocks.frame.header
      have htail := h.lists.blocks.tail_lt
      rcases mem_cons.mp ho with rfl | ho
      · omega
      · obtain ⟨z, hz, rfl⟩ := h.lists.nodes o ho
        have := h.lists.blocks.start_le hz
        omega
    have hsearch := allocSearch_spec [] h.lists h.lists.free.ring hpos hlen
    rw [h.lists.blocks.frame.freeList]
    rcases hsearch with ⟨l, x, r, rfl, hmem, hfit, heq⟩ | ⟨hsmall, w, hw, heq⟩
    · have hx : IsFree x.tag := by
        by_contra hused
        exact h.not_mem (by simp) hused hmem
      refine .inr ⟨l, x, r, rfl, hx, hlarge, hfit, ?_⟩
      simp [heq, hfit, rtMemheapSize_eq]
    · refine .inl ⟨?_, fun _ l x r hbs hx => ?_⟩
      · simp [heq, Nat.not_le.mpr hw]
      · subst hbs
        rw [← h.lists.blocks.memitemSize_eq]
        exact hsmall _ (h.perm.mem_iff.mpr (mem_freeOffs.mpr ⟨x, by simp, hx, rfl⟩))
  · exact .inl ⟨if_neg hlarge, fun hlt => absurd hlt hlarge⟩

end RtThread.Memheap
