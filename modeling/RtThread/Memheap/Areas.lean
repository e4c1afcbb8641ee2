import RtThread.Memheap.Resize
import RtThread.Lib.Arena

/-!
# What the functions of a memory heap write

A heap is an arena: it owns its pool and `free_header`, and hands out the payloads of its used
blocks. Its functions write only items, which lie outside these payloads, so that they, and all
memory outside the heap, are kept.
-/

namespace RtThread.Memheap
open BlockChain
open ByteMem
open Heap
open List
variable {s s' : Heap} {bs bs' l r : List Blk} {x y : Blk} {fs f1 f2 : List Nat} {P : Set Nat}
  {gone : Set Nat} {a b d e n o size : Nat}

section Payloads
variable {F : Tag → Prop} [DecidablePred F] {p : Nat × Nat}

/-- The payloads of the blocks whose tag has the property `F`: address and length. -/
def payloads (F : Tag → Prop) [DecidablePred F] (e : Nat) (bs : List Blk) : List (Nat × Nat) :=
  (spans F e bs).map fun b => (b.1 + 24, b.2 - b.1 - 24)

theorem mem_payloads : p ∈ payloads F e bs ↔
    ∃ l x r, bs = l ++ x :: r ∧ F x.tag ∧ p = (x.off + 24, headOff r e - x.off - 24) := by
  rw [payloads, mem_map]
  constructor
  · rintro ⟨⟨o, stop⟩, hmem, rfl⟩
    obtain ⟨l, x, r, hbs, hx, rfl, rfl⟩ := mem_spans.mp hmem
    exact ⟨l, x, r, hbs, hx, rfl⟩
  · rintro ⟨l, x, r, hbs, hx, rfl⟩
    exact ⟨(x.off, headOff r e), mem_spans.mpr ⟨l, x, r, hbs, hx, rfl, rfl⟩, rfl⟩

/-- The payloads of the blocks of a heap whose tag has the property `F`. -/
def Heap.areas (F : Tag → Prop) [DecidablePred F] (s : Heap) : Set (Nat × Nat) :=
  {p | ∃ bs, Blocks s bs ∧ p ∈ payloads F s.tail bs}

theorem Blocks.unique (h : Blocks s bs) (h' : Blocks s bs') : bs = bs' :=
  h.linked.unique (by decide) h'.linked (h.head.trans h'.head.symm)

theorem Blocks.mem_areas (h : Blocks s bs) : p ∈ s.areas F ↔ p ∈ payloads F s.tail bs := by
  constructor
  · rintro ⟨bs', h', hp⟩
    rwa [h.unique h']
  · intro hp
    exact ⟨bs, h, hp⟩

end Payloads

/-- What a heap has handed out. -/
def Heap.usedAreas (s : Heap) : Set (Nat × Nat) := s.areas fun t => ¬ IsFree t

/-- What a heap may hand out. -/
def Heap.freeAreas (s : Heap) : Set (Nat × Nat) := s.areas IsFree

/-- The memory of a heap: the pool, and `free_header` in its control block. -/
def Heap.region (s : Heap) : Set Nat :=
  {a | (s.startAddr ≤ a ∧ a < s.startAddr + s.poolSize) ∨
    (s.freeHeader ≤ a ∧ a < s.freeHeader + 24)}

theorem Blocks.mem_region (h : Blocks s (l ++ x :: r)) (hlo : x.off ≤ a)
    (hhi : a < headOff r s.tail + 24) : a ∈ s.region := by
  have hstart := h.start_le (x := x) (by simp)
  have hle := h.around.2.2.2
  have htail : s.tail = s.startAddr + s.poolSize - 24 := rfl
  exact .inl ⟨by omega, by omega⟩

theorem Heap.usedAreas_within (s : Heap) (p : Nat × Nat) (hp : p ∈ s.usedAreas) :
    p.1 ∈ s.region ∧ ∀ i < p.2, p.1 + i ∈ s.region := by
  obtain ⟨bs, h, hp⟩ := hp
  obtain ⟨l, x, r, rfl, -, rfl⟩ := mem_payloads.mp hp
  have hgap := h.around.2.1
  refine ⟨h.mem_region ?_ ?_, fun i hi => h.mem_region ?_ ?_⟩ <;> dsimp only at * <;> omega

def Heap.arena (s : Heap) : Arena where
  mem := s.mem
  owns := s.region
  used := s.usedAreas
  within := s.usedAreas_within

theorem Blocks.mem_idle (h : Blocks s bs) (ha : a ∈ s.region)
    (hout : ∀ l z r, bs = l ++ z :: r → ¬ IsFree z.tag → z.off + 24 ∉ gone →
      a < z.off + 24 ∨ headOff r s.tail ≤ a) : a ∈ s.arena.Idle gone := by
  refine ⟨ha, fun p hp hstay => ?_⟩
  obtain ⟨l, z, r, hbs, hz, rfl⟩ := mem_payloads.mp (h.mem_areas.mp hp)
  have := hout l z r hbs hz hstay
  omega

theorem Blocks.idle_block (h : Blocks s (l ++ x :: r)) (hx : IsFree x.tag ∨ x.off + 24 ∈ gone)
    (hlo : x.off ≤ a) (hhi : a < headOff r s.tail) : a ∈ s.arena.Idle gone := by
  refine h.mem_idle (h.mem_region hlo (by omega)) fun l' z r' hbs hz hstay => ?_
  have hmem : z ∈ l ++ x :: r := hbs ▸ (by simp)
  have hne : z.off ≠ x.off := by
    intro heq
    obtain rfl := h.off_injective hmem (by simp) heq
    exact hx.elim hz hstay
  have hzx := h.item_cases (.inr (.inr ⟨z, hmem, rfl⟩))
  have hxz := (hbs ▸ h : Blocks s (l' ++ z :: r')).item_cases
    (.inr (.inr ⟨x, hbs ▸ (by simp), rfl⟩))
  omega

/-- The item at `o` lies in `P`. -/
def ItemIn (P : Set Nat) (o : Nat) : Prop := ∀ a, o ≤ a → a < o + 24 → a ∈ P

theorem ItemIn.word (h : ItemIn P o) (d : Fin 21) {v : Nat} {m : ByteMem} :
    Only P m (m.writeLE 4 (o + d) v) :=
  .of_within (.writeLE m le_rfl le_rfl) fun i hi =>
    h _ (by omega) (by omega)

/-- All items of a heap lie in `P`. -/
structure Covers (P : Set Nat) (s : Heap) (bs : List Blk) : Prop where
  header : ItemIn P s.freeHeader
  tail : ItemIn P s.tail
  blocks : ∀ z ∈ bs, ItemIn P z.off

namespace Covers

theorem idle (h : Blocks s bs) (gone : Set Nat) : Covers (s.arena.Idle gone) s bs := by
  have hitem : ∀ o, o = s.freeHeader ∨ o = s.tail ∨ (∃ z ∈ bs, z.off = o) →
      (∀ a, o ≤ a → a < o + 24 → a ∈ s.region) → ItemIn (s.arena.Idle gone) o := by
    intro o ho hregion a hlo hhi
    refine h.mem_idle (hregion a hlo hhi) fun l z r hbs _ _ => ?_
    have hz : Blocks s (l ++ z :: r) := hbs ▸ h
    have hcases := hz.item_cases (hbs ▸ ho)
    omega
  have htail : s.tail = s.startAddr + s.poolSize - 24 := rfl
  have hroom := h.frame.room
  refine ⟨hitem _ (.inl rfl) fun a hlo hhi => .inr ⟨hlo, hhi⟩,
    hitem _ (.inr (.inl rfl)) fun a hlo hhi => .inl (by omega), fun z hz => ?_⟩
  have hstart := h.start_le hz
  exact hitem _ (.inr (.inr ⟨z, hz, rfl⟩)) fun a hlo hhi => .inl (by omega)

theorem mono {Q : Set Nat} (hP : Covers P s bs) (hsub : P ⊆ Q) : Covers Q s bs :=
  ⟨fun a hlo hhi => hsub (hP.header a hlo hhi), fun a hlo hhi => hsub (hP.tail a hlo hhi),
    fun z hz a hlo hhi => hsub (hP.blocks z hz a hlo hhi)⟩

theorem transfer (hP : Covers P s bs) (hf : SameFrame s s')
    (hsub : ∀ z ∈ bs', ItemIn P z.off) : Covers P s' bs' :=
  ⟨hf.freeHeader ▸ hP.header, hf.tail ▸ hP.tail, hsub⟩

theorem nodes (hP : Covers P s bs) (h : Lists s bs fs) : ∀ o ∈ s.freeHeader :: fs, ItemIn P o := by
  refine forall_mem_cons.mpr ⟨hP.header, fun o ho => ?_⟩
  obtain ⟨z, hz, rfl⟩ := h.nodes o ho
  exact hP.blocks z hz

theorem self (hP : Covers P s (l ++ x :: r)) : ItemIn P x.off := hP.blocks x (by simp)

theorem next (hP : Covers P s (l ++ x :: r)) : ItemIn P (headOff r s.tail) := by
  cases r with
  | nil => exact hP.tail
  | cons z r => exact hP.blocks z (by simp)

theorem prev (hP : Covers P s (l ++ x :: r)) : ItemIn P (lastOff s.tail l) := by
  rcases lastOff_cases l s.tail with heq | ⟨z, hz, hoff⟩
  · rw [heq]
    exact hP.tail
  · rw [← hoff]
    exact hP.blocks z (by simp [hz])

end Covers

theorem Heap.mem_setAvailable (s : Heap) (v : Nat) : (s.setAvailable v).mem = s.mem := rfl
theorem Heap.mem_countUsed (s : Heap) : s.countUsed.mem = s.mem := rfl
theorem Heap.mem_setMagic (s : Heap) (o v : Nat) : (s.setMagic o v).mem = s.mem.writeLE 4 o v := rfl

theorem FreeRing.removeFree_only (h : FreeRing s (f1 ++ a :: f2))
    (hP : ∀ o ∈ s.freeHeader :: (f1 ++ a :: f2), ItemIn P o) :
    Only P s.mem (removeFree s a).mem := by
  have ha : a ∈ s.freeHeader :: (f1 ++ a :: f2) := by simp
  rw [h.removeFree_eq]
  exact ((hP _ (h.nextFree_mem ha)).word 20).trans ((hP _ h.prevFree_mem).word 16)

namespace Lists

theorem insertFree_only (h : Lists s bs fs) (hx : x ∈ bs) (hP : Covers P s bs) :
    Only P s.mem (insertFree s x.off).mem := by
  have hsep : x.off + 24 ≤ s.freeHeader ∨ s.freeHeader + 24 ≤ x.off := by
    have hstart := h.blocks.start_le hx
    have hapart := h.blocks.frame.apart
    have htail : s.tail = s.startAddr + s.poolSize - 24 := rfl
    omega
  have hnext := hP.nodes h _ (h.free.nextFree_mem mem_cons_self)
  have hself := hP.blocks x hx
  rw [FreeRing.insertFree_eq h.blocks.frame.freeList hsep]
  exact (((hself.word 16).trans (hself.word 20)).trans (hnext.word 20)).trans (hP.header.word 16)

theorem detachFree_only (h : Lists s bs (f1 ++ x.off :: f2)) (hx : x ∈ bs) (hP : Covers P s bs) :
    Only P s.mem (detachFree s x.off).mem :=
  ((h.free.removeFree_only (hP.nodes h)).trans ((hP.blocks x hx).word 16)).trans
    ((hP.blocks x hx).word 20)

theorem newBlock_only (h : Lists s (l ++ x :: r) fs) (hlo : x.off + 24 ≤ n)
    (hP : Covers P s (l ++ x :: r)) (hn : ItemIn P n) :
    Only P s.mem (Memheap.newBlock s x.off n).mem := by
  rw [newBlock_eq h.blocks.next_eq hlo]
  exact (((((hn.word 0).trans (hn.word 4)).trans (hn.word 12)).trans (hn.word 8)).trans
    (hP.next.word 12)).trans (hP.self.word 8)

theorem joinNext_only (h : Lists s (l ++ x :: y :: r) (f1 ++ y.off :: f2))
    (hP : Covers P s (l ++ x :: y :: r)) : Only P s.mem (Memheap.joinNext s x.off).mem := by
  have hy : Covers P s ((l ++ [x]) ++ y :: r) := by simpa using hP
  rw [h.joinNext_eq]
  exact ((hy.next.word 12).trans (hP.self.word 8)).trans
    ((h.relinked h.relinked_join).2.removeFree_only (hP.nodes h))

theorem unlink_only (h : Lists s (l ++ x :: y :: r) (f1 ++ y.off :: f2))
    (hP : Covers P s (l ++ x :: y :: r)) :
    let s1 := removeFree s y.off
    let s2 := s1.setPrev (s1.next y.off) (s1.prev y.off)
    Only P s.mem (s2.setNext (s2.prev y.off) (s2.next y.off)).mem := by
  have hy : Covers P s ((l ++ [x]) ++ y :: r) := by simpa using hP
  have heq := h.unlink_eq
  dsimp only at heq ⊢
  rw [heq]
  exact ((h.free.removeFree_only (hP.nodes h)).trans (hy.next.word 12)).trans (hP.self.word 8)

theorem mergePrev_only (h : Lists s (l ++ x :: r) fs) (hP : Covers P s (l ++ x :: r)) :
    Only P s.mem (Memheap.mergePrev s x.off).1.mem := by
  have hprev : s.prev x.off = lastOff s.tail l := by rw [prev_eq_view, h.blocks.view_eq]
  have hsep : x.off + 24 ≤ lastOff s.tail l ∨ lastOff s.tail l + 24 ≤ x.off := by
    rcases lastOff_cases l s.tail with heq | ⟨z, hz, hoff⟩
    · have := h.blocks.start_le (x := x) (by simp)
      omega
    · have := h.blocks.around.1 z hz
      omega
  -- `header_ptr->next` is read after a store into the block in front
  have hread : ∀ v, ((s.setAvailable v).setNext (lastOff s.tail l) (headOff r s.tail)).next x.off =
      headOff r s.tail := by
    intro v
    rw [next_eq_view, view_setNext_of_ne hsep, ← next_eq_view]
    exact h.blocks.next_eq
  unfold Memheap.mergePrev
  split
  · exact .refl P s.mem
  · dsimp only
    change Only P s.mem (((s.setAvailable _).setNext (s.prev x.off) (s.next x.off)).setPrev
      (((s.setAvailable _).setNext (s.prev x.off) (s.next x.off)).next x.off) _).mem
    rw [hprev, h.blocks.next_eq, hread]
    exact (hP.prev.word 8).trans (hP.next.word 12)

end Lists

namespace Loose
variable {c : Bool}

theorem joinNext_only (h : Loose s l x (y :: r) fs c) (hy : IsFree y.tag)
    (hP : Covers P s (l ++ x :: y :: r)) : Only P s.mem (Memheap.joinNext s x.off).mem := by
  obtain ⟨f1, f2, rfl⟩ := append_of_mem (h.next_mem hy)
  exact h.lists.joinNext_only hP

theorem setAvailable_joinNext_only (h : Loose s l x (y :: r) fs c) (hy : IsFree y.tag)
    (hP : Covers P s (l ++ x :: y :: r)) (v : Nat) :
    Only P s.mem (Memheap.joinNext (s.setAvailable v) x.off).mem :=
  (h.setAvailable v).joinNext_only hy (hP.transfer (.setAvailable s v) hP.blocks)

/-- The two functions that join `x` with a free neighbour differ in the size that they count. -/
theorem merge_only (h : Loose s l x r fs c) (hP : Covers P s (l ++ x :: r)) :
    Only P s.mem (Memheap.mergeNext s x.off).mem ∧
      Only P s.mem (Memheap.mergeSplit s x.off).mem := by
  unfold Memheap.mergeNext Memheap.mergeSplit
  rw [h.lists.blocks.next_eq]
  rcases h.lists.blocks.next_cases with ⟨hr, -⟩ | ⟨hr, y, r, rfl, hy⟩
  · rw [if_pos hr, if_pos hr]
    exact ⟨.refl P s.mem, .refl P s.mem⟩
  · rw [if_neg hr, if_neg hr]
    exact ⟨h.setAvailable_joinNext_only hy hP _, h.setAvailable_joinNext_only hy hP _⟩

end Loose

theorem rtMemheapFree_only (h : Inv s (l ++ x :: r) fs) (hx : ¬ IsFree x.tag)
    (hP : Covers P s (l ++ x :: r)) (hret : rtMemheapFree s (x.off + 24) = some s') :
    Only P s.mem s'.mem := by
  have hpending := h.release hx
  have hP1 : ∀ v w, Covers P ((s.setMagic x.off v).setAvailable w)
      (l ++ ⟨x.off, freeTag s.memheap⟩ :: r) := by
    intro v w
    have hall := hP.blocks
    rw [forall_mem_append, forall_mem_cons] at hall
    refine hP.transfer ⟨rfl, rfl, rfl, rfl, rfl⟩ ?_
    rwa [forall_mem_append, forall_mem_cons]
  obtain ⟨s2, l', w, c, hmerge, hf, hpending2, hl'⟩ := hpending.mergePrev
  have honly := hpending.lists.mergePrev_only (hP1 _ _)
  -- the block that is free then is the one in front, or the block itself
  have hP2 : Covers P s2 (l' ++ w :: r) := by
    refine (hP1 _ _).transfer hf fun z hz => (hP1 0 0).blocks z ?_
    rw [append_cons, hl'] at hz
    split at hz <;> simp only [mem_append, mem_cons] at hz ⊢ <;> tauto
  rw [rtMemheapFree_eq h.lists.blocks] at hret
  dsimp only at hret hmerge honly
  rw [hmerge] at hret honly
  have hmark := hP.self.word 0 (v := s.magic x.off &&& (2 ^ 32 - 1 - rtMemheapUsed)) (m := s.mem)
  have hnext := (hmark.trans honly).trans (hpending2.merge_only hP2).1
  obtain ⟨hf3, fs3, hpending3⟩ := hpending2.mergeNext
  cases c with
  | false =>
    cases hret
    exact hnext
  | true =>
    cases hret
    refine hnext.trans (hpending3.lists.insertFree_only (by simp) (hP2.transfer hf3 ?_))
    intro z hz
    refine hP2.blocks z ?_
    simp only [mem_append, mem_cons] at hz ⊢
    exact hz.imp_right (.imp_right (dropFree_subset ·))

theorem Covers.cut (hP : Covers P s (l ++ x :: r)) (hf : SameFrame s s') {t : Tag}
    (hn : ItemIn P n) : Covers P s' (l ++ x :: ⟨n, t⟩ :: r) := by
  have hall := hP.blocks
  refine hP.transfer hf ?_
  simp only [forall_mem_append, forall_mem_cons] at hall ⊢
  exact ⟨hall.1, hall.2.1, hn, hall.2.2⟩

theorem Inv.take_only (h : Inv s (l ++ x :: r) fs) (hx : IsFree x.tag) (size : Nat)
    (hP : Covers P s (l ++ x :: r))
    (hn : x.off + size + 48 ≤ headOff r s.tail → ItemIn P (x.off + size + 24)) :
    Only P s.mem (takeBlock s x.off (headOff r s.tail - x.off - 24) size).mem := by
  obtain ⟨f1, f2, rfl, -⟩ := h.exists_node hx
  have hmark : ∀ m, Only P s.mem m → ∀ v, Only P s.mem (m.writeLE 4 x.off v) :=
    fun m hm v => hm.trans (hP.self.word 0)
  unfold takeBlock
  rw [rtMemheapSize_eq, rtMemheapMinialloc]
  dsimp only
  rw [mem_setMagic]
  refine hmark _ ?_ _
  by_cases hsplit : size + 24 + 12 ≤ headOff r s.tail - x.off - 24
  · rw [if_pos hsplit]
    have hnew := hn (by omega)
    obtain ⟨hcut, hf⟩ := h.lists.newBlock (n := x.off + size + 24) (by omega) (by omega)
    have hcutOnly := h.lists.newBlock_only (by omega) hP hnew
    have hP1 := hP.cut (t := freeTag s.memheap) hf hnew
    generalize newBlock s x.off (x.off + size + 24) = s1 at hcut hf hcutOnly hP1 ⊢
    have hdetached := hcut.detach (by simp)
    have hdetachedOnly := hcut.detachFree_only (by simp) hP1
    have hP2 : Covers P (detachFree s1 x.off) _ :=
      hP1.transfer ⟨rfl, rfl, rfl, rfl, rfl⟩ hP1.blocks
    generalize detachFree s1 x.off = s2 at hdetached hdetachedOnly hP2 ⊢
    have hinserted := hdetached.insertFree_only (x := ⟨x.off + size + 24, freeTag s.memheap⟩)
      (by simp) hP2
    rw [mem_countUsed, mem_setAvailable]
    exact (hcutOnly.trans hdetachedOnly).trans hinserted
  · rw [if_neg hsplit]
    have hlists := (h.lists.setAvailable
      (sub32 s.availableSize (headOff r s.tail - x.off - 24))).countUsed
    exact hlists.detachFree_only (by simp) (hP.transfer ⟨rfl, rfl, rfl, rfl, rfl⟩ hP.blocks)

theorem Inv.grow_only (h : Inv s (l ++ x :: y :: r) fs) (hy : IsFree y.tag)
    (hlt : y.off - x.off - 24 < size) (hfit : x.off + 24 + size + 24 ≤ headOff r s.tail)
    (hP : Covers P s (l ++ x :: y :: r)) (hn : ItemIn P (x.off + 24 + size)) :
    Only P s.mem (growBlock s x.off y.off (y.off - x.off - 24) size).mem := by
  have hinv : Inv s ((l ++ [x]) ++ y :: r) fs := by simpa using h
  obtain ⟨f1, f2, rfl, -⟩ := hinv.exists_node hy
  obtain ⟨-, hgap, -, hle⟩ := h.lists.blocks.around
  have hley := hinv.lists.blocks.around.2.2.2
  have htail := h.lists.blocks.tail_lt
  unfold growBlock
  dsimp only
  rw [rtMemheapSize_eq, Nat.mod_eq_of_lt (by omega)]
  have hlists := (h.lists.setAvailable
    (sub32 s.availableSize (sub32 size (y.off - x.off - 24)))).countUsed
  have hunlinked := hlists.unlink
  have honly := hlists.unlink_only (hP.transfer ⟨rfl, rfl, rfl, rfl, rfl⟩ hP.blocks)
  dsimp only at hunlinked honly
  generalize Heap.setNext _ _ _ = s1 at hunlinked honly ⊢
  obtain ⟨hlists1, hf1, -⟩ := hunlinked
  replace hf1 : SameFrame s s1 :=
    ⟨hf1.memheap, hf1.startAddr, hf1.poolSize, hf1.blockList, hf1.freeList⟩
  have hP1 : Covers P s1 (l ++ x :: r) := hP.transfer hf1 fun z hz => hP.blocks z (by
    simp only [mem_append, mem_cons] at hz ⊢
    tauto)
  obtain ⟨hcut, hf2⟩ := hlists1.newBlock (n := x.off + 24 + size) (by omega)
    (by rw [hf1.tail]; exact hfit)
  exact (honly.trans (hlists1.newBlock_only (by omega) hP1 hn)).trans (hcut.insertFree_only
    (x := ⟨x.off + 24 + size, freeTag s1.memheap⟩) (by simp) (hP1.cut hf2 hn))

theorem Inv.shrink_only (h : Inv s (l ++ x :: r) fs) (hx : ¬ IsFree x.tag)
    (hfit : x.off + 24 + size + 24 ≤ headOff r s.tail) (hP : Covers P s (l ++ x :: r))
    (hn : ItemIn P (x.off + 24 + size)) :
    Only P s.mem (shrinkBlock s x.off size).mem := by
  have hcomm : x.off + size + 24 = x.off + 24 + size := by omega
  obtain ⟨hloose, hf, havail⟩ := h.cutOff hx hfit
  have hP1 : Covers P (newBlock s x.off (x.off + 24 + size)) ((l ++ [x]) ++
      ⟨x.off + 24 + size, freeTag s.memheap⟩ :: r) := by
    simpa using hP.cut hf hn
  have hcutOnly := h.lists.newBlock_only (by omega) hP hn
  unfold shrinkBlock
  dsimp only
  rw [rtMemheapSize_eq, hcomm]
  have hmerged := (hloose.merge_only hP1).2
  obtain ⟨hf2, -, fs2, hloose2⟩ := hloose.mergeSplit havail
  generalize mergeSplit _ (x.off + 24 + size) = s2 at hmerged hf2 hloose2 ⊢
  have hP2 : Covers P s2 ((l ++ [x]) ++ ⟨x.off + 24 + size, freeTag s.memheap⟩ ::
      dropFree IsFree r) := by
    refine hP1.transfer hf2 fun z hz => hP1.blocks z ?_
    simp only [mem_append, mem_cons] at hz ⊢
    exact hz.imp_right (.imp_right (dropFree_subset ·))
  rw [mem_setAvailable]
  exact (hcutOnly.trans hmerged).trans (hloose2.lists.insertFree_only
    (x := ⟨x.off + 24 + size, freeTag s.memheap⟩) (by simp) hP2)

end RtThread.Memheap
