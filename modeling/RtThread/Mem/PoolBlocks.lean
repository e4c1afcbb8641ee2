import RtThread.Basic
import RtThread.Lib.PointerList
import RtThread.Lib.Run

/-!
# The blocks of a memory pool

`rt_mp_init`, `rt_mp_alloc` with the waiting time 0, and `rt_mp_free` of `mempool.c`, on the memory
of the pool. A pool is cut into slots: a word, and the block behind it. The words of the unused
blocks link them to a list; the word of a used block points to the pool. No thread waits for a
block.

`rt_mp_init` ends the list by a store to the slot in front of the one where its loop has stopped. If
there is no slot at all, this is a store in front of the pool.
-/

namespace RtThread
open Nat
open Function
open ByteMem
open List

/-- The fields of `struct rt_mempool` (`rtdef.h:712-727`). -/
structure MpControl where
  startAddress : Nat
  size : Nat
  blockSize : Nat
  blockList : Nat
  blockTotalCount : Nat
  blockFreeCount : Nat

/-- The fields that `rt_mp_init` sets (`mempool.c:108-118` and `135`). -/
def MpControl.init (start size blockSize : BitVec 32) : MpControl :=
  let size := rtAlignDown size.toNat rtAlignSize
  let blockSize := rtAlign blockSize.toNat rtAlignSize
  let total := size / (blockSize + 4)
  { startAddress := start.toNat
    size := size
    blockSize := blockSize
    blockList := start.toNat
    blockTotalCount := total
    blockFreeCount := total }

/-- Another list of unused blocks, with its length. -/
def MpControl.setList (c : MpControl) (blockList blockFreeCount : Nat) : MpControl :=
  { c with blockList := blockList, blockFreeCount := blockFreeCount }

/-- The memory, the pools by the address of their `struct rt_mempool`, which is elsewhere, and the
blocks that the program holds. -/
structure MpMem where
  mem : ByteMem
  pool : Nat → MpControl
  live : List Nat

inductive MpCall
  /-- `rt_mp_alloc(mp, 0)` -/
  | alloc
  /-- `rt_mp_free(block)` -/
  | free (block : Nat)
  /-- a store of one byte -/
  | store (a : Nat) (v : BitVec 8)

namespace MpMem

/-- The loop of `rt_mp_init` (`:125-129`), up to `offset`. -/
def linkBlocks (m : ByteMem) (blockPtr width : Nat) : Nat → ByteMem
  | 0 => m
  | offset + 1 =>
    (linkBlocks m blockPtr width offset).writeLE 4 ((blockPtr + offset * width) % 2 ^ 32)
      ((blockPtr + (offset + 1) * width) % 2 ^ 32)

/-- The list of `rt_mp_init` (`:124-133`): behind the loop, `offset` is the number of
slots. -/
def initBlocks (m : ByteMem) (c : MpControl) : ByteMem :=
  let width := c.blockSize + 4
  let offset := c.blockTotalCount
  (linkBlocks m c.startAddress width offset).writeLE 4
    ((c.startAddress + sub32 offset 1 * width) % 2 ^ 32) 0

variable (mp : Nat) (s : MpMem)

/-- `rt_mp_init` (`:91-137`); `mp` is the address of the control block. -/
def rtMpInit (mp : Nat) (start size blockSize : BitVec 32) : MpMem :=
  let c := MpControl.init start size blockSize
  { mem := initBlocks s.mem c, pool := update s.pool mp c, live := [] }

/-- `rt_mp_alloc(mp, 0)` (`:320-407`). -/
def rtMpAlloc (mp : Nat) : Nat × MpMem :=
  let pool := s.pool mp
  if pool.blockFreeCount = 0 then (0, s)
  else
    let blockPtr := pool.blockList
    ((blockPtr + 4) % 2 ^ 32,
      { s with
        mem := s.mem.writeLE 4 blockPtr mp
        pool := update s.pool mp
          (pool.setList (s.mem.readLE 4 blockPtr) (sub32 pool.blockFreeCount 1)) })

/-- `rt_mp_free(block)` (`:415-436`). -/
def rtMpFree (block : Nat) : MpMem :=
  let blockPtr := sub32 block 4
  let mp := s.mem.readLE 4 blockPtr
  let pool := s.pool mp
  { s with
    mem := s.mem.writeLE 4 blockPtr pool.blockList
    pool := update s.pool mp (pool.setList blockPtr ((pool.blockFreeCount + 1) % 2 ^ 32)) }

/-- What a program may do: it frees blocks that it holds, and stores into them. -/
def Legal : MpCall → Prop
  | .alloc => True
  | .free block => block ∈ s.live
  | .store a _ => ∃ block ∈ s.live, block ≤ a ∧ a < block + (s.pool mp).blockSize

/-- The effect of a call, and what `rt_mp_alloc` returns. -/
def call : MpCall → Nat × MpMem
  | .alloc =>
    let (block, s) := s.rtMpAlloc mp
    (block, if block = 0 then s else { s with live := block :: s.live })
  | .free block => (0, { s.rtMpFree block with live := s.live.erase block })
  | .store a v => (0, { s with mem := update s.mem a v })

def machine : Machine MpMem MpCall Nat := ⟨Legal mp, call mp⟩

instance (mp : Nat) (s : MpMem) (c : MpCall) : Decidable ((machine mp).Enabled s c) :=
  match c with
  | .alloc => .isTrue trivial
  | .free _ => inferInstanceAs (Decidable (_ ∈ _))
  | .store .. => inferInstanceAs (Decidable (∃ _ ∈ _, _))

end MpMem

namespace MpControl
variable (c : MpControl)

def slot (i : Nat) : Nat := c.startAddress + i * (c.blockSize + 4)

def slots : List Nat := (List.range c.blockTotalCount).map c.slot

end MpControl

/-- The pool is in the address space, does not start at `RT_NULL`, and has its slots inside. -/
structure MpControl.Fits (c : MpControl) : Prop where
  start : c.startAddress ≠ 0
  stop : c.startAddress + c.size < 2 ^ 32
  total : c.blockTotalCount * (c.blockSize + 4) ≤ c.size

/-- The words of the slots `free` form the list from `block_list` on, which ends with `RT_NULL`;
there are `block_free_count` of them, and together with the slots of the blocks that the program
holds they are the slots of the pool, each once. The slots are inside the pool. -/
structure MpBlocks (mp : Nat) (s : MpMem) (free : List Nat) : Prop where
  list : s.mem.ListAt 0 (s.pool mp).blockList free
  count : free.length = (s.pool mp).blockFreeCount
  nodup : (free ++ s.live.map (· - 4)).Nodup
  slots : (free ++ s.live.map (· - 4)).Perm (s.pool mp).slots
  inside : ∀ a ∈ (s.pool mp).slots, (s.pool mp).startAddress ≤ a ∧
    a + ((s.pool mp).blockSize + 4) ≤ (s.pool mp).startAddress + (s.pool mp).size

namespace MpControl
variable {c : MpControl} {a b i j : Nat}

theorem mem_slots : a ∈ c.slots ↔ ∃ i, i < c.blockTotalCount ∧ c.slot i = a := by
  simp [slots]

theorem slot_add_le (h : i < j) : c.slot i + (c.blockSize + 4) ≤ c.slot j := by
  have hmul : (i + 1) * (c.blockSize + 4) ≤ j * (c.blockSize + 4) := mul_le_mul_right _ h
  rw [slot, slot]
  rw [add_mul, one_mul] at hmul
  omega

theorem slots_apart (ha : a ∈ c.slots) (hb : b ∈ c.slots) (hne : a ≠ b) :
    a + (c.blockSize + 4) ≤ b ∨ b + (c.blockSize + 4) ≤ a := by
  obtain ⟨i, -, rfl⟩ := mem_slots.mp ha
  obtain ⟨j, -, rfl⟩ := mem_slots.mp hb
  rcases lt_trichotomy i j with hij | rfl | hij
  · exact .inl (slot_add_le hij)
  · exact absurd rfl hne
  · exact .inr (slot_add_le hij)

theorem words_apart (ha : a ∈ c.slots) (hb : b ∈ c.slots) (hne : a ≠ b) :
    a + 4 ≤ b ∨ b + 4 ≤ a := by
  have := slots_apart ha hb hne
  omega

theorem slots_nodup (c : MpControl) : c.slots.Nodup := by
  refine List.Nodup.map (fun i j heq => ?_) nodup_range
  rcases lt_trichotomy i j with hij | hij | hij
  · have := c.slot_add_le hij
    omega
  · exact hij
  · have := c.slot_add_le hij
    omega

theorem Fits.inside (h : c.Fits) (ha : a ∈ c.slots) :
    c.startAddress ≤ a ∧ a + (c.blockSize + 4) ≤ c.startAddress + c.size := by
  obtain ⟨i, hi, rfl⟩ := mem_slots.mp ha
  have hlast := c.slot_add_le hi
  have htotal := h.total
  rw [slot] at hlast ⊢
  rw [slot] at hlast
  omega

theorem Fits.total_lt (h : c.Fits) : c.blockTotalCount < 2 ^ 32 := by
  have hle : c.blockTotalCount * 1 ≤ c.blockTotalCount * (c.blockSize + 4) :=
    mul_le_mul_left _ (by omega)
  have := h.total
  have := h.stop
  omega

end MpControl

namespace MpMem
variable {mp : Nat} {s : MpMem} {free : List Nat} {a b block : Nat}

/-- What holds between two calls: the blocks are in order, and the word of a used one points to the
pool. -/
structure Inv (mp : Nat) (s : MpMem) (free : List Nat) : Prop extends MpBlocks mp s free where
  fits : (s.pool mp).Fits
  owner : ∀ block ∈ s.live, s.mem.readLE 4 (block - 4) = mp

theorem rtMpAlloc_live (s : MpMem) (mp : Nat) : (s.rtMpAlloc mp).2.live = s.live := by
  rw [rtMpAlloc]
  split <;> rfl

namespace Inv

section
variable (h : Inv mp s free)
include h

theorem mem_free (ha : a ∈ free) : a ∈ (s.pool mp).slots :=
  h.slots.mem_iff.mp (mem_append_left _ ha)

theorem mem_live (hblock : block ∈ s.live) : block - 4 ∈ (s.pool mp).slots :=
  h.slots.mem_iff.mp (mem_append_right _ (mem_map_of_mem hblock))

theorem four_lt (hblock : block ∈ s.live) : 4 < block := by
  have hinside := (h.inside _ (h.mem_live hblock)).1
  have := h.fits.start
  omega

theorem not_mem_free (hblock : block ∈ s.live) : block - 4 ∉ free :=
  fun hfree => (nodup_append.mp h.nodup).2.2 _ hfree _ (mem_map_of_mem hblock) rfl

theorem read_write (ha : a ∈ (s.pool mp).slots) (hblock : block ∈ s.live)
    (hne : block - 4 ≠ a) (v : Nat) :
    (s.mem.writeLE 4 a v).readLE 4 (block - 4) = mp := by
  rw [readLE_writeLE_of_disjoint _ (MpControl.words_apart (h.mem_live hblock) ha hne),
    h.owner block hblock]

theorem length_le : free.length + s.live.length < 2 ^ 32 := by
  have hle := h.slots.length_eq
  have htotal := h.fits.total_lt
  rw [MpControl.slots, length_map, length_range, length_append, length_map] at hle
  omega

theorem relink {m : ByteMem} {p : Nat} {free' live : List Nat} (hlist : m.ListAt 0 p free')
    (hperm : (free' ++ live.map (· - 4)).Perm (free ++ s.live.map (· - 4)))
    (howner : ∀ block ∈ live, m.readLE 4 (block - 4) = mp) :
    Inv mp ⟨m, update s.pool mp ((s.pool mp).setList p free'.length), live⟩ free' := by
  refine ⟨⟨?_, ?_, hperm.nodup_iff.mpr h.nodup, ?_, ?_⟩, ?_, howner⟩
  all_goals simp only [update_self]
  · exact hlist
  · rfl
  · exact hperm.trans h.slots
  · exact h.inside
  · exact ⟨h.fits.start, h.fits.stop, h.fits.total⟩

theorem rtMpAlloc (hmp : mp < 2 ^ 32) :
    (s.rtMpAlloc mp = (0, s) ∧ free = []) ∨
      ∃ a rest, free = a :: rest ∧ (s.rtMpAlloc mp).1 = a + 4 ∧
        Inv mp { (s.rtMpAlloc mp).2 with live := (a + 4) :: s.live } rest := by
  have hcount := h.count
  cases free with
  | nil =>
    refine .inl ⟨?_, rfl⟩
    rw [MpMem.rtMpAlloc]
    exact if_pos hcount.symm
  | cons a rest =>
    have ha := h.mem_free mem_cons_self
    obtain ⟨hhead, -, hrest⟩ := segAt_cons.mp h.list
    have hbounds := h.inside a ha
    have hstop := h.fits.stop
    have hlength := h.length_le
    rw [length_cons] at hcount hlength
    have hrestcount : sub32 (s.pool mp).blockFreeCount 1 = rest.length := by
      rw [sub32_of_le]
      omega
    have hnodup := h.nodup
    rw [cons_append, nodup_cons, mem_append, not_or] at hnodup
    obtain ⟨hnotmem, -⟩ := hnodup
    have hresult : s.rtMpAlloc mp = (a + 4,
        { s with
          mem := s.mem.writeLE 4 a mp
          pool := update s.pool mp ((s.pool mp).setList (s.mem.readLE 4 a) rest.length) }) := by
      rw [MpMem.rtMpAlloc, if_neg (by omega)]
      simp only [hhead, hrestcount]
      rw [mod_eq_of_lt (by omega)]
    refine .inr ⟨a, rest, rfl, by rw [hresult], ?_⟩
    rw [hresult]
    refine h.relink (hrest.writeLE fun b hb => ?_) ?_ fun block hblock => ?_
    · refine MpControl.words_apart (h.mem_free (mem_cons_of_mem a hb)) ha ?_
      rintro rfl
      exact hnotmem.1 hb
    · rw [map_cons, Nat.add_sub_cancel]
      exact perm_middle
    · rcases mem_cons.mp hblock with rfl | hblock
      · rw [Nat.add_sub_cancel, readLE_writeLE_word _ _ hmp]
      · refine h.read_write ha hblock (fun heq => hnotmem.2 ?_) mp
        rw [← heq]
        exact mem_map_of_mem hblock

theorem rtMpAlloc_not_mem (hmp : mp < 2 ^ 32) : (s.rtMpAlloc mp).1 ∉ s.live := by
  intro hmem
  have hfour := h.four_lt hmem
  obtain ⟨hnull, -⟩ | ⟨a, rest, hfree, hresult, -⟩ := h.rtMpAlloc hmp
  · rw [hnull] at hfour
    exact not_lt_zero 4 hfour
  · rw [hresult] at hmem
    refine h.not_mem_free hmem ?_
    rw [hfree, Nat.add_sub_cancel]
    exact mem_cons_self

theorem rtMpFree (hblock : block ∈ s.live) :
    Inv mp { s.rtMpFree block with live := s.live.erase block } ((block - 4) :: free) := by
  have hslot := h.mem_live hblock
  have hfour := h.four_lt hblock
  have hbounds := h.inside _ hslot
  have hstop := h.fits.stop
  have hlength := h.length_le
  have hlive := length_pos_of_mem hblock
  have hcount : ((s.pool mp).blockFreeCount + 1) % 2 ^ 32 = ((block - 4) :: free).length := by
    rw [← h.count, length_cons]
    exact mod_eq_of_lt (by omega)
  have hptr : sub32 block 4 = block - 4 := sub32_of_le
  have hresult : s.rtMpFree block =
      { s with
        mem := s.mem.writeLE 4 (block - 4) (s.pool mp).blockList
        pool := update s.pool mp
          ((s.pool mp).setList (block - 4) ((block - 4) :: free).length) } := by
    rw [MpMem.rtMpFree]
    simp only [hptr, h.owner block hblock, hcount]
  have hperm := perm_cons_erase hblock
  rw [hresult]
  have hlist : ListAt (s.mem.writeLE 4 (block - 4 + 0) (s.pool mp).blockList) 0 (block - 4)
      ((block - 4) :: free) := by
    refine h.list.push (by omega) ?_ fun b hb => ?_
    · rcases h.list.eq_or_mem with hzero | hmem
      · omega
      · have := h.inside _ (h.mem_free hmem)
        omega
    · refine MpControl.words_apart (h.mem_free hb) hslot ?_
      rintro rfl
      exact h.not_mem_free hblock hb
  refine h.relink hlist ?_ fun b hb => ?_
  · exact ((hperm.map (· - 4)).append_left free |>.trans perm_middle).symm
  · have hb' := mem_of_mem_erase hb
    have hne : b ≠ block := fun heq => (Nodup.of_map _ (nodup_append.mp h.nodup).2.1).not_mem_erase
      (heq ▸ hb)
    exact h.read_write hslot hb' (by omega) _

theorem store (hblock : block ∈ s.live) (hlo : block ≤ a)
    (hhi : a < block + (s.pool mp).blockSize) (v : BitVec 8) :
    Inv mp { s with mem := update s.mem a v } free := by
  have hagree : ∀ b ∈ (s.pool mp).slots, AgreeOn (update s.mem a v) s.mem b 4 := by
    intro b hb
    have hfour := h.four_lt hblock
    apply update_agreeOn
    by_cases heq : b = block - 4
    · omega
    · have := MpControl.slots_apart hb (h.mem_live hblock) heq
      omega
  refine ⟨⟨h.list.congr fun b hb => hagree b (h.mem_free hb), h.count, h.nodup, h.slots, h.inside⟩,
    h.fits, fun b hb => ?_⟩
  rw [readLE_congr (hagree _ (h.mem_live hb))]
  exact h.owner b hb

end
end Inv

section Init
variable {m : ByteMem} {c : MpControl} {n i : Nat}

section
variable (h : c.Fits)
include h

theorem slot_lt (hi : i ≤ c.blockTotalCount) : c.slot i < 2 ^ 32 := by
  have hmul : i * (c.blockSize + 4) ≤ c.blockTotalCount * (c.blockSize + 4) :=
    mul_le_mul_right _ hi
  have htotal := h.total
  have hstop := h.stop
  rw [MpControl.slot]
  omega

theorem linkBlocks_succ (hn : n + 1 ≤ c.blockTotalCount) :
    linkBlocks m c.startAddress (c.blockSize + 4) (n + 1) =
      (linkBlocks m c.startAddress (c.blockSize + 4) n).writeLE 4 (c.slot n) (c.slot (n + 1)) := by
  have hslot := slot_lt h (i := n) (by omega)
  have hnext := slot_lt h hn
  rw [MpControl.slot] at hslot hnext
  rw [linkBlocks, mod_eq_of_lt hslot, mod_eq_of_lt hnext]
  rfl

theorem read_linkBlocks (hn : n ≤ c.blockTotalCount) (hi : i < n) :
    (linkBlocks m c.startAddress (c.blockSize + 4) n).readLE 4 (c.slot i) = c.slot (i + 1) := by
  induction n with
  | zero => cases hi
  | succ n ih =>
    rw [linkBlocks_succ h hn]
    rcases lt_or_ge i n with hlt | hge
    · have hapart := c.slot_add_le hlt
      rw [readLE_writeLE_of_disjoint _ (by omega), ih (by omega) hlt]
    · obtain rfl : i = n := by omega
      exact readLE_writeLE_word _ _ (slot_lt h hn)

theorem linkBlocks_apply (hn : n ≤ c.blockTotalCount) {x : Nat}
    (hx : x < c.startAddress ∨ c.startAddress + c.size ≤ x) :
    linkBlocks m c.startAddress (c.blockSize + 4) n x = m x := by
  induction n with
  | zero => rfl
  | succ n ih =>
    have hinside := h.inside (MpControl.mem_slots.mpr ⟨n, hn, rfl⟩)
    rw [linkBlocks_succ h hn, writeLE_apply_of_disjoint _ _ _ _ _ (by omega), ih (by omega)]

theorem initBlocks_eq (hn : c.blockTotalCount = n + 1) (m : ByteMem) :
    initBlocks m c =
      (linkBlocks m c.startAddress (c.blockSize + 4) (n + 1)).writeLE 4 (c.slot n) 0 := by
  have htotal := h.total_lt
  have hslot := slot_lt h (i := n) (by omega)
  rw [MpControl.slot] at hslot
  rw [initBlocks]
  simp only [hn]
  rw [sub32_of_le, Nat.add_sub_cancel, Nat.mod_eq_of_lt hslot]
  rfl

theorem listAt_initBlocks (hpos : c.blockTotalCount ≠ 0) (m : ByteMem) :
    (initBlocks m c).ListAt 0 c.startAddress c.slots := by
  obtain ⟨n, hn⟩ := exists_eq_succ_of_ne_zero hpos
  have hstart : c.slot 0 = c.startAddress := by rw [MpControl.slot, zero_mul, add_zero]
  have hlist : (initBlocks m c).ListAt 0 (c.slot 0) c.slots := by
    rw [initBlocks_eq h hn, MpControl.slots, range_eq_range']
    refine listAt_range (fun j _ hj => ?_) (fun j _ hj => ?_) (fun j hj => ?_) hpos
    · have hinside := h.inside (MpControl.mem_slots.mpr ⟨j, by omega, rfl⟩)
      have := h.start
      omega
    · have hapart := c.slot_add_le (show j < n by omega)
      rw [add_zero, readLE_writeLE_of_disjoint _ (by omega)]
      exact read_linkBlocks h hn.ge (by omega)
    · obtain rfl : j = n := by omega
      exact readLE_writeLE_word _ _ (by decide)
  rwa [hstart] at hlist

theorem initBlocks_apply (hpos : c.blockTotalCount ≠ 0) {x : Nat}
    (hx : x < c.startAddress ∨ c.startAddress + c.size ≤ x) : initBlocks m c x = m x := by
  obtain ⟨n, hn⟩ := exists_eq_succ_of_ne_zero hpos
  have hinside := h.inside (MpControl.mem_slots.mpr ⟨n, by omega, rfl⟩)
  rw [initBlocks_eq h hn, writeLE_apply_of_disjoint _ _ _ _ _ (by omega),
    linkBlocks_apply h (by omega) hx]

end
end Init

/-- The pool is in the address space, does not start at `RT_NULL`, and has room for a block. -/
structure InitOk (start size blockSize : BitVec 32) : Prop where
  notNull : start ≠ 0
  stop : start.toNat + size.toNat < 2 ^ 32
  room : rtAlign blockSize.toNat rtAlignSize + 4 ≤ rtAlignDown size.toNat rtAlignSize

section Runs
variable {start size blockSize : BitVec 32}

theorem alignDown_le (size : BitVec 32) : rtAlignDown size.toNat rtAlignSize ≤ size.toNat := by
  rw [rtAlignSize, rtAlignDown_eight]
  omega

theorem InitOk.fits (h : InitOk start size blockSize) :
    (MpControl.init start size blockSize).Fits ∧
      (MpControl.init start size blockSize).blockTotalCount ≠ 0 := by
  have hdown := alignDown_le size
  have hstop := h.stop
  refine ⟨⟨?_, ?_, div_mul_le_self _ _⟩, ?_⟩
  · intro hzero
    exact h.notNull (BitVec.eq_of_toNat_eq hzero)
  · change start.toNat + rtAlignDown size.toNat rtAlignSize < 2 ^ 32
    omega
  · exact ne_of_gt (div_pos h.room (by omega))

theorem InitOk.inv (h : InitOk start size blockSize) (s : MpMem) (mp : Nat) :
    Inv mp (s.rtMpInit mp start size blockSize) (MpControl.init start size blockSize).slots := by
  obtain ⟨hfits, hpos⟩ := h.fits
  have hpool : (s.rtMpInit mp start size blockSize).pool mp = MpControl.init start size blockSize :=
    update_self ..
  have happend : (MpControl.init start size blockSize).slots ++
      (s.rtMpInit mp start size blockSize).live.map (· - 4) =
        (MpControl.init start size blockSize).slots := append_nil _
  refine ⟨⟨?_, ?_, ?_, ?_, ?_⟩, ?_, by simp [rtMpInit]⟩
  · rw [hpool]
    exact listAt_initBlocks hfits hpos s.mem
  · rw [hpool, MpControl.slots, length_map, length_range]
    rfl
  · rw [happend]
    exact MpControl.slots_nodup _
  · rw [happend, hpool]
  · rw [hpool]
    exact fun a ha => hfits.inside ha
  · rw [hpool]
    exact hfits

theorem Inv.call (h : ∃ free, Inv mp s free) (hmp : mp < 2 ^ 32) {c : MpCall}
    (hlegal : s.Legal mp c) : ∃ free, Inv mp (s.call mp c).2 free := by
  obtain ⟨free, h⟩ := h
  cases c with
  | alloc =>
    rw [MpMem.call]
    obtain ⟨hnull, -⟩ | ⟨a, rest, -, hresult, hinv⟩ := h.rtMpAlloc hmp
    · rw [hnull]
      exact ⟨free, h⟩
    · dsimp only
      rw [if_neg (by omega), hresult, s.rtMpAlloc_live]
      exact ⟨rest, hinv⟩
  | free block => exact ⟨_, h.rtMpFree hlegal⟩
  | store a v =>
    obtain ⟨block, hblock, hlo, hhi⟩ := hlegal
    exact ⟨free, h.store hblock hlo hhi v⟩

/-- If a pool has room for a block, then in every run of a program the unused blocks are in the
list, and no block is given to the program that it holds; `rt_mp_init` has stored inside the pool
only. -/
theorem blocks_of_initOk (h : InitOk start size blockSize) (s₀ : MpMem) (hmp : mp < 2 ^ 32)
    {tr : List (MpCall × Nat)}
    (hrun : Run (machine mp).Step (s₀.rtMpInit mp start size blockSize) tr s) :
    (∃ free, MpBlocks mp s free) ∧ ((s.rtMpAlloc mp).1 ∉ s.live) ∧
      ∀ a, a < start.toNat ∨ start.toNat + size.toNat ≤ a →
        (s₀.rtMpInit mp start size blockSize).mem a = s₀.mem a := by
  have hinv : ∃ free, Inv mp s free := by
    refine hrun.state_invariant ⟨_, h.inv s₀ mp⟩ ?_
    intro s e s' hinv ⟨hlegal, hcall⟩
    have hnext := Inv.call hinv hmp hlegal
    have hcall' : s.call mp e.1 = (e.2, s') := hcall
    rwa [hcall'] at hnext
  obtain ⟨free, hinv⟩ := hinv
  refine ⟨⟨free, hinv.toMpBlocks⟩, hinv.rtMpAlloc_not_mem hmp, fun a ha => ?_⟩
  obtain ⟨hfits, hpos⟩ := h.fits
  have hdown := alignDown_le size
  rw [rtMpInit]
  dsimp only
  rw [initBlocks_apply hfits hpos]
  rw [MpControl.init]
  dsimp only
  omega

/-- Memory that is full of ones, without a pool. -/
def filled : MpMem := ⟨fun _ => 0xff, fun _ => ⟨0, 0, 0, 0, 0, 0⟩, []⟩

/-- A pool of two blocks of 16 bytes: both are taken, the first one is given back and taken again.
-/
theorem blocks_of_initOk_two :
    ∃ tr s, Run (machine 0x20001000).Step (filled.rtMpInit 0x20001000 0x20000000 40 16) tr s ∧
      tr.map Prod.snd = [0x20000004, 0x20000018, 0, 0, 0x20000004] ∧
      ∃ free, MpBlocks 0x20001000 s free := by
  have hrun := (machine 0x20001000).run_steps
    (filled.rtMpInit 0x20001000 0x20000000 40 16)
    [.alloc, .alloc, .alloc, .free 0x20000004, .alloc]
  have hinit : InitOk 0x20000000 40 16 := ⟨by decide, by decide, by decide⟩
  exact ⟨_, _, hrun, by decide +kernel, (blocks_of_initOk hinit filled (by decide) hrun).1⟩

/-- A pool that is too small for one block: `rt_mp_init` stores in front of it, and `block_list` is
not `RT_NULL` although there is no block. -/
theorem small_pool_stores_in_front :
    (filled.rtMpInit 0x20001000 0x20000000 8 16).mem 0x1fffffec ≠ filled.mem 0x1fffffec ∧
      ∀ free, ¬ MpBlocks 0x20001000 (filled.rtMpInit 0x20001000 0x20000000 8 16) free := by
  refine ⟨by decide +kernel, fun free h => ?_⟩
  have hcount : free.length = 0 := h.count
  rw [length_eq_zero_iff] at hcount
  subst hcount
  have hnull := segAt_nil.mp h.list
  revert hnull
  decide +kernel

end Runs
end MpMem
end RtThread
