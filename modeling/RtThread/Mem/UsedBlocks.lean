import RtThread.Mem.Realloc
import Mathlib.Algebra.BigOperators.Group.List.Basic

/-!
# The used blocks of a chain

What the four functions of `mem.c` do to the heap, seen by the program: `rt_malloc` adds a used
block, `rt_free` removes one, and the split of `rt_realloc` moves the end of one. Unused blocks that
are cut or merged do not show.
-/

namespace RtThread.Mem
open BlockChain
variable {s s' : Heap} {bs l r : List Blk} {x : Blk} {e size m o stop : Nat}

/-- Where each used block starts, and where the header behind it is. -/
def usedBlocks (e : Nat) (bs : List Blk) : List (Nat × Nat) := spans (fun t => t.used ≠ 0) e bs

theorem usedBlocks_free (hx : x.tag.used = 0) : usedBlocks e (x :: r) = usedBlocks e r :=
  spans_neg (not_not.mpr hx)

theorem usedBlocks_used (hx : x.tag.used ≠ 0) :
    usedBlocks e (x :: r) = (x.off, headOff r e) :: usedBlocks e r :=
  spans_pos hx

theorem usedBlocks_append : usedBlocks e (l ++ r) = usedBlocks (headOff r e) l ++ usedBlocks e r :=
  spans_append

theorem usedBlocks_joinRight : usedBlocks e (joinRight r) = usedBlocks e r := spans_dropFree

theorem usedBlocks_plugged (hx : x.tag.used = 0) :
    usedBlocks e (plugged l x r) = usedBlocks x.off l ++ usedBlocks e r :=
  spans_plug hx

/-- Where the block ends that `rt_malloc` makes of `x`. -/
def takenStop (e size : Nat) (x : Blk) (r : List Blk) : Nat :=
  if x.off + 16 + size + 32 ≤ headOff r e then x.off + 16 + size else headOff r e

theorem le_takenStop (hfit : x.off + 16 + size ≤ headOff r e) :
    x.off + 16 + size ≤ takenStop e size x r ∧ takenStop e size x r ≤ headOff r e := by
  rw [takenStop]
  split <;> omega

theorem usedBlocks_taken : usedBlocks e (l ++ taken e size x r) =
      usedBlocks x.off l ++ (x.off, takenStop e size x r) :: usedBlocks e r := by
  rw [usedBlocks_append, taken, takenStop]
  by_cases hsplit : x.off + 16 + size + 32 ≤ headOff r e
  · rw [if_pos hsplit, if_pos hsplit, usedBlocks_used usedTag_used, usedBlocks_free rfl]
    rfl
  · rw [if_neg hsplit, if_neg hsplit, usedBlocks_used usedTag_used]
    rfl

theorem usedBlocks_unused (hx : x.tag.used = 0) :
    usedBlocks e (l ++ x :: r) = usedBlocks x.off l ++ usedBlocks e r := by
  rw [usedBlocks_append, usedBlocks_free hx, headOff_cons]

theorem usedBlocks_of_used (hx : x.tag.used ≠ 0) : usedBlocks e (l ++ x :: r) =
      usedBlocks x.off l ++ (x.off, headOff r e) :: usedBlocks e r := by
  rw [usedBlocks_append, usedBlocks_used hx, headOff_cons]

theorem usedBlocks_split (hx : x.tag.used ≠ 0) :
    usedBlocks e (l ++ x :: ⟨m, freeTag⟩ :: joinRight r) =
      usedBlocks x.off l ++ (x.off, m) :: usedBlocks e r := by
  rw [usedBlocks_of_used hx, usedBlocks_free rfl, usedBlocks_joinRight, headOff_cons]

/-- The payload of the block whose pointer is `p`: `next - offset - SIZEOF_STRUCT_MEM`. -/
def payload (s : Heap) (p : Nat) : Nat :=
  s.next (p - sizeofStructMem) - (p - sizeofStructMem - s.heapPtr) - sizeofStructMem

theorem Chain.payload_of_mem (h : Chain s' bs) (hf : SameFrame s s')
    (hmem : (o, stop) ∈ usedBlocks s.endOff bs) :
    payload s' (s.heapPtr + o + 16) = stop - o - 16 := by
  obtain ⟨l, x, r, rfl, -, rfl, rfl⟩ := mem_spans.mp hmem
  rw [← hf.heapPtr, payload, sub_sizeofStructMem, Heap.next_eq_view, h.view_eq,
    Nat.add_sub_cancel_left, sizeofStructMem_eq, hf.endOff]

/-- The sum of `next - offset` over the used blocks. -/
def usedTotal (e : Nat) (bs : List Blk) : Nat := ((usedBlocks e bs).map fun b => b.2 - b.1).sum

theorem usedTotal_le {hdr : Nat → Header Tag} {p : Nat} (h : Linked hdr 16 p bs e) :
    usedTotal e bs + headOff bs e ≤ e := by
  induction bs generalizing p with
  | nil => exact Nat.le_of_eq (Nat.zero_add e)
  | cons x bs ih =>
    obtain ⟨-, hgap, hbs⟩ := linked_cons.mp h
    have hle := ih hbs
    rw [usedTotal] at hle ⊢
    rw [headOff_cons]
    by_cases hx : x.tag.used = 0
    · rw [usedBlocks_free hx]
      omega
    · rw [usedBlocks_used hx, List.map_cons, List.sum_cons]
      omega

end RtThread.Mem
