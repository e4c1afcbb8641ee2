import RtThread.Basic
import RtThread.Lib.ByteMem

/-!
# The small-memory heap

`rtthread/kernel/src/mem.c` as configured by `rtconfig.h`: `RT_USING_SMALL_MEM`, no `RT_DEBUG`, so
`RT_ASSERT` is empty. The heap lives in byte memory; a block starts with a `struct heap_mem` of
twelve bytes, padded to sixteen. Pointers are addresses, `rt_size_t` offsets are relative to
`heap_ptr`. A function whose loop may run forever on a damaged heap returns `none` in that case;
calls are sequential, so the semaphore does not appear. Sums of `rt_size_t` values that stay below
`2 ^ 32` on every accepted heap are `Nat` sums, differences and `RT_ALIGN` have their wrap-around.
-/

namespace RtThread.Mem

/-- `HEAP_MAGIC` (`mem.c:107`). -/
def heapMagic : Nat := 0x1ea0

/-- `MIN_SIZE` (`:123`). -/
def minSize : Nat := 12

/-- `MIN_SIZE_ALIGNED` (`:124`). -/
def minSizeAligned : Nat := rtAlign minSize rtAlignSize

/-- `SIZEOF_STRUCT_MEM` (`:125`); `struct heap_mem` itself takes twelve bytes. -/
def sizeofStructMem : Nat := rtAlign 12 rtAlignSize

/-- `RT_NULL` (`rtdef.h:290`). -/
def rtNull : Nat := 0

theorem minSizeAligned_eq : minSizeAligned = 16 := by decide
theorem sizeofStructMem_eq : sizeofStructMem = 16 := by decide
theorem sub_sizeofStructMem (p : Nat) : p + 16 - sizeofStructMem = p := by
  rw [sizeofStructMem_eq, Nat.add_sub_cancel]
theorem payload_ne_null (p : Nat) : p + 16 ≠ rtNull := Nat.succ_ne_zero _

/-- The static variables of `:117-134` and the memory they describe. -/
structure Heap where
  mem : ByteMem
  heapPtr : Nat
  heapEnd : Nat
  lfree : Nat
  memSizeAligned : Nat
  usedMem : Nat
  maxMem : Nat

namespace Heap

variable (s : Heap) (mem v : Nat)

def magic : Nat := s.mem.readLE 2 mem
def used : Nat := s.mem.readLE 2 (mem + 2)
def next : Nat := s.mem.readLE 4 (mem + 4)
def prev : Nat := s.mem.readLE 4 (mem + 8)

@[simps] def setMagic : Heap := { s with mem := s.mem.writeLE 2 mem v }
@[simps] def setUsed : Heap := { s with mem := s.mem.writeLE 2 (mem + 2) v }
@[simps] def setNext : Heap := { s with mem := s.mem.writeLE 4 (mem + 4) v }
@[simps] def setPrev : Heap := { s with mem := s.mem.writeLE 4 (mem + 8) v }

/-- `used_mem += n; if (max_mem < used_mem) max_mem = used_mem;` (`:321-323`). -/
@[simps] def addUsedMem (n : Nat) : Heap :=
  let used := (s.usedMem + n) % 2 ^ 32
  { s with usedMem := used, maxMem := if s.maxMem < used then used else s.maxMem }

end Heap

variable (s : Heap) (ptr size mem : Nat)

/-- `if (lfree == b) lfree = a; a->next = b->next; (&heap_ptr[b->next])->prev = a - heap_ptr;`,
which `plug_holes` does twice (`:154-159`, `:167-172`). -/
def mergeInto (a b : Nat) : Heap :=
  let s := if s.lfree = b then { s with lfree := a } else s
  let s := s.setNext a (s.next b)
  s.setPrev (s.heapPtr + s.next b) (a - s.heapPtr)

/-- The forward half of `plug_holes` (`:146-160`). -/
def plugForward : Heap :=
  let nmem := s.heapPtr + s.next mem
  if mem ≠ nmem ∧ s.used nmem = 0 ∧ nmem ≠ s.heapEnd then mergeInto s mem nmem else s

/-- The backward half of `plug_holes` (`:163-173`). -/
def plugBackward : Heap :=
  let pmem := s.heapPtr + s.prev mem
  if pmem ≠ mem ∧ s.used pmem = 0 then mergeInto s pmem mem else s

/-- `plug_holes` (`:136-174`). -/
def plugHoles : Heap := plugBackward (plugForward s mem) mem

/-- The header at the start of the heap (`:213-218`). -/
def initStart : Heap :=
  let mem := s.heapPtr
  let s := s.setMagic mem heapMagic
  let s := s.setNext mem (s.memSizeAligned + sizeofStructMem)
  let s := s.setPrev mem 0
  s.setUsed mem 0

/-- The end of the heap (`:220-225`); `mem` is the header at its start. -/
def initEnd : Heap :=
  let heapEnd := s.heapPtr + s.next mem
  let s := { s with heapEnd := heapEnd }
  let s := s.setMagic heapEnd heapMagic
  let s := s.setUsed heapEnd 1
  let s := s.setNext heapEnd (s.memSizeAligned + sizeofStructMem)
  s.setPrev heapEnd (s.memSizeAligned + sizeofStructMem)

/-- `rt_system_heap_init` (`:184-231`) on memory `m`, `none` when it refuses the addresses.
The statistics are static variables, zero before the first call. -/
def rtSystemHeapInit (m : ByteMem) (beginAddr endAddr : Nat) : Option Heap :=
  let beginAlign := rtAlign beginAddr rtAlignSize
  let endAlign := rtAlignDown endAddr rtAlignSize
  if 2 * sizeofStructMem < endAlign ∧ beginAlign ≤ endAlign - 2 * sizeofStructMem then
    let s : Heap :=
      { mem := m, heapPtr := beginAlign, heapEnd := 0, lfree := 0,
        memSizeAligned := endAlign - beginAlign - 2 * sizeofStructMem, usedMem := 0, maxMem := 0 }
    let s := initEnd (initStart s) s.heapPtr
    some { s with lfree := s.heapPtr }
  else none

/-- A loop whose only state is one 32-bit word and that has not ended after this many rounds
repeats a word, hence never ends. -/
def loopBound : Nat := 2 ^ 32

/-- The search loop of `rt_malloc` (`:279-285`) from offset `ptr` on: the offset of the block
it stops at, `some none` when it runs off the end, `none` when it never ends. -/
def mallocSearch (s : Heap) (size : Nat) : Nat → Nat → Option (Option Nat)
  | 0, _ => none
  | fuel + 1, ptr =>
    if ptr < sub32 s.memSizeAligned size then
      let mem := s.heapPtr + ptr
      if s.used mem = 0 ∧ size ≤ sub32 (s.next mem) (ptr + sizeofStructMem) then some (some ptr)
      else mallocSearch s size fuel (s.next mem)
    else some none

/-- A new unused header at offset `ptr2`, inserted between the one at `ptr` and its successor, as
`rt_malloc` (`:305-313`) and `rt_realloc` (`:438-444`) both do. -/
def createMem2 (ptr2 : Nat) : Heap :=
  let mem := s.heapPtr + ptr
  let mem2 := s.heapPtr + ptr2
  let s := s.setMagic mem2 heapMagic
  let s := s.setUsed mem2 0
  let s := s.setNext mem2 (s.next mem)
  let s := s.setPrev mem2 ptr
  s.setNext mem ptr2

/-- `if (mem2->next != mem_size_aligned + SIZEOF_STRUCT_MEM) (&heap_ptr[mem2->next])->prev = ptr2;`
(`:316-319`, `:445-448`). -/
def fixPrev (ptr2 : Nat) : Heap :=
  let mem2 := s.heapPtr + ptr2
  if s.next mem2 ≠ s.memSizeAligned + sizeofStructMem then
    s.setPrev (s.heapPtr + s.next mem2) ptr2
  else s

/-- `rt_malloc` on the block it found (`:290-343`): split it or take it whole. -/
def takeBlock : Heap :=
  let mem := s.heapPtr + ptr
  let s :=
    if size + sizeofStructMem + minSizeAligned ≤ sub32 (s.next mem) (ptr + sizeofStructMem) then
      let ptr2 := ptr + sizeofStructMem + size
      let s := createMem2 s ptr ptr2
      let s := s.setUsed mem 1
      let s := fixPrev s ptr2
      s.addUsedMem (size + sizeofStructMem)
    else
      let s := s.setUsed mem 1
      s.addUsedMem (sub32 (s.next mem) (mem - s.heapPtr))
  s.setMagic mem heapMagic

/-- `while (lfree->used && lfree != heap_end) lfree = &heap_ptr[lfree->next];`
(`:348-349`). -/
def skipUsed (s : Heap) : Nat → Nat → Option Nat
  | 0, _ => none
  | fuel + 1, lfree =>
    if s.used lfree ≠ 0 ∧ lfree ≠ s.heapEnd then skipUsed s fuel (s.heapPtr + s.next lfree)
    else some lfree

/-- `if (mem == lfree)` of `rt_malloc` (`:345-352`). -/
def advanceLfree : Option Heap :=
  if mem = s.lfree then do
    let lfree ← skipUsed s loopBound s.lfree
    return { s with lfree := lfree }
  else some s

/-- The size `rt_malloc` looks for (`:272-274`), given the aligned request. -/
def blockSize : Nat := if size < minSizeAligned then minSizeAligned else size

/-- `rt_malloc` (`:246-375`). -/
def rtMalloc : Option (Nat × Heap) :=
  if size = 0 then some (rtNull, s)
  else
    let size := rtAlign size rtAlignSize
    if s.memSizeAligned < size then some (rtNull, s)
    else do
      let size := blockSize size
      match ← mallocSearch s size loopBound (s.lfree - s.heapPtr) with
      | none => return (rtNull, s)
      | some ptr =>
        let mem := s.heapPtr + ptr
        let s ← advanceLfree (takeBlock s ptr size) mem
        return (mem + sizeofStructMem, s)

/-- `rt_free` (`:505-559`). -/
def rtFree (rmem : Nat) : Heap :=
  if rmem = rtNull then s
  else if rmem < s.heapPtr ∨ s.heapEnd ≤ rmem then s
  else
    let mem := rmem - sizeofStructMem
    let s := s.setUsed mem 0
    let s := s.setMagic mem heapMagic
    let s := if mem < s.lfree then { s with lfree := mem } else s
    let s := { s with usedMem := sub32 s.usedMem (sub32 (s.next mem) (mem - s.heapPtr)) }
    plugHoles s mem

/-- The split of `rt_realloc` (`:431-455`): the block at offset `ptr`, of payload `size`,
keeps `newsize` bytes. -/
def reallocSplit (newsize : Nat) : Heap :=
  let s := { s with usedMem := sub32 s.usedMem (size - newsize) }
  let ptr2 := ptr + sizeofStructMem + newsize
  let s := createMem2 s ptr ptr2
  let s := fixPrev s ptr2
  plugHoles s (s.heapPtr + ptr2)

/-- `rt_realloc` (`:386-467`). -/
def rtRealloc (rmem newsize : Nat) : Option (Nat × Heap) :=
  let newsize := rtAlign newsize rtAlignSize
  if s.memSizeAligned < newsize then some (rtNull, s)
  else if rmem = rtNull then rtMalloc s newsize
  else if rmem < s.heapPtr ∨ s.heapEnd ≤ rmem then some (rmem, s)
  else
    let mem := rmem - sizeofStructMem
    let ptr := mem - s.heapPtr
    let size := sub32 (sub32 (s.next mem) ptr) sizeofStructMem
    if size = newsize then some (rmem, s)
    else if newsize + sizeofStructMem + minSize < size then
      some (rmem, reallocSplit s ptr size newsize)
    else do
      let (nmem, s) ← rtMalloc s newsize
      if nmem ≠ rtNull then
        let s := { s with mem := s.mem.copy nmem rmem (if size < newsize then size else newsize) }
        return (nmem, rtFree s rmem)
      else return (nmem, s)

/-- `rt_calloc` (`:482-496`). -/
def rtCalloc (count size : Nat) : Option (Nat × Heap) := do
  let n := count * size % 2 ^ 32
  let (p, s) ← rtMalloc s n
  if p ≠ rtNull then return (p, { s with mem := s.mem.fill p n 0 })
  else return (p, s)

end RtThread.Mem
