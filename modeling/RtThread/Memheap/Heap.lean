import RtThread.Basic
import RtThread.Lib.ByteMem

/-!
# Memory heap objects

`rtthread/kernel/src/memheap.c`. A pool of memory is cut into blocks, each headed by a
`struct rt_memheap_item` of 24 bytes. All blocks, and a used block of length zero at the end of the
pool, are in one circular list in the order of their addresses; the free blocks are in a second
circular list behind `free_header`, which is part of the control block. The items live in byte
memory; the other fields of `struct rt_memheap` are fields of the model. Calls are sequential, so
the semaphore does not appear, and `RT_ASSERT` is empty. A function whose loop may run for ever on a
damaged heap, or that is led to another heap by a damaged `pool_ptr`, returns `none`. Sums of sizes
that stay below `2 ^ 32` on every sound heap are `Nat` sums.
-/

namespace RtThread.Memheap

/-- `RT_MEMHEAP_MAGIC` (`memheap.c:38`). -/
def rtMemheapMagic : Nat := 0x1ea01ea0

/-- `RT_MEMHEAP_USED` (`:40`). -/
def rtMemheapUsed : Nat := 1

/-- `RT_MEMHEAP_MINIALLOC` (`:44`). -/
def rtMemheapMinialloc : Nat := 12

/-- `RT_MEMHEAP_SIZE` (`:46`): `struct rt_memheap_item` has six words. -/
def rtMemheapSize : Nat := rtAlign 24 rtAlignSize

def rtNull : Nat := 0

theorem rtMemheapSize_eq : rtMemheapSize = 24 := by decide

/-- `struct rt_memheap` (`rtdef.h:689-705`) at the address `memheap`, and the memory. -/
structure Heap where
  mem : ByteMem
  memheap : Nat
  startAddr : Nat
  poolSize : Nat
  availableSize : Nat
  maxUsedSize : Nat
  blockList : Nat
  freeList : Nat

namespace Heap

variable (s : Heap) (item v : Nat)

/-- `&(memheap->free_header)`: behind `struct rt_object` and six words. -/
def freeHeader : Nat := s.memheap + 44

def magic : Nat := s.mem.readLE 4 item
def poolPtr : Nat := s.mem.readLE 4 (item + 4)
def next : Nat := s.mem.readLE 4 (item + 8)
def prev : Nat := s.mem.readLE 4 (item + 12)
def nextFree : Nat := s.mem.readLE 4 (item + 16)
def prevFree : Nat := s.mem.readLE 4 (item + 20)

@[simps] def setMagic : Heap :=
  { s with mem := s.mem.writeLE 4 item v }
@[simps] def setPoolPtr : Heap :=
  { s with mem := s.mem.writeLE 4 (item + 4) v }
@[simps] def setNext : Heap :=
  { s with mem := s.mem.writeLE 4 (item + 8) v }
@[simps] def setPrev : Heap :=
  { s with mem := s.mem.writeLE 4 (item + 12) v }
@[simps] def setNextFree : Heap :=
  { s with mem := s.mem.writeLE 4 (item + 16) v }
@[simps] def setPrevFree : Heap :=
  { s with mem := s.mem.writeLE 4 (item + 20) v }

@[simps] def setAvailable : Heap := { s with availableSize := v }

/-- `RT_MEMHEAP_IS_USED(item)` (`:43`). -/
def isUsed : Bool := s.magic item &&& rtMemheapUsed ≠ 0

/-- `MEMITEM_SIZE(item)` (`:47`). -/
def memitemSize : Nat := sub32 (sub32 (s.next item) item) rtMemheapSize

/-- `if (heap->pool_size - heap->available_size > heap->max_used_size) heap->max_used_size = ...;`
(`:244-245`, and twice more). -/
@[simps] def countUsed : Heap :=
  { s with maxUsedSize :=
      if s.maxUsedSize < sub32 s.poolSize s.availableSize then sub32 s.poolSize s.availableSize
      else s.maxUsedSize }

end Heap

variable (s : Heap) (item headerPtr : Nat)

/-- The item at `item`, with both lists leading to itself (`:79-84`, `:91-96`). -/
def initItem : Heap :=
  let s := s.setMagic item rtMemheapMagic
  let s := s.setPoolPtr item s.memheap
  let s := s.setNext item rtNull
  let s := s.setPrev item rtNull
  let s := s.setNextFree item item
  s.setPrevFree item item

/-- The item is put in front of the free list (`:106-109`, and wherever a block becomes
free). -/
def insertFree : Heap :=
  let s := s.setNextFree item (s.nextFree s.freeList)
  let s := s.setPrevFree item s.freeList
  let s := s.setPrevFree (s.nextFree s.freeList) item
  s.setNextFree s.freeList item

/-- The item is taken out of the free list: `item->next_free->prev_free = item->prev_free;
item->prev_free->next_free = item->next_free;` (`:226-227`, and four times more). -/
def removeFree : Heap :=
  let s := s.setPrevFree (s.nextFree item) (s.prevFree item)
  s.setNextFree (s.prevFree item) (s.nextFree item)

/-- The first big memory block, which is put into the free list (`:90-109`). -/
def initFirst : Heap :=
  let item := s.startAddr
  let s := initItem s item
  let s := s.setNext item ((item + s.availableSize + rtMemheapSize) % 2 ^ 32)
  let s := s.setPrev item (s.next item)
  insertFree { s with blockList := item } item

/-- The tailer block, which is used and prevents merging (`:115-121`). -/
def initTail : Heap :=
  let s := s.setMagic item (rtMemheapMagic ||| rtMemheapUsed)
  let s := s.setPoolPtr item s.memheap
  let s := s.setNext item s.startAddr
  let s := s.setPrev item s.startAddr
  (s.setPrevFree item rtNull).setNextFree item rtNull

/-- `rt_memheap_init` (`:60-131`) for a control block at `memheap`. -/
def rtMemheapInit (m : ByteMem) (memheap startAddr size : Nat) : Heap :=
  let poolSize := rtAlignDown size rtAlignSize
  let available := sub32 poolSize (2 * rtMemheapSize)
  let s : Heap :=
    { mem := m, memheap := memheap, startAddr := startAddr, poolSize := poolSize,
      availableSize := available, maxUsedSize := sub32 poolSize available, blockList := 0,
      freeList := memheap + 44 }
  let s := initFirst (initItem s s.freeHeader)
  initTail s (s.next startAddr)

/-- The size that is really allocated (`:155-157`, `:306-308`). -/
def roundSize (size : Nat) : Nat :=
  let size := rtAlign size rtAlignSize
  if size < rtMemheapMinialloc then rtMemheapMinialloc else size

/-- The search of `rt_memheap_alloc` (`:178-187`): where it stops, and the last size it has
seen. Its state is the pointer, since `free_size` is read anew in each round. -/
def allocSearch (s : Heap) (size : Nat) : Nat → Nat → Nat → Option (Nat × Nat)
  | 0, _, _ => none
  | fuel + 1, headerPtr, freeSize =>
    if headerPtr ≠ s.freeList ∧ freeSize < size then
      let freeSize := s.memitemSize headerPtr
      allocSearch s size fuel (if freeSize < size then s.nextFree headerPtr else headerPtr) freeSize
    else some (headerPtr, freeSize)

/-- More rounds than there are pointers: a search that goes on has come back to one. -/
def searchBound : Nat := 2 ^ 32 + 1

/-- A new free block at `newPtr`, behind the block at `headerPtr` (`:211-221`,
`:376-384`, `:440-448`). -/
def newBlock (newPtr : Nat) : Heap :=
  let s := s.setMagic newPtr rtMemheapMagic
  let s := s.setPoolPtr newPtr s.memheap
  let s := s.setPrev newPtr headerPtr
  let s := s.setNext newPtr (s.next headerPtr)
  let s := s.setPrev (s.next headerPtr) newPtr
  s.setNext headerPtr newPtr

/-- `header_ptr` is taken out of the free list, and its links are cleared (`:224-229`,
`:261-264`). -/
def detachFree : Heap :=
  ((removeFree s headerPtr).setNextFree headerPtr rtNull).setPrevFree headerPtr rtNull

/-- `rt_memheap_alloc` on the block it found (`:190-268`). -/
def takeBlock (freeSize size : Nat) : Heap :=
  let s :=
    if size + rtMemheapSize + rtMemheapMinialloc ≤ freeSize then
      let newPtr := headerPtr + size + rtMemheapSize
      let s := newBlock s headerPtr newPtr
      let s := detachFree s headerPtr
      let s := insertFree s newPtr
      (s.setAvailable (sub32 (sub32 s.availableSize size) rtMemheapSize)).countUsed
    else
      detachFree (s.setAvailable (sub32 s.availableSize freeSize)).countUsed headerPtr
  s.setMagic headerPtr (s.magic headerPtr ||| rtMemheapUsed)

/-- `rt_memheap_alloc` (`:146-288`). -/
def rtMemheapAlloc (size : Nat) : Option (Nat × Heap) :=
  let size := roundSize size
  if size < s.availableSize then do
    let (headerPtr, freeSize) ← allocSearch s size searchBound (s.nextFree s.freeList) 0
    if size ≤ freeSize then
      return (headerPtr + rtMemheapSize, takeBlock s headerPtr freeSize size)
    else return (rtNull, s)
  else some (rtNull, s)

/-- The merge of `rt_memheap_free` with the previous block (`:546-562`): the heap, the
block that is now free, and whether it must be inserted. -/
def mergePrev : Heap × Nat × Bool :=
  if s.isUsed (s.prev headerPtr) then (s, headerPtr, true)
  else
    let s := s.setAvailable ((s.availableSize + rtMemheapSize) % 2 ^ 32)
    let s := s.setNext (s.prev headerPtr) (s.next headerPtr)
    let s := s.setPrev (s.next headerPtr) (s.prev headerPtr)
    (s, s.prev headerPtr, false)

/-- The next block is skipped in the block list, and taken out of the free list
(`:460-469`, `:571-580`). -/
def joinNext : Heap :=
  let nextPtr := s.next headerPtr
  let s := s.setPrev (s.next nextPtr) headerPtr
  let s := s.setNext headerPtr (s.next nextPtr)
  removeFree s nextPtr

/-- The merge of `rt_memheap_free` with the next block (`:565-580`). -/
def mergeNext : Heap :=
  if s.isUsed (s.next headerPtr) then s
  else joinNext (s.setAvailable ((s.availableSize + rtMemheapSize) % 2 ^ 32)) headerPtr

/-- `rt_memheap_free` (`:499-596`). -/
def rtMemheapFree (ptr : Nat) : Option Heap :=
  if ptr = rtNull then some s
  else
    let headerPtr := ptr - rtMemheapSize
    if s.poolPtr headerPtr ≠ s.memheap then none
    else
      let s := s.setMagic headerPtr (s.magic headerPtr &&& (2 ^ 32 - 1 - rtMemheapUsed))
      let s := s.setAvailable ((s.availableSize + s.memitemSize headerPtr) % 2 ^ 32)
      let (s, headerPtr, insertHeader) := mergePrev s headerPtr
      let s := mergeNext s headerPtr
      some (if insertHeader then insertFree s headerPtr else s)

/-- `rt_memheap_realloc` takes a part of the free block `nextPtr` behind `headerPtr`, whose payload
of `oldsize` bytes grows to `newsize` (`:349-402`). -/
def growBlock (nextPtr oldsize newsize : Nat) : Heap :=
  let s := (s.setAvailable (sub32 s.availableSize (sub32 newsize oldsize))).countUsed
  let s := removeFree s nextPtr
  let s := s.setPrev (s.next nextPtr) (s.prev nextPtr)
  let s := s.setNext (s.prev nextPtr) (s.next nextPtr)
  -- build a new one on the right place
  let nextPtr := (headerPtr + rtMemheapSize + newsize) % 2 ^ 32
  insertFree (newBlock s headerPtr nextPtr) nextPtr

/-- `rt_memheap_realloc` moves the payload to a new block (`:412-420`). -/
def moveBlock (ptr oldsize newsize : Nat) : Option (Nat × Heap) := do
  let (newPtr, s) ← rtMemheapAlloc s newsize
  if newPtr ≠ rtNull then
    let s := { s with
      mem := s.mem.copy newPtr ptr (if oldsize < newsize then oldsize else newsize) }
    return (newPtr, ← rtMemheapFree s ptr)
  else return (newPtr, s)

/-- The merge of `rt_memheap_realloc` (`:451-470`). -/
def mergeSplit (newPtr : Nat) : Heap :=
  if s.isUsed (s.next newPtr) then s
  else joinNext (s.setAvailable (sub32 s.availableSize (s.memitemSize (s.next newPtr)))) newPtr

/-- `rt_memheap_realloc` gives the end of a block back (`:424-490`). -/
def shrinkBlock (newsize : Nat) : Heap :=
  let newPtr := headerPtr + newsize + rtMemheapSize
  let s := newBlock s headerPtr newPtr
  let s := mergeSplit s newPtr
  let s := insertFree s newPtr
  s.setAvailable ((s.availableSize + s.memitemSize newPtr) % 2 ^ 32)

/-- `rt_memheap_realloc` (`:291-496`). -/
def rtMemheapRealloc (ptr newsize : Nat) : Option (Nat × Heap) :=
  if newsize = 0 then do
    return (rtNull, ← rtMemheapFree s ptr)
  else
    let newsize := roundSize newsize
    if ptr = rtNull then rtMemheapAlloc s newsize
    else
      let headerPtr := ptr - rtMemheapSize
      let oldsize := s.memitemSize headerPtr
      if oldsize < newsize then
        let nextPtr := s.next headerPtr
        if ¬ s.isUsed nextPtr ∧
            (newsize + rtMemheapMinialloc) % 2 ^ 32 <
              (s.memitemSize nextPtr + oldsize) % 2 ^ 32 then
          some (ptr, growBlock s headerPtr nextPtr oldsize newsize)
        else moveBlock s ptr oldsize newsize
      else if oldsize ≤ newsize + rtMemheapSize + rtMemheapMinialloc then some (ptr, s)
      else some (ptr, shrinkBlock s headerPtr newsize)

end RtThread.Memheap
