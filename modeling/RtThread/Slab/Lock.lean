import RtThread.Slab.Heap
import RtThread.Lib.Run

/-!
# The lock of the slab allocator

`rt_page_alloc`, `rt_page_free`, `rt_malloc`, `rt_free` and `rt_realloc` with the semaphore
`heap_sem`, which is not held during calls of the page allocator. Each call is balanced, except one:
if `rt_malloc` gets no pages for a new zone, it has released the lock already, and releases it again
on its way out.
-/

namespace RtThread.Slab

/-- The allocator with `heap_sem.value`, and the values that it has had, the last one first. -/
structure LockedHeap where
  heap : SlabHeap
  sem : BitVec 16
  seen : List (BitVec 16)

section Realloc
variable {σ : Type} (heap : σ → SlabHeap) (setMem : σ → ByteMem → σ)
  (malloc : σ → Nat → Option (Nat × σ)) (free : σ → Nat → Option (Unit × σ))

/-- A new block, a copy of what both blocks have room for, and `rt_free` of the old block
(`slab.c:725-730` and `747-753`). -/
def moveWith (s : σ) (ptr size : Nat) (osize : σ → Nat) : Option (Nat × σ) := do
  let (nptr, s) ← malloc s size
  if nptr = 0 then return (0, s)
  let s := setMem s ((heap s).mem.copy nptr ptr (if osize s < size then osize s else size))
  let (_, s) ← free s ptr
  return (nptr, s)

/-- `rt_realloc` (`:695-756`) over `rt_malloc` and `rt_free`, where `σ` is the state of the heap
with whatever else there is. -/
def reallocWith (s : σ) (ptr size : Nat) : Option (Nat × σ) :=
  if ptr = 0 then malloc s size
  else if size = 0 then do
    let (_, s) ← free s ptr
    return (0, s)
  else
    let kup := (heap s).btokup (ptr / rtMmPageSize * rtMmPageSize)
    if (heap s).kupType kup = PageType.large.code then
      let osize := (heap s).kupSize kup * rtMmPageSize % 2 ^ 32
      moveWith heap setMem malloc free s ptr size fun _ => osize
    else if (heap s).kupType kup = PageType.small.code then
      let z := zoneOf (heap s) ptr
      let (_, size) := zoneindex size
      if (heap s).chunksize z = size then some (ptr, s)
      else moveWith heap setMem malloc free s ptr size fun s => (heap s).chunksize z
    else some (0, s)

end Realloc

/-- `rt_realloc` without the lock. -/
def rtRealloc (s : SlabHeap) (ptr size : Nat) : Option (Nat × SlabHeap) :=
  reallocWith id (fun s m => { s with mem := m }) rtMalloc
    (fun s ptr => (rtFree s ptr).map ((), ·)) s ptr size

namespace LockedHeap
variable (s : LockedHeap)

def setSem (v : BitVec 16) : LockedHeap := { s with sem := v, seen := v :: s.seen }

/-- `rt_sem_take(&heap_sem, RT_WAITING_FOREVER)`; if the value is zero, it waits. -/
def rtSemTake : Option LockedHeap := if s.sem = 0#16 then none else some (s.setSem (s.sem - 1#16))

/-- `rt_sem_release(&heap_sem)`. -/
def rtSemRelease : LockedHeap := s.setSem (s.sem + 1#16)

def setHeap (heap : SlabHeap) : LockedHeap := { s with heap := heap }

def setPages (pages : PageHeap) : LockedHeap := s.setHeap { s.heap with toPageHeap := pages }

def setMem (m : ByteMem) : LockedHeap := s.setHeap { s.heap with mem := m }

/-- `rt_page_alloc` (`:246-280`). -/
def rtPageAlloc (npages : Nat) : Option (Nat × LockedHeap) :=
  if npages = 0 then some (0, s)
  else do
    let s ← s.rtSemTake
    let (b, pages) ← pageAllocLoop s.heap.toPageHeap npages searchBound none
    return (b, (s.setPages pages).rtSemRelease)

/-- `rt_page_free` (`:282-332`). -/
def rtPageFree (addr npages : Nat) : Option (Unit × LockedHeap) := do
  let s ← s.rtSemTake
  let pages ← pageFreeLoop s.heap.toPageHeap addr npages searchBound none
  return ((), (s.setPages pages).rtSemRelease)

variable (ptr size : Nat)

/-- A large request (`:508-536`); the lock is for the statistics. -/
def mallocLarge : Option (Nat × LockedHeap) := do
  let size := rtAlign size rtMmPageSize
  let (chunk, s) ← s.rtPageAlloc (size / rtMmPageSize)
  if chunk = 0 then return (0, s)
  let s := s.setMem (setUsage s.heap.mem (s.heap.btokup chunk) .large (size / rtMmPageSize))
  let s ← s.rtSemTake
  return (chunk, s.rtSemRelease)

/-- A new zone from the page allocator, with its first chunk (`:611-681`). -/
def mallocPages (zi size : Nat) : Option (Nat × LockedHeap) := do
  -- unlock heap, since page allocator will think about lock
  let s := s.rtSemRelease
  let (z, s) ← s.rtPageAlloc (s.heap.zoneSize / rtMmPageSize)
  -- `fail` unlocks the heap
  if z = 0 then return (0, s.rtSemRelease)
  let s ← s.rtSemTake
  let s := s.setMem
    (setUsages s.heap.mem (s.heap.btokup z) .small (fun off => off) s.heap.zonePageCnt)
  let (chunk, heap) := initZone s.heap z zi size
  return (chunk, (s.setHeap heap).rtSemRelease)

/-- `rt_malloc` (`:488-684`). -/
def rtMalloc : Option (Nat × LockedHeap) :=
  if size = 0 then some (0, s)
  else if s.heap.zoneLimit ≤ size then s.mallocLarge size
  else do
    let s ← s.rtSemTake
    let (zi, size) := zoneindex size
    let z := s.heap.zoneArray zi
    if z ≠ 0 then
      let (chunk, heap) := takeChunk s.heap z zi size
      return (chunk, (s.setHeap heap).rtSemRelease)
    else if s.heap.zoneFree ≠ 0 then
      let z := s.heap.zoneFree
      let heap := { s.heap with
        zoneFree := s.heap.znext z, zoneFreeCnt := s.heap.zoneFreeCnt - 1 }
      let (chunk, heap) := initZone heap z zi size
      return (chunk, (s.setHeap heap).rtSemRelease)
    else s.mallocPages zi size

/-- `rt_free` (`:793-935`). -/
def rtFree : Option (Unit × LockedHeap) :=
  if ptr = 0 then some ((), s)
  else
    let kup := s.heap.btokup (ptr / rtMmPageSize * rtMmPageSize)
    if s.heap.kupType kup = PageType.large.code then do
      let s ← s.rtSemTake
      let size := s.heap.kupSize kup
      let s := s.setMem (s.heap.mem.writeLE 4 kup (s.heap.mem.readLE 4 kup % 4))
      let s := s.rtSemRelease
      s.rtPageFree ptr size
    else do
      let s ← s.rtSemTake
      let z := zoneOf s.heap ptr
      let heap := putChunk s.heap z ptr
      if heap.nfree z = heap.nmax z ∧ (heap.znext z ≠ 0 ∨ heap.zoneArray (heap.zindex z) ≠ z) then
        let heap ← unlinkZone heap (heap.zindex z) z searchBound none
        let heap := retireZone heap z
        if 2 < heap.zoneFreeCnt then
          let z := heap.zoneFree
          let heap := { heap with zoneFree := heap.znext z, zoneFreeCnt := heap.zoneFreeCnt - 1 }
          let heap := { heap with
            mem := setUsages heap.mem (heap.btokup z) .free (fun _ => 0) heap.zonePageCnt }
          let s := (s.setHeap heap).rtSemRelease
          s.rtPageFree z (heap.zoneSize / rtMmPageSize)
        else return ((), (s.setHeap heap).rtSemRelease)
      else return ((), (s.setHeap heap).rtSemRelease)

/-- `rt_realloc` (`:695-756`). -/
def rtRealloc : Option (Nat × LockedHeap) :=
  reallocWith heap setMem rtMalloc rtFree s ptr size

/-- `rt_system_heap_init` (`:354-405`) on memory `m`. -/
def rtSystemHeapInit (m : ByteMem) (beginAddr endAddr : BitVec 32) : Option LockedHeap := do
  let heapStart := rtAlign beginAddr.toNat rtMmPageSize
  let heapEnd := rtAlignDown endAddr.toNat rtMmPageSize
  if heapEnd ≤ heapStart then none
  let limsize := heapEnd - heapStart
  let npages := limsize / rtMmPageSize
  let zoneSize := zoneSizeFor limsize
  let s : LockedHeap :=
    { sem := 1#16
      seen := [1#16]
      heap :=
        { mem := m
          pageList := 0
          zoneArray := fun _ => 0
          zoneFree := 0
          zoneFreeCnt := 0
          zoneSize := zoneSize
          zoneLimit := if zoneSize / 4 > 16 * 1024 then 16 * 1024 else zoneSize / 4
          zonePageCnt := zoneSize / rtMmPageSize
          memusage := 0
          heapStart := heapStart } }
  let (_, s) ← s.rtPageFree heapStart npages
  let limsize := rtAlign (npages * 4) rtMmPageSize
  let (memusage, s) ← s.rtPageAlloc (limsize / rtMmPageSize)
  return s.setHeap { s.heap with memusage := memusage }

end LockedHeap

/-- What a program does; it may call the functions with any arguments. -/
inductive LockCall
  /-- `rt_malloc(size)` -/
  | malloc (size : BitVec 32)
  /-- `rt_realloc(ptr, size)` -/
  | realloc (ptr size : BitVec 32)
  /-- `rt_free(ptr)` -/
  | free (ptr : BitVec 32)
  /-- a store of one byte -/
  | store (a : Nat) (x : BitVec 8)

/-- A call without the lock. -/
def SlabHeap.lockCall (s : SlabHeap) : LockCall → Option (Nat × SlabHeap)
  | .malloc size => rtMalloc s size.toNat
  | .realloc ptr size => rtRealloc s ptr.toNat size.toNat
  | .free ptr => (rtFree s ptr.toNat).map (0, ·)
  | .store a x => some (0, { s with mem := Function.update s.mem a x })

/-- A call, with what it returns; `none` if it does not return. -/
def LockedHeap.call (s : LockedHeap) : LockCall → Option (Nat × LockedHeap)
  | .malloc size => s.rtMalloc size.toNat
  | .realloc ptr size => s.rtRealloc ptr.toNat size.toNat
  | .free ptr => (s.rtFree ptr.toNat).map fun (_, s) => (0, s)
  | .store a x => some (0, s.setMem (Function.update s.heap.mem a x))

end RtThread.Slab
