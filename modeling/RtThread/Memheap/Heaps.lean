import RtThread.Memheap.Heap

/-!
# Several memory heaps as the system heap

The functions of `rtthread/kernel/src/memheap.c` under `RT_USING_MEMHEAP_AS_HEAP`. The initialised
memory heaps are in the object list of their class. `rt_malloc` asks `_heap` first and the others in
the order of the list; `rt_realloc` and `rt_free` find the heap of a block through its `pool_ptr`.
All heaps share one memory. A control block is found at its address; its `free_header` is in memory,
its other fields are fields of the model.
-/

namespace RtThread.Memheap

/-- `struct rt_memheap` (`rtdef.h:689-705`) without `free_header`. -/
structure Ctl where
  startAddr : Nat
  poolSize : Nat
  availableSize : Nat
  maxUsedSize : Nat
  blockList : Nat
  freeList : Nat

/-- The memory, the control blocks, the addresses in
`rt_object_container[RT_Object_Class_MemHeap].object_list`, and `&_heap`. -/
structure Heaps where
  mem : ByteMem
  ctl : Nat → Ctl
  objectList : List Nat
  heap : Nat

namespace Heaps

variable (σ : Heaps)

def heapAt (k : Nat) : Heap where
  mem := σ.mem
  memheap := k
  startAddr := (σ.ctl k).startAddr
  poolSize := (σ.ctl k).poolSize
  availableSize := (σ.ctl k).availableSize
  maxUsedSize := (σ.ctl k).maxUsedSize
  blockList := (σ.ctl k).blockList
  freeList := (σ.ctl k).freeList

/-- A memory heap is written back. -/
def put (s : Heap) : Heaps :=
  { σ with
    mem := s.mem
    ctl := Function.update σ.ctl s.memheap ⟨s.startAddr, s.poolSize, s.availableSize,
      s.maxUsedSize, s.blockList, s.freeList⟩ }

/-- A function is called for the heap at `k`. -/
def on (k : Nat) (f : Heap → Option (Nat × Heap)) : Option (Nat × Heaps) :=
  (f (σ.heapAt k)).map fun (p, s) => (p, σ.put s)

def poolPtr (item : Nat) : Nat := σ.mem.readLE 4 (item + 4)

/-- `rt_memheap_init` (`memheap.c:60-131`): `rt_object_init` puts the heap in front of the list
(`object.c:234`). -/
def memheapInit (memheap startAddr size : Nat) : Heaps :=
  { σ.put (rtMemheapInit σ.mem memheap startAddr size) with
    objectList := memheap :: σ.objectList }

/-- `rt_system_heap_init` (`:602-609`). -/
def rtSystemHeapInit (beginAddr endAddr : Nat) : Heaps :=
  σ.memheapInit σ.heap beginAddr (sub32 endAddr beginAddr)

/-- The loop of `rt_malloc` over the object list (`:627-641`). -/
def mallocLoop (σ : Heaps) (size : Nat) : List Nat → Option (Nat × Heaps)
  | [] => some (rtNull, σ)
  | heap :: nodes =>
    -- not allocate in the default system heap
    if heap = σ.heap then mallocLoop σ size nodes
    else do
      let (ptr, σ) ← σ.on heap (rtMemheapAlloc · size)
      if ptr ≠ rtNull then return (ptr, σ) else mallocLoop σ size nodes

/-- `rt_malloc` (`:611-645`). -/
def rtMalloc (size : Nat) : Option (Nat × Heaps) := do
  let (ptr, σ) ← σ.on σ.heap (rtMemheapAlloc · size)
  if ptr = rtNull then mallocLoop σ size σ.objectList else return (ptr, σ)

/-- `rt_free` (`:648-651`). -/
def rtFree (rmem : Nat) : Option Heaps :=
  if rmem = rtNull then some σ
  else (rtMemheapFree (σ.heapAt (σ.poolPtr (rmem - rtMemheapSize))) rmem).map σ.put

/-- `rt_realloc` after its heap has refused: a block of another heap and the copy
(`:668-682`). -/
def reallocOther (rmem newsize : Nat) : Option (Nat × Heaps) := do
  let headerPtr := rmem - rtMemheapSize
  let (newPtr, σ) ← rtMalloc σ newsize
  if newPtr ≠ rtNull then
    let oldsize := (σ.heapAt (σ.poolPtr headerPtr)).memitemSize headerPtr
    let copied := if oldsize < newsize then oldsize else newsize
    return (newPtr, { σ with mem := σ.mem.copy newPtr rmem copied })
  else return (newPtr, σ)

/-- `rt_realloc` (`:654-685`). -/
def rtRealloc (rmem newsize : Nat) : Option (Nat × Heaps) :=
  if rmem = rtNull then rtMalloc σ newsize
  else do
    let headerPtr := rmem - rtMemheapSize
    let (newPtr, σ) ← σ.on (σ.poolPtr headerPtr) (rtMemheapRealloc · rmem newsize)
    if newPtr = rtNull ∧ newsize ≠ 0 then reallocOther σ rmem newsize
    else return (newPtr, σ)

/-- `rt_calloc` (`:688-704`). -/
def rtCalloc (count size : Nat) : Option (Nat × Heaps) := do
  let totalSize := count * size % 2 ^ 32
  let (ptr, σ) ← rtMalloc σ totalSize
  if ptr ≠ rtNull then return (ptr, { σ with mem := σ.mem.fill ptr totalSize 0 })
  else return (ptr, σ)

end Heaps
end RtThread.Memheap
