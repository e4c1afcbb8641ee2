import RtThread.Slab.Pages

/-!
# The slab allocator

`rt_system_heap_init`, `rt_malloc` and `rt_free` of `slab.c`. Small requests are served from zones:
runs of pages that start with a `slab_zone` and are cut into chunks of one size. The zones with free
chunks are linked in `zone_array` by their size; zones without used chunks are kept in `zone_free`
and go back to the page allocator when there are more than two. The array `memusage` has, for each
page, where its zone starts.

The memory is that of the page allocator. Calls are sequential, so the semaphore does not appear;
the statistics of `RT_MEM_STATS` are left out.
-/

namespace RtThread.Slab
open Function (update)

/-- `ZALLOC_SLAB_MAGIC` (`slab.c:195`). -/
def zallocSlabMagic : Nat := 0x51ab51ab

/-- `NZONES` (`:199`). -/
def nzones : Nat := 72

def sizeofSlabZone : Nat := 36

/-- `PAGE_TYPE_FREE`, `PAGE_TYPE_SMALL` and `PAGE_TYPE_LARGE` (`:220-222`). -/
inductive PageType
  | free | small | large
  deriving DecidableEq

/-- The value of a page type in its two bits. -/
def PageType.code : PageType → Nat
  | .free => 0
  | .small => 1
  | .large => 2

/-- The static variables of `slab.c`, with the memory. -/
structure SlabHeap extends PageHeap where
  zoneArray : Nat → Nat
  zoneFree : Nat
  zoneFreeCnt : Int
  zoneSize : Nat
  zoneLimit : Nat
  zonePageCnt : Nat
  memusage : Nat
  heapStart : Nat

namespace SlabHeap
variable (s : SlabHeap) (z v : Nat)

def nfree : Nat := s.mem.readLE 4 (z + 4)
def nmax : Nat := s.mem.readLE 4 (z + 8)
def znext : Nat := s.mem.readLE 4 (z + 12)
def baseptr : Nat := s.mem.readLE 4 (z + 16)
def uindex : Nat := s.mem.readLE 4 (z + 20)
def chunksize : Nat := s.mem.readLE 4 (z + 24)
def zindex : Nat := s.mem.readLE 4 (z + 28)
def freechunk : Nat := s.mem.readLE 4 (z + 32)

def setMagic : SlabHeap := { s with mem := s.mem.writeLE 4 z v }
def setNfree : SlabHeap := { s with mem := s.mem.writeLE 4 (z + 4) v }
def setNmax : SlabHeap := { s with mem := s.mem.writeLE 4 (z + 8) v }
def setZnext : SlabHeap := { s with mem := s.mem.writeLE 4 (z + 12) v }
def setBaseptr : SlabHeap := { s with mem := s.mem.writeLE 4 (z + 16) v }
def setUindex : SlabHeap := { s with mem := s.mem.writeLE 4 (z + 20) v }
def setChunksize : SlabHeap := { s with mem := s.mem.writeLE 4 (z + 24) v }
def setZindex : SlabHeap := { s with mem := s.mem.writeLE 4 (z + 28) v }
def setFreechunk : SlabHeap := { s with mem := s.mem.writeLE 4 (z + 32) v }

/-- `zone_array[zi] = v`. -/
def setZoneArray (zi : Nat) : SlabHeap := { s with zoneArray := update s.zoneArray zi v }

/-- `*pz`, where `pz` is `&zone_array[zi]` or the address of the field `z_next` of a zone. -/
def zoneLink (zi : Nat) (pz : Option Nat) : Nat := s.mem.linkValue 12 (s.zoneArray zi) pz

/-- `*pz = v`. -/
def setZoneLink (zi : Nat) (pz : Option Nat) : SlabHeap :=
  { s with
    mem := (s.mem.linkStore 12 (s.zoneArray zi) pz v).1
    zoneArray := update s.zoneArray zi (s.mem.linkStore 12 (s.zoneArray zi) pz v).2 }

/-- `btokup(addr)` (`:229-230`). -/
def btokup (addr : Nat) : Nat := s.memusage + 4 * (sub32 addr s.heapStart / rtMmPageSize)

def kupType (kup : Nat) : Nat := s.mem.readLE 4 kup % 4

def kupSize (kup : Nat) : Nat := s.mem.readLE 4 kup / 4

end SlabHeap

/-- `kup->type = type; kup->size = size;` -/
def setUsage (m : ByteMem) (kup : Nat) (type : PageType) (size : Nat) : ByteMem :=
  let m := m.writeLE 4 kup (m.readLE 4 kup / 4 * 4 + type.code)
  m.writeLE 4 kup (m.readLE 4 kup % 4 + size % 2 ^ 30 * 4)

/-- The loops over the pages of a zone (`:628-634` and `917-922`), up to page `n`. -/
def setUsages (m : ByteMem) (kup : Nat) (type : PageType) (size : Nat → Nat) : Nat → ByteMem
  | 0 => m
  | n + 1 => setUsage (setUsages m kup type size n) (kup + 4 * n) type (size n)

/-- `zoneindex` (`:411-469`): the index and the size of the chunks. The last case prints an
error message. -/
def zoneindex (n : Nat) : Nat × Nat :=
  if n < 128 then
    let n := rtAlign n 8
    (sub32 (n / 8) 1, n)
  else if n < 256 then
    let n := rtAlign n 16
    (n / 16 + 7, n)
  else if n < 8192 then
    if n < 512 then
      let n := rtAlign n 32
      (n / 32 + 15, n)
    else if n < 1024 then
      let n := rtAlign n 64
      (n / 64 + 23, n)
    else if n < 2048 then
      let n := rtAlign n 128
      (n / 128 + 31, n)
    else if n < 4096 then
      let n := rtAlign n 256
      (n / 256 + 39, n)
    else
      let n := rtAlign n 512
      (n / 512 + 47, n)
  else if n < 16384 then
    let n := rtAlign n 1024
    (n / 1024 + 55, n)
  else (0, n)

/-- One chunk less is free, and a zone without free chunks leaves `zone_array` (`:558-563`). -/
def countTaken (s : SlabHeap) (z zi : Nat) : SlabHeap :=
  let s := s.setNfree z (sub32 (s.nfree z) 1)
  if s.nfree z = 0 then (s.setZoneArray (s.znext z) zi).setZnext z 0 else s

/-- The next chunk that was never used, or the first one of the list (`:571-583`). -/
def nextChunk (s : SlabHeap) (z size : Nat) : Nat × SlabHeap :=
  if (s.uindex z + 1) % 2 ^ 32 ≠ s.nmax z then
    let s := s.setUindex z ((s.uindex z + 1) % 2 ^ 32)
    ((s.baseptr z + s.uindex z * size) % 2 ^ 32, s)
  else
    let chunk := s.freechunk z
    (chunk, s.setFreechunk z (s.mem.readLE 4 chunk))

/-- A chunk of a zone that has one (`:556-583`); `z` is the first zone for its size. -/
def takeChunk (s : SlabHeap) (z zi size : Nat) : Nat × SlabHeap :=
  nextChunk (countTaken s z zi) z size

/-- The offset of the chunks in a zone (`:641-650`). -/
def zoneOffset (size : Nat) : Nat :=
  if ((size ||| sub32 size 1) + 1) % 2 ^ 32 = size * 2 % 2 ^ 32 then rtAlign sizeofSlabZone size
  else rtAlign sizeofSlabZone 8

/-- The memory of a new zone (`:605-635`): one of `zone_free`, or pages. `none` if the search
for pages does not end. -/
def zoneMemory (s : SlabHeap) : Option (Nat × SlabHeap) :=
  if s.zoneFree ≠ 0 then
    let z := s.zoneFree
    some (z, { s with zoneFree := s.znext z, zoneFreeCnt := s.zoneFreeCnt - 1 })
  else do
    let (z, heap) ← rtPageAlloc s.toPageHeap (s.zoneSize / rtMmPageSize)
    if z = 0 then return (0, { s with toPageHeap := heap })
    let s := { s with toPageHeap := heap }
    return (z, { s with mem := setUsages s.mem (s.btokup z) .small (fun off => off) s.zonePageCnt })

/-- A zone is set up, and its first chunk is taken (`:638-664`). -/
def initZone (s : SlabHeap) (z zi size : Nat) : Nat × SlabHeap :=
  let s := { s with mem := s.mem.fill z sizeofSlabZone 0 }
  let off := zoneOffset size
  let s := s.setMagic z zallocSlabMagic
  let s := s.setZindex z zi
  let s := s.setNmax z (sub32 s.zoneSize off / size)
  let s := s.setNfree z (sub32 (s.nmax z) 1)
  let s := s.setBaseptr z ((z + off) % 2 ^ 32)
  let s := s.setUindex z 0
  let s := s.setChunksize z size
  let chunk := (s.baseptr z + s.uindex z * size) % 2 ^ 32
  let s := s.setZnext z (s.zoneArray zi)
  (chunk, s.setZoneArray z zi)

/-- A large request (`:508-519`). -/
def mallocLarge (s : SlabHeap) (size : Nat) : Option (Nat × SlabHeap) := do
  let size := rtAlign size rtMmPageSize
  let (chunk, heap) ← rtPageAlloc s.toPageHeap (size / rtMmPageSize)
  let s := { s with toPageHeap := heap }
  if chunk = 0 then return (0, s)
  return (chunk, { s with mem := setUsage s.mem (s.btokup chunk) .large (size / rtMmPageSize) })

/-- `rt_malloc` (`:488-684`). -/
def rtMalloc (s : SlabHeap) (size : Nat) : Option (Nat × SlabHeap) :=
  if size = 0 then some (0, s)
  else if s.zoneLimit ≤ size then mallocLarge s size
  else
    let (zi, size) := zoneindex size
    let z := s.zoneArray zi
    if z ≠ 0 then some (takeChunk s z zi size)
    else do
      let (z, s) ← zoneMemory s
      if z = 0 then return (0, s)
      return initZone s z zi size

/-- The chunk is put into the list of its zone (`:861-863`). -/
def pushChunk (s : SlabHeap) (z ptr : Nat) : SlabHeap :=
  let s := { s with mem := s.mem.writeLE 4 ptr (s.freechunk z) }
  s.setFreechunk z ptr

/-- One chunk more is free, and a zone that had none goes into `zone_array` (`:873-877`). -/
def countPut (s : SlabHeap) (z : Nat) : SlabHeap :=
  let nfree := s.nfree z
  let s := s.setNfree z ((nfree + 1) % 2 ^ 32)
  if nfree = 0 then
    let s := s.setZnext z (s.zoneArray (s.zindex z))
    s.setZoneArray z (s.zindex z)
  else s

/-- The chunk goes back to its zone (`:861-877`). -/
def putChunk (s : SlabHeap) (z ptr : Nat) : SlabHeap := countPut (pushChunk s z ptr) z

/-- The loop that finds the link to the zone, and the removal of the zone (`:894-896`). -/
def unlinkZone (s : SlabHeap) (zi z : Nat) : Nat → Option Nat → Option SlabHeap
  | 0, _ => none
  | fuel + 1, pz =>
    if z ≠ s.zoneLink zi pz then unlinkZone s zi z fuel (some (s.zoneLink zi pz))
    else some (s.setZoneLink (s.znext z) zi pz)

/-- The zone is put into `zone_free` (`:899-905`). -/
def retireZone (s : SlabHeap) (z : Nat) : SlabHeap :=
  let s := s.setMagic z (2 ^ 32 - 1)
  let s := s.setZnext z s.zoneFree
  { s with zoneFree := z, zoneFreeCnt := s.zoneFreeCnt + 1 }

/-- The first zone of `zone_free` goes back to the page allocator (`:912-928`). -/
def releaseZone (s : SlabHeap) : Option SlabHeap := do
  let z := s.zoneFree
  let s := { s with zoneFree := s.znext z, zoneFreeCnt := s.zoneFreeCnt - 1 }
  let s := { s with mem := setUsages s.mem (s.btokup z) .free (fun _ => 0) s.zonePageCnt }
  let heap ← rtPageFree s.toPageHeap z (s.zoneSize / rtMmPageSize)
  return { s with toPageHeap := heap }

/-- The zone of a chunk (`:826` and `857-858`). -/
def zoneOf (s : SlabHeap) (ptr : Nat) : Nat :=
  let page := ptr / rtMmPageSize * rtMmPageSize
  sub32 page (s.kupSize (s.btokup page) * rtMmPageSize % 2 ^ 32)

/-- `rt_free` (`:793-935`). -/
def rtFree (s : SlabHeap) (ptr : Nat) : Option SlabHeap :=
  if ptr = 0 then some s
  else
    let kup := s.btokup (ptr / rtMmPageSize * rtMmPageSize)
    if s.kupType kup = PageType.large.code then do
      let size := s.kupSize kup
      let s := { s with mem := s.mem.writeLE 4 kup (s.mem.readLE 4 kup % 4) }
      let heap ← rtPageFree s.toPageHeap ptr size
      return { s with toPageHeap := heap }
    else
      let z := zoneOf s ptr
      let s := putChunk s z ptr
      if s.nfree z = s.nmax z ∧ (s.znext z ≠ 0 ∨ s.zoneArray (s.zindex z) ≠ z) then do
        let s ← unlinkZone s (s.zindex z) z searchBound none
        let s := retireZone s z
        if 2 < s.zoneFreeCnt then releaseZone s else return s
      else some s

/-- The loop for the size of a zone (`:385-387`). It runs twice at most. -/
def zoneSizeFor (limsize : Nat) : Nat :=
  let zoneSize := 32 * 1024
  let double := fun zoneSize : Nat =>
    if zoneSize < 128 * 1024 ∧ zoneSize * 2 < limsize / 1024 then zoneSize * 2 else zoneSize
  double (double zoneSize)

/-- `rt_system_heap_init` (`:354-405`) on memory `m`, `none` if it refuses the addresses. The
other static variables are zero. -/
def rtSystemHeapInit (m : ByteMem) (beginAddr endAddr : BitVec 32) : Option SlabHeap := do
  let heapStart := rtAlign beginAddr.toNat rtMmPageSize
  let heapEnd := rtAlignDown endAddr.toNat rtMmPageSize
  if heapEnd ≤ heapStart then none
  let limsize := heapEnd - heapStart
  let npages := limsize / rtMmPageSize
  let heap ← rtPageInit m heapStart npages
  let zoneSize := zoneSizeFor limsize
  let zoneLimit := if zoneSize / 4 > 16 * 1024 then 16 * 1024 else zoneSize / 4
  let limsize := rtAlign (npages * 4) rtMmPageSize
  let (memusage, heap) ← rtPageAlloc heap (limsize / rtMmPageSize)
  return {
    toPageHeap := heap
    zoneArray := fun _ => 0
    zoneFree := 0
    zoneFreeCnt := 0
    zoneSize := zoneSize
    zoneLimit := zoneLimit
    zonePageCnt := zoneSize / rtMmPageSize
    memusage := memusage
    heapStart := heapStart }

end RtThread.Slab
