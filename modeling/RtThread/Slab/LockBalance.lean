import RtThread.Slab.Lock

/-!
# The balance of the lock

With a lock that is free, each call does what it does without a lock, and leaves the semaphore with
the value that it had. The one call that is not balanced is a request for a small block when there
is no zone for it and no run of pages for a new zone.
-/

namespace RtThread.Slab
open Option
open Relation (ReflTransGen)
variable {s s' s'' : LockedHeap} {α β : Type}

namespace LockedHeap

/-- The semaphore has its old value, and was decremented at most once at a time. -/
structure Balanced (s s' : LockedHeap) : Prop where
  sem : s'.sem = s.sem
  seen : ∃ values, s'.seen = values ++ s.seen ∧ ∀ v ∈ values, v = s.sem ∨ v = s.sem - 1#16

theorem Balanced.refl (s : LockedHeap) : Balanced s s := ⟨rfl, [], rfl, by simp⟩

theorem Balanced.trans (h : Balanced s s') (h' : Balanced s' s'') : Balanced s s'' := by
  obtain ⟨values, hseen, hvalues⟩ := h.seen
  obtain ⟨values', hseen', hvalues'⟩ := h'.seen
  refine ⟨h'.sem.trans h.sem, values' ++ values, ?_, fun v hv => ?_⟩
  · rw [hseen', hseen, List.append_assoc]
  · rw [h.sem] at hvalues'
    exact (List.mem_append.mp hv).elim (hvalues' v) (hvalues v)

theorem Balanced.section (s : LockedHeap) (heap : SlabHeap) :
    Balanced s (((s.setSem (s.sem - 1#16)).setHeap heap).rtSemRelease) := by
  have hback : s.sem - 1#16 + 1#16 = s.sem := BitVec.sub_add_cancel s.sem 1#16
  refine ⟨hback, [s.sem - 1#16 + 1#16, s.sem - 1#16], rfl, ?_⟩
  simp [hback]

theorem rtSemTake_eq (h : s.sem ≠ 0#16) : s.rtSemTake = some (s.setSem (s.sem - 1#16)) := if_neg h

theorem rtSemTake_setMem (h : s.sem ≠ 0#16) (m : ByteMem) :
    (s.setMem m).rtSemTake = some ((s.setSem (s.sem - 1#16)).setMem m) := if_neg h

/-- The call `x` does what `y` does without the lock, and is balanced. -/
def Serves (s : LockedHeap) (x : Option (α × LockedHeap)) (y : Option (α × SlabHeap)) : Prop :=
  match y with
  | none => x = none
  | some (a, heap) => ∃ s', x = some (a, s') ∧ s'.heap = heap ∧ Balanced s s'

theorem Serves.return {a : α} {heap : SlabHeap} (hheap : s'.heap = heap) (h : Balanced s s') :
    Serves s (some (a, s')) (some (a, heap)) := ⟨s', rfl, hheap, h⟩

theorem Serves.section (s : LockedHeap) (next : α × SlabHeap) :
    Serves s (some (next.1, ((s.setSem (s.sem - 1#16)).setHeap next.2).rtSemRelease)) (some next) :=
  ⟨_, rfl, rfl, .section s next.2⟩

variable {x : Option (α × LockedHeap)} {y : Option (α × SlabHeap)}

theorem Balanced.trans_serves (h : Balanced s s') (hx : Serves s' x y) : Serves s x y := by
  cases y with
  | none => exact hx
  | some next =>
    obtain ⟨s'', hx', hheap, hbalanced⟩ := hx
    exact ⟨s'', hx', hheap, h.trans hbalanced⟩

theorem Serves.bind
    {f : α × LockedHeap → Option (β × LockedHeap)} {g : α × SlabHeap → Option (β × SlabHeap)}
    (hx : Serves s x y)
    (hf : ∀ a s', y = some (a, s'.heap) → s'.sem = s.sem → Serves s' (f (a, s')) (g (a, s'.heap))) :
    Serves s (x.bind f) (y.bind g) := by
  cases y with
  | none =>
    obtain rfl : x = none := hx
    rfl
  | some next =>
    obtain ⟨a, heap⟩ := next
    obtain ⟨s', rfl, rfl, hbalanced⟩ := hx
    exact hbalanced.trans_serves (hf a s' rfl hbalanced.sem)

/-- A call of the page allocator as one of the heap. -/
def onPages (heap : SlabHeap) (y : Option (α × PageHeap)) : Option (α × SlabHeap) :=
  y.map fun (a, pages) => (a, { heap with toPageHeap := pages })

theorem rtPageAlloc_serves (h : s.sem ≠ 0#16) (npages : Nat) :
    Serves s (s.rtPageAlloc npages)
      (onPages s.heap (Slab.rtPageAlloc s.heap.toPageHeap npages)) := by
  rw [rtPageAlloc, Slab.rtPageAlloc]
  split
  · exact .return rfl (.refl s)
  · rw [rtSemTake_eq h]
    change Serves s ((pageAllocLoop s.heap.toPageHeap npages searchBound none).bind _) _
    cases pageAllocLoop s.heap.toPageHeap npages searchBound none with
    | none => rfl
    | some next => exact .return rfl (.section s _)

theorem rtPageFree_serves (h : s.sem ≠ 0#16) (addr npages : Nat) :
    Serves s (s.rtPageFree addr npages)
      (onPages s.heap ((Slab.rtPageFree s.heap.toPageHeap addr npages).map ((), ·))) := by
  rw [rtPageFree, Slab.rtPageFree, rtSemTake_eq h]
  change Serves s ((pageFreeLoop s.heap.toPageHeap addr npages searchBound none).bind _) _
  cases pageFreeLoop s.heap.toPageHeap addr npages searchBound none with
  | none => rfl
  | some pages => exact .return rfl (.section s _)

end LockedHeap

/-- The page list has a run of at least `n` pages. -/
def PageHeap.HasRun (p : PageHeap) (n : Nat) : Prop :=
  ∃ b, ReflTransGen (fun b b' => b ≠ 0 ∧ b' = p.next b) p.pageList b ∧ b ≠ 0 ∧ n ≤ p.page b

/-- The search returns `RT_NULL` only if it has come to the end of the list. -/
theorem pageAllocLoop_null {p p' : PageHeap} {n fuel : Nat} {prev : Option Nat}
    (h : pageAllocLoop p n fuel prev = some (0, p')) {b : Nat}
    (hb : ReflTransGen (fun b b' => b ≠ 0 ∧ b' = p.next b) (p.link prev) b) (hne : b ≠ 0) :
    p.page b < n := by
  induction fuel generalizing prev with
  | zero => cases h
  | succ fuel ih =>
    rw [pageAllocLoop] at h
    by_cases hend : p.link prev = 0
    · -- at the end there is nowhere to go
      obtain heq | ⟨c, ⟨hc, -⟩, -⟩ := hb.cases_head
      · exact absurd (heq.symm.trans hend) hne
      · exact absurd hend hc
    · by_cases hlarge : n < p.page (p.link prev)
      · simp only [if_neg hend, if_pos hlarge, some.injEq, Prod.mk.injEq] at h
        exact absurd h.1 hend
      · by_cases hfits : p.page (p.link prev) = n
        · simp only [if_neg hend, if_neg hlarge, if_pos hfits, some.injEq,
            Prod.mk.injEq] at h
          exact absurd h.1 hend
        · simp only [if_neg hend, if_neg hlarge, if_neg hfits] at h
          obtain heq | ⟨c, ⟨-, rfl⟩, hrest⟩ := hb.cases_head
          · rw [← heq]
            omega
          · exact ih h hrest

theorem PageHeap.HasRun.rtPageAlloc_ne_null {p p' : PageHeap} {n z : Nat} (h : p.HasRun n)
    (hn : n ≠ 0) (hret : rtPageAlloc p n = some (z, p')) : z ≠ 0 := by
  rintro rfl
  obtain ⟨b, hb, hne, hle⟩ := h
  rw [rtPageAlloc, if_neg hn] at hret
  have hlt := pageAllocLoop_null hret hb hne
  omega

/-- A small request can be served: there is a zone with free chunks of its size, or a zone in
`zone_free`, or a run of pages for a new zone. -/
def SlabHeap.CanServe (heap : SlabHeap) (size : Nat) : Prop :=
  1 ≤ size → size < heap.zoneLimit → heap.zoneArray (zoneindex size).1 = 0 → heap.zoneFree = 0 →
    heap.zoneSize / rtMmPageSize ≠ 0 ∧ heap.toPageHeap.HasRun (heap.zoneSize / rtMmPageSize)

namespace LockedHeap

theorem mallocLarge_eq (heap : SlabHeap) (size : Nat) : Slab.mallocLarge heap size =
      (onPages heap
        (Slab.rtPageAlloc heap.toPageHeap (rtAlign size rtMmPageSize / rtMmPageSize))).bind
        fun (chunk, heap) =>
          if chunk = 0 then some (0, heap)
          else some (chunk, { heap with
            mem := setUsage heap.mem (heap.btokup chunk) .large
              (rtAlign size rtMmPageSize / rtMmPageSize) }) := by
  rw [Slab.mallocLarge]
  cases Slab.rtPageAlloc heap.toPageHeap (rtAlign size rtMmPageSize / rtMmPageSize) with
  | none => rfl
  | some next => rfl

theorem mallocLarge_serves (h : s.sem ≠ 0#16) (size : Nat) :
    Serves s (s.mallocLarge size) (Slab.mallocLarge s.heap size) := by
  rw [mallocLarge_eq]
  refine (rtPageAlloc_serves h _).bind fun chunk s' _ hsem => ?_
  have h' : s'.sem ≠ 0#16 := hsem ▸ h
  simp only
  split
  · exact .return rfl (.refl s')
  · rw [rtSemTake_setMem h']
    exact .return rfl (.section s' _)

theorem zoneMemory_pages {heap : SlabHeap} (hfree : heap.zoneFree = 0) (zi size : Nat) :
    ((zoneMemory heap).bind fun (z, heap) =>
        if z = 0 then some (0, heap) else some (initZone heap z zi size)) =
      (onPages heap (Slab.rtPageAlloc heap.toPageHeap (heap.zoneSize / rtMmPageSize))).bind
        fun (z, heap) =>
          if z = 0 then some (0, heap)
          else some (initZone { heap with
            mem := setUsages heap.mem (heap.btokup z) .small (fun off => off)
              heap.zonePageCnt } z zi size) := by
  rw [zoneMemory, if_neg (not_not.mpr hfree)]
  generalize Slab.rtPageAlloc heap.toPageHeap (heap.zoneSize / rtMmPageSize) = next
  cases next with
  | none => simp [onPages]
  | some next =>
    obtain ⟨z, pages⟩ := next
    by_cases hz : z = 0 <;> simp [onPages, hz]

theorem mallocPages_serves (h : s.sem ≠ 0#16) (hfree : s.heap.zoneFree = 0) (zi size : Nat)
    (hpos : s.heap.zoneSize / rtMmPageSize ≠ 0)
    (hrun : s.heap.toPageHeap.HasRun (s.heap.zoneSize / rtMmPageSize)) :
    Serves s ((s.setSem (s.sem - 1#16)).mallocPages zi size)
      ((zoneMemory s.heap).bind fun (z, heap) =>
        if z = 0 then some (0, heap) else some (initZone heap z zi size)) := by
  have hfreed : Balanced s ((s.setSem (s.sem - 1#16)).rtSemRelease) := .section s s.heap
  have h1 : ((s.setSem (s.sem - 1#16)).rtSemRelease).sem ≠ 0#16 := by
    rw [hfreed.sem]
    exact h
  rw [zoneMemory_pages hfree, mallocPages]
  refine hfreed.trans_serves ((rtPageAlloc_serves h1 _).bind fun z s' hret hsem => ?_)
  have h' : s'.sem ≠ 0#16 := hsem ▸ h1
  obtain ⟨⟨z', pages⟩, halloc, hz'⟩ := map_eq_some_iff.mp hret
  have hz : z ≠ 0 := by
    rw [← (Prod.mk.inj hz').1]
    exact hrun.rtPageAlloc_ne_null hpos halloc
  simp only [if_neg hz]
  rw [rtSemTake_eq h']
  exact .return rfl (.section s' _)

theorem rtMalloc_serves (h : s.sem ≠ 0#16) {size : Nat} (hserve : s.heap.CanServe size) :
    Serves s (s.rtMalloc size) (Slab.rtMalloc s.heap size) := by
  rw [rtMalloc, Slab.rtMalloc]
  split
  · exact .return rfl (.refl s)
  · rename_i hsize
    split
    · exact mallocLarge_serves h size
    · rename_i hsmall
      rw [rtSemTake_eq h, bind_eq_bind, bind_some]
      -- the heap is the same when the lock has been taken
      obtain ⟨s1, hs1⟩ : ∃ s1, s1 = s.setSem (s.sem - 1#16) := ⟨_, rfl⟩
      have hheap : s1.heap = s.heap := by rw [hs1]; rfl
      rw [← hs1]
      simp only [hheap]
      by_cases hzone : s.heap.zoneArray (zoneindex size).1 = 0
      · rw [if_neg (not_not.mpr hzone), if_neg (not_not.mpr hzone)]
        by_cases hfree : s.heap.zoneFree = 0
        · rw [if_neg (not_not.mpr hfree), hs1]
          obtain ⟨hpos, hrun⟩ := hserve (by omega) (by omega) hzone hfree
          exact mallocPages_serves h hfree _ _ hpos hrun
        · rw [if_pos hfree, zoneMemory, if_pos hfree, bind_eq_bind, bind_some]
          simp only [if_neg hfree, hs1]
          exact .section s (initZone _ _ _ _)
      · rw [if_pos hzone, if_pos hzone, hs1]
        generalize takeChunk s.heap _ _ _ = next
        exact .section s next

theorem section_rtPageFree_serves (h : s.sem ≠ 0#16) (heap : SlabHeap) (addr npages : Nat) :
    Serves s ((((s.setSem (s.sem - 1#16)).setHeap heap).rtSemRelease).rtPageFree addr npages)
      (((Slab.rtPageFree heap.toPageHeap addr npages).bind fun pages =>
        some { heap with toPageHeap := pages }).map ((), ·)) := by
  have hfreed : Balanced s (((s.setSem (s.sem - 1#16)).setHeap heap).rtSemRelease) :=
    .section s heap
  have h1 : (((s.setSem (s.sem - 1#16)).setHeap heap).rtSemRelease).sem ≠ 0#16 := by
    rw [hfreed.sem]
    exact h
  have hserves := hfreed.trans_serves (rtPageFree_serves h1 addr npages)
  change Serves s _ (onPages heap ((Slab.rtPageFree heap.toPageHeap addr npages).map ((), ·)))
    at hserves
  generalize Slab.rtPageFree heap.toPageHeap addr npages = next at hserves ⊢
  cases next with
  | none | some pages => exact hserves

theorem rtFree_serves (h : s.sem ≠ 0#16) (ptr : Nat) :
    Serves s (s.rtFree ptr) ((Slab.rtFree s.heap ptr).map ((), ·)) := by
  rw [rtFree, Slab.rtFree]
  by_cases hnull : ptr = 0
  · rw [if_pos hnull, if_pos hnull]
    exact .return rfl (.refl s)
  rw [if_neg hnull, if_neg hnull, rtSemTake_eq h]
  simp only [bind_eq_bind, bind_some]
  obtain ⟨s1, hs1⟩ : ∃ s1, s1 = s.setSem (s.sem - 1#16) := ⟨_, rfl⟩
  have hheap : s1.heap = s.heap := by rw [hs1]; rfl
  rw [← hs1]
  simp only [hheap]
  split
  · rw [setMem, hheap, hs1]
    exact section_rtPageFree_serves h _ ptr _
  · generalize zoneOf s.heap ptr = z
    generalize putChunk s.heap z ptr = heap
    split
    · generalize unlinkZone heap _ z searchBound none = next
      cases next with
      | none => rfl
      | some heap =>
        simp only [bind_some]
        generalize retireZone heap z = heap
        split
        · rw [hs1]
          exact section_rtPageFree_serves h _ _ _
        · rw [hs1]
          exact .section s ((), heap)
    · rw [hs1]
      exact .section s ((), heap)

theorem moveWith_serves (h : s.sem ≠ 0#16) {ptr size : Nat} (hserve : s.heap.CanServe size)
    (osize : SlabHeap → Nat) :
    Serves s (moveWith heap setMem rtMalloc rtFree s ptr size fun s => osize s.heap)
      (moveWith id (fun s m => { s with mem := m }) Slab.rtMalloc
        (fun s ptr => (Slab.rtFree s ptr).map ((), ·)) s.heap ptr size osize) := by
  rw [moveWith, moveWith]
  refine (rtMalloc_serves h hserve).bind fun nptr s' _ hsem => ?_
  have h' : s'.sem ≠ 0#16 := hsem ▸ h
  simp only [id]
  split
  · exact .return rfl (.refl s')
  · generalize s'.heap.mem.copy nptr ptr _ = m
    have hcopied : Balanced s' (s'.setMem m) := ⟨rfl, [], rfl, by simp⟩
    exact hcopied.trans_serves ((rtFree_serves (s := s'.setMem m) h' ptr).bind
      fun _ s'' _ _ => .return rfl (.refl s''))

/-- The size with which `rt_realloc` calls `rt_malloc`, zero if it does not. -/
def reallocRequest (heap : SlabHeap) (ptr size : Nat) : Nat :=
  if ptr = 0 then size
  else if size = 0 then 0
  else
    let kup := heap.btokup (ptr / rtMmPageSize * rtMmPageSize)
    if heap.kupType kup = PageType.large.code then size
    else if heap.chunksize (zoneOf heap ptr) = (zoneindex size).2 then 0
    else (zoneindex size).2

theorem rtRealloc_serves (h : s.sem ≠ 0#16) {ptr size : Nat}
    (hserve : s.heap.CanServe (reallocRequest s.heap ptr size)) :
    Serves s (s.rtRealloc ptr size) (Slab.rtRealloc s.heap ptr size) := by
  rw [rtRealloc, Slab.rtRealloc, reallocWith, reallocWith]
  rw [reallocRequest] at hserve
  by_cases hptr : ptr = 0
  · simp only [if_pos hptr] at hserve ⊢
    exact rtMalloc_serves h hserve
  simp only [if_neg hptr] at hserve ⊢
  by_cases hsize : size = 0
  · rw [if_pos hsize, if_pos hsize]
    exact (rtFree_serves h ptr).bind fun _ s' _ _ => .return rfl (.refl s')
  simp only [if_neg hsize] at hserve ⊢
  simp only [id] at hserve ⊢
  by_cases hlarge : s.heap.kupType (s.heap.btokup (ptr / rtMmPageSize * rtMmPageSize)) =
      PageType.large.code
  · simp only [if_pos hlarge] at hserve ⊢
    exact moveWith_serves h hserve fun _ => _
  simp only [if_neg hlarge] at hserve ⊢
  by_cases hsmall : s.heap.kupType (s.heap.btokup (ptr / rtMmPageSize * rtMmPageSize)) =
      PageType.small.code
  · rw [if_pos hsmall, if_pos hsmall]
    by_cases hsame : s.heap.chunksize (zoneOf s.heap ptr) = (zoneindex size).2
    · rw [if_pos hsame, if_pos hsame]
      exact .return rfl (.refl s)
    · simp only [if_neg hsame] at hserve ⊢
      exact moveWith_serves h hserve fun heap => heap.chunksize (zoneOf s.heap ptr)
  · rw [if_neg hsmall, if_neg hsmall]
    exact .return rfl (.refl s)

/-- No call asks for a small block that cannot be served. -/
def Safe (s : LockedHeap) : LockCall → Prop
  | .malloc size => s.heap.CanServe size.toNat
  | .realloc ptr size => s.heap.CanServe (reallocRequest s.heap ptr.toNat size.toNat)
  | .free _ | .store _ _ => True

def Step (s : LockedHeap) (c : LockCall) (s' : LockedHeap) : Prop := ∃ r, s.call c = some (r, s')

/-- A step in which no small block is asked for that cannot be served. -/
def SafeStep (s : LockedHeap) (c : LockCall) (s' : LockedHeap) : Prop := s.Safe c ∧ s.Step c s'

theorem call_serves (h : s.sem ≠ 0#16) {c : LockCall} (hsafe : s.Safe c) :
    Serves s (s.call c) (s.heap.lockCall c) := by
  cases c with
  | malloc size => exact rtMalloc_serves h hsafe
  | realloc ptr size => exact rtRealloc_serves h hsafe
  | free ptr =>
    have hserves := rtFree_serves h ptr.toNat
    rw [call, SlabHeap.lockCall]
    generalize Slab.rtFree s.heap ptr.toNat = next at hserves ⊢
    cases next with
    | none =>
      rw [show s.rtFree ptr.toNat = none from hserves]
      rfl
    | some heap =>
      obtain ⟨s', hret, hheap, hbalanced⟩ := hserves
      rw [hret]
      exact .return hheap hbalanced
  | store a x => exact .return rfl ⟨rfl, [], rfl, by simp⟩

/-- The lock is free, and has been free or held. -/
structure Free (s : LockedHeap) : Prop where
  sem : s.sem = 1#16
  seen : ∀ v ∈ s.seen, v = 0#16 ∨ v = 1#16

theorem Free.balanced (h : Free s) (hbalanced : Balanced s s') : Free s' := by
  obtain ⟨values, hseen, hvalues⟩ := hbalanced.seen
  refine ⟨hbalanced.sem.trans h.sem, fun v hv => ?_⟩
  rw [hseen, List.mem_append] at hv
  rw [h.sem] at hvalues
  obtain hv | hv := hv
  · exact (hvalues v hv).symm
  · exact h.seen v hv

theorem Serves.balanced {x : Option (α × LockedHeap)} {y : Option (α × SlabHeap)} {a : α}
    (h : Serves s x y) (hx : x = some (a, s')) : Balanced s s' := by
  cases y with
  | none => cases hx.symm.trans h
  | some next =>
    obtain ⟨s'', hx', -, hbalanced⟩ := h
    cases hx.symm.trans hx'
    exact hbalanced

theorem free_init {m : ByteMem} {beginAddr endAddr : BitVec 32}
    (hinit : rtSystemHeapInit m beginAddr endAddr = some s) : Free s := by
  rw [rtSystemHeapInit] at hinit
  split at hinit
  · cases hinit
  · obtain ⟨⟨_, s1⟩, hpages, hinit⟩ := bind_eq_some_iff.mp hinit
    obtain ⟨⟨memusage, s2⟩, husage, hinit⟩ := bind_eq_some_iff.mp hinit
    have hfree1 : Free s1 := by
      refine Free.balanced ⟨rfl, ?_⟩ ((rtPageFree_serves ?_ _ _).balanced hpages) <;> simp
    have hone : s1.sem ≠ 0#16 := by rw [hfree1.sem]; decide
    have hfree2 := hfree1.balanced ((rtPageAlloc_serves hone _).balanced husage)
    cases hinit
    exact ⟨hfree2.sem, hfree2.seen⟩

/-- In every run of safe steps the lock is free between the calls, and its value is 0 or 1 at any
time. Each safe call does what it does without the lock, and the semaphore has its old value when it
returns. -/
theorem heapSem_balanced_of_run {m : ByteMem} {beginAddr endAddr : BitVec 32} {s₀ : LockedHeap}
    (hinit : rtSystemHeapInit m beginAddr endAddr = some s₀) {cs : List LockCall}
    (hrun : Run SafeStep s₀ cs s) :
    s.sem = 1#16 ∧ (∀ v ∈ s.seen, v = 0#16 ∨ v = 1#16) ∧
      ∀ c, s.Safe c → Serves s (s.call c) (s.heap.lockCall c) := by
  have hfree : Free s := by
    refine hrun.state_invariant (free_init hinit) ?_
    rintro s c s' hfree ⟨hsafe, r, hcall⟩
    have h : s.sem ≠ 0#16 := by rw [hfree.sem]; decide
    exact hfree.balanced ((call_serves h hsafe).balanced hcall)
  have h : s.sem ≠ 0#16 := by rw [hfree.sem]; decide
  exact ⟨hfree.sem, hfree.seen, fun c hsafe => call_serves h hsafe⟩

/-- A heap of 61 pages, of which one is for `memusage`. -/
def smallHeap : LockedHeap := (rtSystemHeapInit (fun _ => 0) 8193 262144).get (by decide +kernel)

/-- `rt_malloc(100)` takes a new zone, the next call is served from it, and the first block is
freed. -/
theorem heapSem_balanced_of_run_three :
    ∃ s, Run SafeStep smallHeap [.malloc 100, .malloc 100, .free 16424] s ∧ s.sem = 1#16 := by
  have hinit : rtSystemHeapInit (fun _ => 0) 8193 262144 = some smallHeap := (some_get _).symm
  have hsafe : smallHeap.Safe (.malloc 100) := fun _ _ _ _ =>
    ⟨by decide +kernel, smallHeap.heap.pageList, .refl, by decide +kernel, by decide +kernel⟩
  have hreturns :
    ((smallHeap.call (.malloc 100)).bind fun r => (r.2.call (.malloc 100)).bind fun r' =>
      (r'.2.call (.free 16424)).map fun _ => decide (r.2.heap.zoneArray (zoneindex 100).1 = 0)) =
        some false := by decide +kernel
  obtain ⟨⟨p, s⟩, hfirst, hreturns⟩ := bind_eq_some_iff.mp hreturns
  obtain ⟨⟨p', s'⟩, hsecond, hreturns⟩ := bind_eq_some_iff.mp hreturns
  obtain ⟨⟨p'', s''⟩, hthird, hzone⟩ := map_eq_some_iff.mp hreturns
  have hsafe' : s.Safe (.malloc 100) := fun _ _ hnone _ => absurd hnone (of_decide_eq_false hzone)
  have hrun : Run SafeStep smallHeap [.malloc 100, .malloc 100, .free 16424] s'' :=
    ((Run.nil.snoc ⟨hsafe, p, hfirst⟩).snoc ⟨hsafe', p', hsecond⟩).snoc ⟨trivial, p'', hthird⟩
  exact ⟨s'', hrun, (heapSem_balanced_of_run hinit hrun).1⟩

/-- On a heap of two pages there is no run of pages for a zone. `rt_malloc(100)` fails, and leaves
the semaphore with the value 2. -/
theorem heapSem_released_twice : ∃ s₀ s,
    rtSystemHeapInit (fun _ => 0) 4096 12288 = some s₀ ∧ s₀.sem = 1#16 ∧
      s₀.call (.malloc 100) = some (0, s) ∧ Run Step s₀ [.malloc 100] s ∧ s.sem = 2#16 := by
  have hresult : ((rtSystemHeapInit (fun _ => 0) 4096 12288).bind fun s =>
      (s.call (.malloc 100)).map fun r => (s.sem, r.1, r.2.sem)) = some (1#16, 0, 2#16) := by
    decide +kernel
  obtain ⟨s₀, hinit, hresult⟩ := bind_eq_some_iff.mp hresult
  obtain ⟨⟨r, s⟩, hcall, hresult⟩ := map_eq_some_iff.mp hresult
  simp only [Prod.mk.injEq] at hresult
  obtain ⟨hone, rfl, htwo⟩ := hresult
  exact ⟨s₀, s, hinit, hone, hcall, Run.nil.snoc ⟨0, hcall⟩, htwo⟩

end LockedHeap
end RtThread.Slab
