import RtThread.Slab.HeapCalls
import Mathlib.Data.List.Count

/-!
# Programs on the slab allocator

A program asks for small chunks, gives them back in any order, and stores into those that it holds.
At every point each zone counts its free chunks right and is in the list for its size if it has any;
the chunks of the program are apart, and `memusage` leads from each to its zone.
-/

namespace RtThread.Slab
open ByteMem
open List

/-- The allocator and the chunks that the program holds. -/
structure SlabSys where
  heap : SlabHeap
  live : List Chunk

inductive SlabCall
  /-- `rt_malloc(size)` -/
  | malloc (size : BitVec 32)
  /-- `rt_free` of a chunk -/
  | free (c : Chunk)
  /-- a store of one byte -/
  | store (a : Nat) (x : BitVec 8)

namespace SlabSys

def Legal (s : SlabSys) : SlabCall → Prop
  | .malloc size => 1 ≤ size.toNat ∧ size.toNat < s.heap.zoneLimit
  | .free c => c ∈ s.live
  | .store a _ => ∃ c ∈ s.live, c.ptr ≤ a ∧ a < c.ptr + c.size

/-- The effect of a call and what it returns, `none` if it does not. -/
def call (s : SlabSys) : SlabCall → Option Nat × SlabSys
  | .malloc size =>
    match rtMalloc s.heap size.toNat with
    | none => (none, s)
    | some (ptr, heap) =>
      (some ptr, ⟨heap, if ptr = 0 then s.live else ⟨ptr, size.toNat⟩ :: s.live⟩)
  | .free c =>
    match rtFree s.heap c.ptr with
    | none => (none, s)
    | some heap => (some 0, ⟨heap, s.live.erase c⟩)
  | .store a x => (some 0, ⟨{ s.heap with mem := Function.update s.heap.mem a x }, s.live⟩)

def machine : Machine SlabSys SlabCall (Option Nat) := ⟨Legal, call⟩

instance (s : SlabSys) (c : SlabCall) : Decidable (machine.Enabled s c) :=
  match c with
  | .malloc _ => instDecidableAnd
  | .free _ => inferInstanceAs (Decidable (_ ∈ _))
  | .store .. => inferInstanceAs (Decidable (∃ _ ∈ _, _))

end SlabSys

/-- A zone in use: its free chunks are those that were never handed out and those in its list; it is
in the list for its size once if it has free chunks, and in no other; its chunks are behind the
`slab_zone`; and the entry of each of its pages has the offset of the page. -/
structure ZoneOk (s : SlabHeap) (z : Nat) : Prop where
  nfree : ∃ free, ListAt s.mem 0 (s.freechunk z) free ∧ s.uindex z < s.nmax z ∧
    s.nfree z = (s.nmax z - s.uindex z - 1) + free.length
  linked : ∀ zi, ∃ chain, ListAt s.mem 12 (s.zoneArray zi) chain ∧
    chain.count z = if zi = s.zindex z ∧ 0 < s.nfree z then 1 else 0
  room : z + sizeofSlabZone ≤ s.baseptr z ∧
    s.baseptr z + s.nmax z * s.chunksize z ≤ z + s.zoneSize
  usage : ∀ i < s.zonePageCnt, s.kupType (s.btokup (z + i * rtMmPageSize)) = PageType.small.code ∧
    s.kupSize (s.btokup (z + i * rtMmPageSize)) = i

/-- A chunk of a zone: one of those that have been handed out, large enough, and `rt_free` finds the
zone. -/
structure ChunkOk (s : SlabHeap) (z : Nat) (c : Chunk) : Prop where
  ptr : ∃ i ≤ s.uindex z, c.ptr = s.baseptr z + i * s.chunksize z
  size : c.size ≤ s.chunksize z
  zone : zoneOf s c.ptr = z

/-- The zones in use are `zones`; every chunk of the program is in one, and no two are the same. -/
structure SlabOk (s : SlabSys) (zones : List Nat) : Prop where
  zone : ∀ z ∈ zones, ZoneOk s.heap z
  apart : zones.Pairwise fun z z' => z + s.heap.zoneSize ≤ z' ∨ z' + s.heap.zoneSize ≤ z
  linked : ∀ zi chain, ListAt s.heap.mem 12 (s.heap.zoneArray zi) chain → chain ⊆ zones
  chunks : ∀ c ∈ s.live, ∃ z ∈ zones, ChunkOk s.heap z c
  distinct : (s.live.map Chunk.ptr).Nodup

variable {L : Layout} {s : SlabHeap} {v w : Zone L} {zones : List (Zone L)} {cached : List Nat}
  {chain : Nat → List Nat} {es : List Extent} {live : List Chunk} {p q : Nat}

namespace Inv

section
variable (h : Inv L s live zones cached chain es)
include h

theorem zoneOk (hv : v ∈ zones) : ZoneOk s (pageAddr v.page) := by
  have hzone := h.core.zones v hv
  have hheader := hzone.header
  have hnfree : s.nfree (pageAddr v.page) = v.nfree := congrArg Header.nfree hheader
  have hnmax : s.nmax (pageAddr v.page) = L.nmax v.zi := congrArg Header.nmax hheader
  have huindex : s.uindex (pageAddr v.page) = v.uindex := congrArg Header.uindex hheader
  have hbase : s.baseptr (pageAddr v.page) = v.base := congrArg Header.baseptr hheader
  have hsize : s.chunksize (pageAddr v.page) = chunkSizeOf v.zi :=
    congrArg Header.chunksize hheader
  have hindex : s.zindex (pageAddr v.page) = v.zi := congrArg Header.zindex hheader
  have hfreechunk : s.freechunk (pageAddr v.page) = v.header.freechunk :=
    congrArg Header.freechunk hheader
  constructor
  · refine ⟨v.free.map v.chunk, ?_, ?_, ?_⟩
    · rw [hfreechunk]
      exact hzone.free
    · rw [huindex, hnmax]
      exact v.uindex_lt
    · rw [hnfree, hnmax, huindex, length_map]
      rfl
  · intro zi
    refine ⟨_, h.links.lists zi, ?_⟩
    rw [count_map_of_injective _ _ fun p q heq => by rw [pageAddr_eq, pageAddr_eq] at heq; omega,
      hindex, hnfree]
    have hnodup := h.links.nodup h.core.nodup zi
    split
    · rename_i hoffers
      obtain ⟨rfl, hpos⟩ := hoffers
      exact count_eq_one_of_mem hnodup (h.links.mem_iff.mpr ⟨v, hv, ⟨rfl, hpos⟩, rfl⟩)
    · rename_i hnot
      refine count_eq_zero.mpr fun hmem => hnot ?_
      obtain ⟨w, hw, ⟨hzi, hpos⟩, hpage⟩ := h.links.mem_iff.mp hmem
      rw [inj_on_of_nodup_map h.core.nodup hw hv hpage] at hzi hpos
      exact ⟨hzi.symm, hpos⟩
  · obtain ⟨-, -, hoff, -, hend⟩ := L.chunks_fit v.zi_lt
    rw [hbase, hnmax, hsize, h.core.fixed.zoneSize]
    unfold Zone.base
    omega
  · intro i hi
    rw [h.core.fixed.zonePageCnt] at hi
    have hpage := h.core.page_mem (Core.zone_mem hv)
    have hentry := h.core.usage v.page (Core.zone_mem hv) i hi
    have haddr : pageAddr v.page + i * rtMmPageSize = pageAddr (v.page + i) := by
      rw [pageAddr_eq, pageAddr_eq, rtMmPageSize]
      omega
    rw [haddr, h.core.fixed.btokup (by omega) (by omega)]
    unfold SlabHeap.kupType SlabHeap.kupSize
    rw [hentry]
    constructor
    · change (4 * i + 1) % 4 = 1
      omega
    · omega

theorem distinct : (live.map Chunk.ptr).Nodup := by
  refine (h.live.map Chunk.ptr).nodup_iff.mpr ?_
  rw [map_flatMap, nodup_flatMap]
  constructor
  · intro v hv
    have hused : (v.used.map Prod.fst).Nodup :=
      (nodup_append.mp (v.chunks.nodup_iff.mpr nodup_range)).1
    have hptrs : v.live.map Chunk.ptr = (v.used.map Prod.fst).map v.chunk := by
      unfold Zone.live
      rw [map_map, map_map]
      rfl
    rw [hptrs]
    exact hused.map v.chunk_injective
  · -- chunks of different zones
    have hpairs := (pairwise_append.mp (pairwise_append.mp h.core.pairwise).1).1
    refine (pairwise_map.mp hpairs).imp fun {v w} hapart => ?_
    have hin : ∀ {u : Zone L} {a : Nat}, a ∈ u.live.map Chunk.ptr →
        4096 * u.page ≤ a ∧ a < 4096 * (u.page + L.zonePages) := by
      intro u a ha
      obtain ⟨c, hc, rfl⟩ := mem_map.mp ha
      obtain ⟨d, hd, rfl⟩ := mem_map.mp hc
      have hle := u.lt_of_mem_used hd
      have hinside := u.chunk_inside (Nat.lt_of_le_of_lt hle u.uindex_lt)
      obtain ⟨hsize, -⟩ := L.chunks_fit u.zi_lt
      have hzone := L.zonePages_eq
      rw [pageAddr_eq] at hinside
      dsimp only
      omega
    intro a hav haw
    have := hin hav
    have := hin haw
    omega

theorem slabOk :
    SlabOk ⟨s, live⟩ (zones.map fun v => pageAddr v.page) where
  zone z hz := by
    obtain ⟨v, hv, rfl⟩ := mem_map.mp hz
    exact h.zoneOk hv
  apart := by
    have hpairs := (pairwise_append.mp (pairwise_append.mp h.core.pairwise).1).1
    refine pairwise_map.mpr ((pairwise_map.mp hpairs).imp fun {v w} hapart => ?_)
    have hzone := L.zonePages_eq
    rw [h.core.fixed.zoneSize, pageAddr_eq, pageAddr_eq]
    omega
  linked zi l hl := by
    rw [ListAt.unique hl (h.links.lists zi)]
    intro z hz
    obtain ⟨p, hp, rfl⟩ := mem_map.mp hz
    obtain ⟨v, hv, -, rfl⟩ := h.links.mem_iff.mp hp
    exact mem_map_of_mem hv
  chunks c hc := by
    obtain ⟨v, zones', d, hd, rfl, hperm, -⟩ := h.exists_chunk hc
    have hv : v ∈ zones := hperm.mem_iff.mpr mem_cons_self
    have hheader := (h.core.zones v hv).header
    have huindex : s.uindex (pageAddr v.page) = v.uindex := congrArg Header.uindex hheader
    have hbase : s.baseptr (pageAddr v.page) = v.base := congrArg Header.baseptr hheader
    have hsize : s.chunksize (pageAddr v.page) = chunkSizeOf v.zi :=
      congrArg Header.chunksize hheader
    have hle := v.lt_of_mem_used hd
    refine ⟨_, mem_map_of_mem hv, ⟨d.1, ?_, ?_⟩, ?_, ?_⟩
    · rw [huindex]
      exact hle
    · rw [hbase, hsize]
      rfl
    · rw [hsize]
      exact v.sizes d hd
    · exact (h.entry_of_chunk hv (Nat.lt_of_le_of_lt hle v.uindex_lt)).2
  distinct := h.distinct

end
end Inv

theorem rtAlign_page (a : Nat) : rtAlign a rtMmPageSize = (a + 4095) % 2 ^ 32 / 4096 * 4096 :=
  rtAlign_two_pow a (k := 12) (by decide)

theorem rtAlignDown_page (a : Nat) : rtAlignDown a rtMmPageSize = a % 2 ^ 32 / 4096 * 4096 :=
  rtAlignDown_two_pow a (k := 12) (by decide)

theorem rtSystemHeapInit_spec (m : ByteMem) (beginAddr endAddr : BitVec 32)
    (hne : rtAlign beginAddr.toNat rtMmPageSize ≠ 0)
    (hlt : rtAlign beginAddr.toNat rtMmPageSize < rtAlignDown endAddr.toNat rtMmPageSize) :
    ∃ (L : Layout) (s : SlabHeap) (es : List Extent),
      rtSystemHeapInit m beginAddr endAddr = some s ∧ Inv L s [] [] [] (fun _ => []) es := by
  have hbegin := rtAlign_page beginAddr.toNat
  have hend := rtAlignDown_page endAddr.toNat
  have hendlt : endAddr.toNat % 2 ^ 32 / 4096 < 2 ^ 20 := by omega
  generalize (beginAddr.toNat + 4095) % 2 ^ 32 / 4096 = first at hbegin
  generalize endAddr.toNat % 2 ^ 32 / 4096 = stop at hend hendlt
  rw [hbegin] at hne
  rw [hbegin, hend] at hlt
  let r : PageRegion :=
    { start := first
      len := stop - first
      pos := by omega
      inside := by
        unfold Inside Extent.stop
        dsimp only
        omega }
  obtain ⟨heap, hinit, hinv⟩ := PageSys.rtPageInit_spec r m
  -- the pages of `memusage`
  have hnpages : (stop * 4096 - first * 4096) / rtMmPageSize = stop - first := by
    rw [rtMmPageSize]
    omega
  have husage : rtAlign ((stop - first) * 4) rtMmPageSize / rtMmPageSize =
      ((stop - first) * 4 + 4095) / 4096 := by
    rw [rtAlign_page, Nat.mod_eq_of_lt (by omega), rtMmPageSize, Nat.mul_div_cancel _ (by decide)]
  have hroom : Extent.allocate (((stop - first) * 4 + 4095) / 4096) [r.toExtent] ≠ none := by
    have hlen : r.len = stop - first := rfl
    unfold Extent.allocate
    split
    · simp
    · split
      · simp
      · omega
  rcases hinv.pageAlloc (show 0 < ((stop - first) * 4 + 4095) / 4096 by omega) with
    ⟨hnone, -⟩ | ⟨e, heap', es, halloc, hlen, -, hinv'⟩
  · exact absurd hnone hroom
  have haddr : addr r.toExtent = first * 4096 := by
    rw [addr_eq, Nat.mul_comm]
  rw [haddr] at hinit
  let L : Layout :=
    { region := r
      usage := e
      zoneSize := zoneSizeFor (stop * 4096 - first * 4096)
      zoneSize_eq := by
        unfold zoneSizeFor
        dsimp only
        split_ifs
        all_goals omega
      usage_len := by
        rw [hlen]
        change stop - first ≤ _
        omega }
  unfold rtSystemHeapInit
  simp only [hbegin, hend]
  rw [if_neg (by omega), hnpages, husage,
    show rtPageInit m (first * 4096) (stop - first) = _ from hinit]
  simp only [Option.bind_eq_bind, Option.bind_some, halloc]
  refine ⟨L, _, es, rfl, ⟨⟨rfl, ?_, rfl, rfl, ?_⟩, hinv', by simp, by simp, rfl⟩,
    ⟨fun zi => rfl, fun zi => List.Perm.refl _⟩, List.Perm.refl _⟩
  · have hsize := L.zoneSize_eq
    change (if L.zoneSize / 4 > 16 * 1024 then _ else L.zoneSize / 4) = _
    split_ifs
    all_goals omega
  · exact (Nat.mul_comm first 4096).trans (pageAddr_eq first).symm

/-- A heap at `RT_NULL`: `rt_page_list` stays empty, so that nothing can be allocated. -/
structure Idle (s : SlabHeap) : Prop where
  pageList : s.pageList = 0
  zoneArray : ∀ zi, s.zoneArray zi = 0
  zoneFree : s.zoneFree = 0

theorem rtPageAlloc_empty (m : ByteMem) (npages : Nat) :
    rtPageAlloc ⟨m, 0⟩ npages = some (0, ⟨m, 0⟩) := by
  unfold rtPageAlloc
  split <;> rfl

theorem rtSystemHeapInit_null (m : ByteMem) (beginAddr endAddr : BitVec 32)
    (hnull : rtAlign beginAddr.toNat rtMmPageSize = 0)
    (hlt : rtAlign beginAddr.toNat rtMmPageSize < rtAlignDown endAddr.toNat rtMmPageSize) :
    ∃ s, rtSystemHeapInit m beginAddr endAddr = some s ∧ Idle s := by
  rw [hnull] at hlt
  have hinit : ∀ npages, ∃ m', rtPageInit m 0 npages = some ⟨m', 0⟩ := fun npages => ⟨_, rfl⟩
  obtain ⟨m', hm'⟩ := hinit ((rtAlignDown endAddr.toNat rtMmPageSize - 0) / rtMmPageSize)
  unfold rtSystemHeapInit
  simp only [hnull]
  rw [if_neg (by omega), hm']
  simp only [Option.bind_eq_bind, Option.bind_some, rtPageAlloc_empty]
  exact ⟨_, rfl, rfl, fun _ => rfl, rfl⟩

theorem Idle.malloc (h : Idle s) {n : Nat} (hpos : 1 ≤ n) (hlt : n < s.zoneLimit) :
    rtMalloc s n = some (0, s) := by
  have hpages : rtPageAlloc s.toPageHeap (s.zoneSize / rtMmPageSize) = some (0, s.toPageHeap) := by
    have heap : s.toPageHeap = ⟨s.mem, 0⟩ := by rw [← h.pageList]
    rw [heap]
    exact rtPageAlloc_empty _ _
  unfold rtMalloc zoneMemory
  dsimp only
  rw [if_neg (by omega), if_neg (by omega), h.zoneArray, if_neg (by simp),
    if_neg (by simp [h.zoneFree]), hpages]
  rfl

namespace SlabSys

/-- What holds between two calls. -/
def Ok (s : SlabSys) : Prop :=
  (∃ (L : Layout) (zones : List (Zone L)) (cached : List Nat) (chain : Nat → List Nat)
      (es : List Extent), Inv L s.heap s.live zones cached chain es) ∨
    (Idle s.heap ∧ s.live = [])

variable {s : SlabSys}

theorem Ok.call (h : s.Ok) {c : SlabCall} (hlegal : s.Legal c) :
    (s.call c).1 ≠ none ∧ (s.call c).2.Ok := by
  rcases h with ⟨L, zones, cached, chain, es, h⟩ | ⟨hidle, hlive⟩
  · cases c with
    | malloc size =>
      obtain ⟨ptr, heap, zones', cached', chain', es', heq, hinv⟩ := h.malloc hlegal.1 hlegal.2
      rw [SlabSys.call, heq]
      exact ⟨Option.some_ne_none _, .inl ⟨L, zones', cached', chain', es', hinv⟩⟩
    | free c =>
      obtain ⟨heap, zones', cached', chain', es', heq, hinv⟩ := h.free hlegal
      rw [SlabSys.call, heq]
      exact ⟨Option.some_ne_none _, .inl ⟨L, zones', cached', chain', es', hinv⟩⟩
    | store a x =>
      obtain ⟨c, hc, hlo, hhi⟩ := hlegal
      obtain ⟨zones', hinv⟩ := h.store hc hlo hhi x
      exact ⟨Option.some_ne_none _, .inl ⟨L, zones', cached, chain, es, hinv⟩⟩
  · cases c with
    | malloc size =>
      rw [SlabSys.call, hidle.malloc hlegal.1 hlegal.2]
      exact ⟨Option.some_ne_none _, .inr ⟨hidle, hlive⟩⟩
    | free c =>
      have hc : c ∈ s.live := hlegal
      rw [hlive] at hc
      cases hc
    | store a x =>
      obtain ⟨c, hc, -⟩ := hlegal
      rw [hlive] at hc
      cases hc

theorem Ok.slabOk (h : s.Ok) : ∃ zones, SlabOk s zones := by
  rcases h with ⟨L, zones, cached, chain, es, h⟩ | ⟨hidle, hlive⟩
  · exact ⟨_, h.slabOk⟩
  · refine ⟨[], by simp, List.Pairwise.nil, fun zi chain hchain => ?_, ?_, ?_⟩
    · rw [hidle.zoneArray] at hchain
      rw [ListAt.unique hchain (show ListAt _ 12 0 [] from rfl)]
      exact List.Subset.refl _
    · simp [hlive]
    · simp [hlive]

/-- After `rt_system_heap_init` every call of a program returns, and at every point the zones and
the chunks of the program are as they should be. -/
theorem slabOk_of_run (m : ByteMem) (beginAddr endAddr : BitVec 32)
    (hlt : rtAlign beginAddr.toNat rtMmPageSize < rtAlignDown endAddr.toNat rtMmPageSize) :
    ∃ heap, rtSystemHeapInit m beginAddr endAddr = some heap ∧
      ∀ (tr : List (SlabCall × Option Nat)) (s : SlabSys), Run machine.Step ⟨heap, []⟩ tr s →
        (∀ e ∈ tr, e.2 ≠ none) ∧ ∃ zones, SlabOk s zones := by
  have hinit : ∃ heap, rtSystemHeapInit m beginAddr endAddr = some heap ∧ Ok ⟨heap, []⟩ := by
    by_cases hnull : rtAlign beginAddr.toNat rtMmPageSize = 0
    · obtain ⟨heap, heq, hidle⟩ := rtSystemHeapInit_null m beginAddr endAddr hnull hlt
      exact ⟨heap, heq, .inr ⟨hidle, rfl⟩⟩
    · obtain ⟨L, heap, es, heq, hinv⟩ := rtSystemHeapInit_spec m beginAddr endAddr hnull hlt
      exact ⟨heap, heq, .inl ⟨L, _, _, _, es, hinv⟩⟩
  obtain ⟨heap, heq, hok⟩ := hinit
  refine ⟨heap, heq, fun tr s hrun => ?_⟩
  have hinv : (∀ e ∈ tr, e.2 ≠ none) ∧ s.Ok := by
    refine hrun.invariant ⟨by simp, hok⟩ ?_
    intro tr s e s' ⟨hreturns, h⟩ ⟨hlegal, hcall⟩
    obtain ⟨hreturn, hnext⟩ := h.call hlegal
    have hcall' : s.call e.1 = (e.2, s') := hcall
    rw [hcall'] at hreturn hnext
    exact ⟨forall_mem_append.mpr ⟨hreturns, by simpa using hreturn⟩, hnext⟩
  exact ⟨hinv.1, hinv.2.slabOk⟩

/-- The heap in the pages from the fourth one on, up to address `262144`, in memory that was zero.
-/
def smallHeap : SlabHeap := (rtSystemHeapInit (fun _ => 0) 8193 262144).get (by decide +kernel)

/-- Two chunks of one zone, of which one is given back, and one of another zone. -/
theorem slabOk_of_run_two_zones :
    ∃ tr s, rtSystemHeapInit (fun _ => 0) 8193 262144 = some smallHeap ∧
      Run machine.Step ⟨smallHeap, []⟩ tr s ∧
      tr.map Prod.snd = [some 16424, some 16528, some 0, some 49192] ∧ ∃ zones, SlabOk s zones := by
  have hinit : rtSystemHeapInit (fun _ => 0) 8193 262144 = some smallHeap :=
    (Option.some_get _).symm
  obtain ⟨heap, hheap, hruns⟩ := slabOk_of_run (fun _ => 0) 8193 262144 (by decide +kernel)
  cases hinit.symm.trans hheap
  have hrun := machine.run_steps ⟨smallHeap, []⟩
    [.malloc 100, .malloc 100, .free ⟨16424, 100⟩, .malloc 20]
  exact ⟨_, _, hinit, hrun, by decide +kernel, (hruns _ _ hrun).2⟩

end SlabSys
end RtThread.Slab
