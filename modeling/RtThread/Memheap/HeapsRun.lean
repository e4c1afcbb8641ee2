import RtThread.Memheap.HeapsCalls
import RtThread.Memheap.Program

/-!
# Programs on the system heap

A program sets up `_heap` and then other memory heaps, in places that are free, and calls the
functions of the system heap with pointers it holds. A block that `rt_realloc` cannot serve in its
own heap is copied to another one and not released.
-/

namespace RtThread.Memheap.Heaps
open Option
open List
variable {σ σ' : Heaps} {k memheap startAddr size n p newsize : Nat} {b : Nat × Nat} {m : ByteMem}

theorem heapAt_memheapInit (σ : Heaps) (memheap startAddr size : Nat) :
    (σ.memheapInit memheap startAddr size).heapAt memheap =
      rtMemheapInit σ.mem memheap startAddr size :=
  σ.heapAt_put_self (rtMemheapInit σ.mem memheap startAddr size)

theorem region_memheapInit (σ : Heaps) (memheap startAddr : Nat) (hsize : size < 2 ^ 32) {a : Nat}
    (ha : a ∈ ((σ.memheapInit memheap startAddr size).heapAt memheap).region) :
    (startAddr ≤ a ∧ a < startAddr + size) ∨ (memheap + 44 ≤ a ∧ a < memheap + 68) := by
  have hpool : rtAlignDown size rtAlignSize ≤ size := by
    rw [rtAlignSize, rtAlignDown_eight, Nat.mod_eq_of_lt hsize]
    omega
  rw [heapAt_memheapInit] at ha
  have ha' : (startAddr ≤ a ∧ a < startAddr + rtAlignDown size rtAlignSize) ∨
      (memheap + 44 ≤ a ∧ a < memheap + 44 + 24) := ha
  omega

/-- A new heap has its pool and its control block where no other has. -/
structure Place (σ : Heaps) (memheap startAddr size : Nat) : Prop where
  room : 2 * rtMemheapSize ≤ size
  fits : startAddr + size ≤ 2 ^ 32
  header : memheap + 68 ≤ 2 ^ 32
  apart : memheap + 68 ≤ startAddr ∨ startAddr + size ≤ memheap + 44
  new : memheap ∉ σ.objectList
  free : ∀ k ∈ σ.objectList, ∀ a ∈ (σ.heapAt k).region,
    (a < startAddr ∨ startAddr + size ≤ a) ∧ (a < memheap + 44 ∨ memheap + 68 ≤ a)

namespace Place

section
variable (h : Place σ memheap startAddr size)
include h

theorem sound : ((σ.memheapInit memheap startAddr size).heapAt memheap).Sound := by
  have hroom := h.room
  rw [rtMemheapSize_eq] at hroom
  rw [heapAt_memheapInit]
  exact ⟨_, _, rtMemheapInit_spec (by omega) h.fits h.header h.apart, fun _ _ => trivial⟩

theorem region (hk : k ∈ σ.objectList) : ∀ a ∈ (σ.heapAt k).region,
      a ∉ ((σ.memheapInit memheap startAddr size).heapAt memheap).region := by
  intro a ha hnew
  have hfree := h.free k hk a ha
  have hfits := h.fits
  have hheader := h.header
  have hapart := h.apart
  have hnew := region_memheapInit σ memheap startAddr (by omega) hnew
  omega

theorem other (hk : k ∈ σ.objectList) (hsound : (σ.heapAt k).Sound) :
    ((σ.memheapInit memheap startAddr size).heapAt k).Sound ∧
      ((σ.memheapInit memheap startAddr size).heapAt k).region = (σ.heapAt k).region := by
  have hroom := h.room
  rw [rtMemheapSize_eq] at hroom
  have hne : k ≠ memheap := by
    rintro rfl
    exact h.new hk
  have hother : (σ.memheapInit memheap startAddr size).heapAt k =
      { σ.heapAt k with mem := (rtMemheapInit σ.mem memheap startAddr size).mem } :=
    heapAt_put_of_ne hne
  have hdisjoint := h.region hk
  rw [heapAt_memheapInit] at hdisjoint
  rw [hother]
  exact ⟨(hsound.congr fun a ha =>
    rtMemheapInit_only σ.mem (by omega) h.fits h.header h.apart a (hdisjoint a ha)).1, rfl⟩

theorem extend
    (hsystem : σ.heap ∈ memheap :: σ.objectList) (hsound : ∀ k ∈ σ.objectList, (σ.heapAt k).Sound)
    (hapart : ∀ j ∈ σ.objectList, ∀ k ∈ σ.objectList, j ≠ k →
      ∀ a ∈ (σ.heapAt j).region, a ∉ (σ.heapAt k).region) :
    (σ.memheapInit memheap startAddr size).Sound := by
  have hother := fun k hk => h.other hk (hsound k hk)
  refine ⟨hsystem, ?_, ?_⟩
  · exact forall_mem_cons.mpr ⟨h.sound, fun k hk => (hother k hk).1⟩
  · intro j hj k hk hjk
    rcases mem_cons.mp hj with hj | hj <;> rcases mem_cons.mp hk with hk | hk
    · exact absurd (hj.trans hk.symm) hjk
    · rw [(hother k hk).2, hj]
      exact fun a hnew ha => h.region hk a ha hnew
    · rw [(hother j hj).2, hk]
      exact h.region hj
    · rw [(hother j hj).2, (hother k hk).2]
      exact hapart j hj k hk hjk

end
end Place

theorem sound_rtSystemHeapInit {beginAddr endAddr : Nat} (hlist : σ.objectList = [])
    (hle : beginAddr ≤ endAddr) (hlt : endAddr < 2 ^ 32)
    (h : Place σ σ.heap beginAddr (endAddr - beginAddr)) :
    (σ.rtSystemHeapInit beginAddr endAddr).Sound := by
  have hnone : ∀ k, k ∉ σ.objectList := fun k => hlist ▸ not_mem_nil
  have hsize : sub32 endAddr beginAddr = endAddr - beginAddr := sub32_of_le hle hlt
  rw [rtSystemHeapInit, hsize]
  exact h.extend mem_cons_self (fun k hk => absurd hk (hnone k)) fun j hj => absurd hj (hnone j)

theorem Sound.memheapInit (h : σ.Sound) (hplace : Place σ memheap startAddr size) :
    (σ.memheapInit memheap startAddr size).Sound :=
  hplace.extend (mem_cons_of_mem _ h.system) h.sound h.apart

/-- The heap of the block at `p` can serve the request, or no heap can. -/
def Served (σ : Heaps) (p n newsize : Nat) : Prop :=
  (∃ k ∈ σ.objectList, (p, n) ∈ (σ.heapAt k).usedAreas ∧
    (σ.heapAt k).CanRealloc p n (roundSize newsize)) ∨
  ∀ k ∈ σ.objectList, ¬ (σ.heapAt k).CanAlloc (roundSize newsize)

theorem Sound.unique (h : σ.Sound) {j : Nat} (hj : j ∈ σ.objectList) (hk : k ∈ σ.objectList)
    (hpj : (p, n) ∈ (σ.heapAt j).usedAreas) {n' : Nat}
    (hpk : (p, n') ∈ (σ.heapAt k).usedAreas) : j = k := by
  by_contra hjk
  exact h.apart j hj k hk hjk _ ((σ.heapAt j).usedAreas_within _ hpj).1
    ((σ.heapAt k).usedAreas_within _ hpk).1

/-- `rt_realloc` returns `RT_NULL` and changes nothing, or exchanges the block for one that is large
enough and has as much of the contents as fits, exactly if the heap of the block can serve the
request, or no heap can. -/
theorem rtRealloc_replaces (h : σ.Sound) (hp : (p, n) ∈ σ.live) (hpos : 0 < newsize)
    (hlt : newsize < 2 ^ 31) :
    (∃ q σ', rtRealloc σ p newsize = some (q, σ') ∧ ((q = rtNull ∧ σ' = σ) ∨
      (q ≠ rtNull ∧ σ'.Sound ∧ ∃ n', newsize ≤ n' ∧
        σ'.live = insert (q, n') {b ∈ σ.live | b.1 ≠ p} ∧
        ∀ i < min n newsize, σ'.mem (q + i) = σ.mem (p + i)))) ↔ Served σ p n newsize := by
  obtain ⟨k, hk, hp⟩ := hp
  by_cases hcan : (σ.heapAt k).CanRealloc p n (roundSize newsize)
  · refine iff_of_true ?_ (.inl ⟨k, hk, hp, hcan⟩)
    obtain ⟨q, n', σ', hret, hq, hn', hc, hcontents⟩ := h.rtRealloc_own hk hp hpos hlt hcan
    refine ⟨q, σ', hret, .inr ⟨hq, hc.sound, n', hn', ?_, hcontents⟩⟩
    rw [hc.live, Set.union_singleton]
    rfl
  · rcases h.rtRealloc_other hk hp hpos hlt hcan with ⟨hnone, hnull⟩ | ⟨⟨j, hj, hother⟩, w, m', σ₁,
      hret, hw, hm', hc, -⟩
    · exact iff_of_true ⟨rtNull, σ, hnull, .inl ⟨rfl, rfl⟩⟩ (.inr hnone)
    · refine iff_of_false ?_ ?_
      · rintro ⟨q, σ', hret', hor⟩
        cases hret.symm.trans hret'
        obtain ⟨-, -, n', hn', hlive, -⟩ := hor.resolve_left fun hnull => hw hnull.1
        have hstays : (p, n) ∈ σ₁.live := hc.live ▸ .inl ⟨⟨k, hk, hp⟩, Set.notMem_empty p⟩
        rw [hlive] at hstays
        rcases hstays with heq | ⟨-, hne⟩
        · -- the new block would be where the old one is
          obtain ⟨rfl, rfl⟩ := Prod.mk.inj heq
          have hidle := (hc.change.fresh _ rfl 0 (by dsimp only; omega)).2 _ ⟨k, hk, hp⟩
            (Set.notMem_empty p)
          dsimp only at hidle
          omega
        · exact hne rfl
      · rintro (⟨i, hi, hpi, hcan'⟩ | hnone)
        · rw [h.unique hi hk hpi hp] at hcan'
          exact hcan hcan'
        · exact hnone j hj hother

/-- The memory and the control blocks before `rt_system_heap_init`, with `_heap` at `0x100`. -/
def boot : Heaps where
  mem := fun _ => 0
  ctl := fun _ => ⟨0, 0, 0, 0, 0, 0⟩
  objectList := []
  heap := 0x100

/-- `_heap` with a pool of `size` bytes, and a second heap with one of 256. -/
def twoHeaps (size : Nat) : Heaps :=
  (boot.rtSystemHeapInit 0x1000 (0x1000 + size)).memheapInit 0x200 0x2000 256

theorem sound_twoHeaps (hlo : 48 ≤ size) (hhi : size ≤ 0x1000) : (twoHeaps size).Sound := by
  have hsize : 0x1000 + size - 0x1000 = size := by omega
  have hfirst : (boot.rtSystemHeapInit 0x1000 (0x1000 + size)).Sound := by
    refine sound_rtSystemHeapInit rfl (by omega) (by omega) ?_
    rw [hsize]
    refine ⟨?_, by omega, by decide, .inl (by decide), not_mem_nil,
      fun k hk => absurd hk not_mem_nil⟩
    rw [rtMemheapSize_eq]
    omega
  refine hfirst.memheapInit ⟨by decide, by decide, by decide, by decide, ?_, fun k hk a ha => ?_⟩
  · exact fun hmem => absurd (mem_singleton.mp hmem) (by decide)
  · obtain rfl : k = 0x100 := mem_singleton.mp hk
    have hfits : sub32 (0x1000 + size) 0x1000 = size := by
      rw [sub32_of_le, hsize]
    have hregion := region_memheapInit boot 0x100 0x1000 (hfits.symm ▸ (by omega)) ha
    omega

theorem Sound.live_rtMalloc (h : σ.Sound) (hret : rtMalloc σ size = some (p, σ'))
    (hp : p ≠ rtNull) : σ'.Sound ∧ ∃ n, (p, n) ∈ σ'.live := by
  rcases h.rtMalloc_granted size with ⟨-, hnull⟩ | ⟨-, q, n, σ'', hgranted, -, -, hc⟩
  · obtain ⟨hq, -⟩ := Prod.mk.inj (some.inj (hret.symm.trans hnull))
    exact absurd hq hp
  · cases hret.symm.trans hgranted
    exact ⟨hc.sound, n, hc.live ▸ .inr rfl⟩

theorem Sound.canRealloc_iff (h : σ.Sound) (hk : k ∈ σ.objectList)
    (hp : (p, n) ∈ (σ.heapAt k).usedAreas) (hpos : 0 < newsize) (hlt : newsize < 2 ^ 31) {q : Nat}
    (hret : σ.on (σ.poolPtr (p - rtMemheapSize)) (rtMemheapRealloc · p newsize) = some (q, σ')) :
    (σ.heapAt k).CanRealloc p n (roundSize newsize) ↔ q ≠ rtNull := by
  have hpool : σ.poolPtr (p - rtMemheapSize) = k := ((h.sound k hk).poolPtr_eq hp).1
  rw [hpool] at hret
  rcases rtMemheapRealloc_moves (h.sound k hk) hp hpos.ne' (roundSize_add_lt hlt) (fun _ => id)
    fun _ => id with ⟨hno, hnull⟩ | ⟨hcan, w, s', hmoved, hw, -⟩
  · obtain ⟨hq, -⟩ := Prod.mk.inj (some.inj (hret.symm.trans (on_unchanged hnull)))
    exact ⟨fun hcan => absurd hcan hno, fun hne => absurd hq hne⟩
  · cases hret.symm.trans (on_eq hmoved)
    exact ⟨fun _ => hw, fun _ => hcan⟩

/-- `p = rt_malloc(40); w = rt_realloc(p, 100);`, where `q` is what the heap of `p` answers. -/
theorem exists_block_twoHeaps (size : Nat) {q w : Nat} (hlo : 48 ≤ size) (hhi : size ≤ 0x1000)
    (hcalls : (do
      let (p, σ) ← rtMalloc (twoHeaps size) 40
      let (q, _) ← σ.on (σ.poolPtr (p - rtMemheapSize)) (rtMemheapRealloc · p 100)
      let (w, _) ← rtRealloc σ p 100
      return (p, q, w)) = some (p, q, w)) (hp : p ≠ rtNull) :
    ∃ σ σ' n k, rtMalloc (twoHeaps size) 40 = some (p, σ) ∧ σ.Sound ∧ k ∈ σ.objectList ∧
      (p, n) ∈ (σ.heapAt k).usedAreas ∧ rtRealloc σ p 100 = some (w, σ') ∧
      ((σ.heapAt k).CanRealloc p n (roundSize 100) ↔ q ≠ rtNull) := by
  obtain ⟨⟨p', σ⟩, hmalloc, hcalls⟩ := bind_eq_some_iff.mp hcalls
  obtain ⟨⟨q', _⟩, hown, hcalls⟩ := bind_eq_some_iff.mp hcalls
  obtain ⟨⟨w', σ'⟩, hret, hcalls⟩ := bind_eq_some_iff.mp hcalls
  cases hcalls
  obtain ⟨hsound, n, k, hk, hpk⟩ := (sound_twoHeaps hlo hhi).live_rtMalloc hmalloc hp
  exact ⟨σ, σ', n, k, hmalloc, hsound, hk, hpk, hret,
    hsound.canRealloc_iff hk hpk (by decide) (by decide) hown⟩

/-- With room behind the block it grows where it is. -/
theorem rtRealloc_replaces_in_place :
    ∃ σ σ' n n', rtMalloc (twoHeaps 256) 40 = some (0x1018, σ) ∧ (0x1018, n) ∈ σ.live ∧
      rtRealloc σ 0x1018 100 = some (0x1018, σ') ∧ 100 ≤ n' ∧
      σ'.live = insert (0x1018, n') {b ∈ σ.live | b.1 ≠ 0x1018} := by
  obtain ⟨σ, σ', n, k, hmalloc, hsound, hk, hp, hret, hcan⟩ :=
    exists_block_twoHeaps 256 (p := 0x1018) (q := 0x1018) (w := 0x1018) (by decide) (by decide)
      (by decide +kernel) (by decide)
  obtain ⟨q, σ'', hret', hor⟩ := (rtRealloc_replaces hsound ⟨k, hk, hp⟩ (by decide) (by decide)).mpr
    (.inl ⟨k, hk, hp, hcan.mpr (by decide)⟩)
  cases hret.symm.trans hret'
  rcases hor with ⟨hnull, -⟩ | ⟨-, -, n', hn', hlive, -⟩
  · exact absurd hnull (by decide)
  · exact ⟨σ, σ', n, n', hmalloc, ⟨k, hk, hp⟩, hret, hn', hlive⟩

/-- With no room in `_heap` the new block is in the second heap, and the old one is still
allocated. -/
theorem rtRealloc_keeps_old_block :
    ∃ σ σ' n, rtMalloc (twoHeaps 128) 40 = some (0x1018, σ) ∧ σ.Sound ∧ (0x1018, n) ∈ σ.live ∧
      rtRealloc σ 0x1018 100 = some (0x2018, σ') ∧ (0x1018, n) ∈ σ'.live ∧
      ∀ n', σ'.live ≠ insert (0x2018, n') {b ∈ σ.live | b.1 ≠ 0x1018} := by
  obtain ⟨σ, σ', n, k, hmalloc, hsound, hk, hp, hret, hcan⟩ :=
    exists_block_twoHeaps 128 (p := 0x1018) (q := rtNull) (w := 0x2018) (by decide) (by decide)
      (by decide +kernel) (by decide)
  have hleak : (0x1018, n) ∈ σ'.live := by
    rcases hsound.rtRealloc_other hk hp (by decide) (by decide) (hcan.not.mpr (by decide)) with
      ⟨-, hnull⟩ | ⟨-, q, n', σ'', hret', -, -, hc, -⟩
    · obtain ⟨hnull, -⟩ := Prod.mk.inj (some.inj (hret.symm.trans hnull))
      exact absurd hnull (by decide)
    · cases hret.symm.trans hret'
      exact hc.live ▸ .inl ⟨⟨k, hk, hp⟩, Set.notMem_empty _⟩
  refine ⟨σ, σ', n, hmalloc, hsound, ⟨k, hk, hp⟩, hret, hleak, fun n' hlive => ?_⟩
  rw [hlive] at hleak
  rcases hleak with heq | ⟨-, hne⟩
  · exact absurd (Prod.mk.inj heq).1 (by decide)
  · exact hne rfl

/-- A step of a program: a call, or a store of one byte. -/
inductive Request
  | malloc (size : Nat)
  | calloc (count size : Nat)
  | realloc (rmem newsize : Nat)
  | free (rmem : Nat)
  | store (a : Nat) (v : BitVec 8)

namespace Request
variable {c : Request} {q : Nat}

/-- The pointer that is returned, and the heaps behind the request. -/
def exec (σ : Heaps) : Request → Option (Nat × Heaps)
  | malloc size => rtMalloc σ size
  | calloc count size => rtCalloc σ count size
  | realloc rmem newsize => rtRealloc σ rmem newsize
  | free rmem => (rtFree σ rmem).map (rtNull, ·)
  | store a v => some (rtNull, { σ with mem := Function.update σ.mem a v })

def bytes : Request → Nat
  | malloc size | realloc _ size => size
  | calloc count size => count * size
  | free _ | store _ _ => 0

/-- The request is about the block `b`. -/
def Names (b : Nat × Nat) : Request → Prop
  | realloc rmem _ | free rmem => b.1 = rmem
  | store a _ => b.1 ≤ a ∧ a < b.1 + b.2
  | malloc _ | calloc _ _ => False

/-- A request is below `2 ^ 31` bytes, and about `RT_NULL` or a block that is handed out. -/
def Legal (σ : Heaps) : Request → Prop
  | realloc rmem newsize => newsize < 2 ^ 31 ∧ (rmem = rtNull ∨ ∃ n, (rmem, n) ∈ σ.live)
  | free rmem => rmem = rtNull ∨ ∃ n, (rmem, n) ∈ σ.live
  | store a v => ∃ b ∈ σ.live, Names b (store a v)
  | c => c.bytes < 2 ^ 31

/-- The request returns in sound heaps, with `RT_NULL` or a block that is large enough and not in a
block that it is not about, and every such block is still handed out with its contents. -/
def Answered (σ : Heaps) (c : Request) : Prop :=
  ∃ q σ', c.exec σ = some (q, σ') ∧ σ'.Sound ∧
    (q = rtNull ∨ ∃ n, c.bytes ≤ n ∧ (q, n) ∈ σ'.live ∧
      ∀ i < n, ∀ b ∈ σ.live, ¬ c.Names b → q + i < b.1 ∨ b.1 + b.2 ≤ q + i) ∧
    ∀ b ∈ σ.live, ¬ c.Names b → b ∈ σ'.live ∧ ∀ i < b.2, σ'.mem (b.1 + i) = σ.mem (b.1 + i)

theorem answered_null (h : σ.Sound) (hret : c.exec σ = some (rtNull, σ)) : Answered σ c :=
  ⟨rtNull, σ, hret, h, .inl rfl, fun _ hb _ => ⟨hb, fun _ _ => rfl⟩⟩

theorem answered_of_changes {gone : Set Nat} {new : Set (Nat × Nat)}
    (hret : c.exec σ = some (q, σ')) (hc : Changes σ gone new σ')
    (hgone : ∀ b, b.1 ∈ gone → c.Names b) (hq : q = rtNull ∨ ∃ n, c.bytes ≤ n ∧ (q, n) ∈ new) :
    Answered σ c := by
  have hstay : ∀ b, ¬ c.Names b → b.1 ∉ gone := fun b hnot hmem => hnot (hgone b hmem)
  refine ⟨q, σ', hret, hc.sound, hq.imp_right ?_, fun b hb hnot => ?_⟩
  · rintro ⟨n, hn, hmem⟩
    exact ⟨n, hn, hc.live ▸ .inr hmem, fun i hi b hb hnot =>
      (hc.change.fresh _ hmem i hi).2 b hb (hstay b hnot)⟩
  · exact ⟨hc.live ▸ .inl ⟨hb, hstay b hnot⟩, fun i hi => hc.change.keeps hb (hstay b hnot) hi⟩

section
variable (h : σ.Sound)
include h

theorem answered_malloc (hret : c.exec σ = rtMalloc σ c.bytes) (hlt : c.bytes < 2 ^ 31) :
    Answered σ c := by
  rcases h.rtMalloc_granted c.bytes with ⟨-, hnull⟩ | ⟨-, q, n, σ', hgranted, -, hn, hc⟩
  · exact answered_null h (hret.trans hnull)
  · exact answered_of_changes (hret.trans hgranted) hc (fun b hb => absurd hb (Set.notMem_empty _))
      (.inr ⟨n, (le_roundSize (by omega)).trans hn, rfl⟩)

theorem answered_calloc {count : Nat} (hlt : count * size < 2 ^ 31) :
    Answered σ (calloc count size) := by
  have htotal : count * size % 2 ^ 32 = count * size := Nat.mod_eq_of_lt (by omega)
  rcases h.rtMalloc_granted (count * size) with ⟨-, hnull⟩ | ⟨-, q, n, σ', hgranted, hq, hn, hc⟩
  · refine answered_null h ?_
    simp only [exec, rtCalloc, htotal, hnull, Option.bind_eq_bind, Option.bind_some]
    rfl
  · have hle : count * size ≤ n := (le_roundSize (by omega)).trans hn
    refine answered_of_changes ?_ (hc.store (Set.mem_singleton _)
      (m := σ'.mem.fill q (count * size) 0) fun a ha => ?_)
      (fun b hb => absurd hb (Set.notMem_empty _)) (.inr ⟨n, hle, rfl⟩)
    · simp only [exec, rtCalloc, htotal, hgranted, Option.bind_eq_bind, Option.bind_some]
      exact if_pos hq
    · rw [ByteMem.fill, if_neg (by omega)]

theorem answered_realloc (hp : (p, n) ∈ σ.live) (hlt : newsize < 2 ^ 31) :
    Answered σ (realloc p newsize) := by
  obtain ⟨k, hk, hp⟩ := hp
  by_cases hzero : newsize = 0
  · obtain ⟨s', hfree, hc⟩ := rtMemheapFree_changes (h.sound k hk) hp
    have hret : rtMemheapRealloc (σ.heapAt k) p newsize = some (rtNull, s') := by
      rw [rtMemheapRealloc, if_pos hzero, hfree]
      rfl
    exact answered_of_changes (h.rtRealloc_eq hk hp hret fun hfail => hfail.2 hzero)
      (h.put hk hc (Set.singleton_subset_iff.mpr ((σ.heapAt k).usedAreas_within _ hp).1))
      (fun _ => id) (.inl rfl)
  by_cases hcan : (σ.heapAt k).CanRealloc p n (roundSize newsize)
  · obtain ⟨q, n', σ', hret, -, hn', hc, -⟩ := h.rtRealloc_own hk hp (by omega) hlt hcan
    exact answered_of_changes hret hc (fun _ => id) (.inr ⟨n', hn', rfl⟩)
  · rcases h.rtRealloc_other hk hp (by omega) hlt hcan with ⟨-, hnull⟩
      | ⟨-, q, n', σ', hret, -, hn', hc, -⟩
    · exact answered_null h hnull
    · exact answered_of_changes hret hc (fun b hb => absurd hb (Set.notMem_empty _))
        (.inr ⟨n', hn', rfl⟩)

theorem answered_free (hp : (p, n) ∈ σ.live) : Answered σ (free p) := by
  obtain ⟨k, hk, hpk⟩ := hp
  have hne : p ≠ rtNull := ((h.sound k hk).poolPtr_eq hpk).2.2
  have heq : exec σ (free p) = exec σ (realloc p 0) := by
    simp only [exec, rtFree, rtRealloc, if_neg hne, on, rtMemheapRealloc]
    cases rtMemheapFree (σ.heapAt (σ.poolPtr (p - rtMemheapSize))) p <;> rfl
  obtain ⟨q, σ', hret, hrest⟩ := answered_realloc h ⟨k, hk, hpk⟩ (show 0 < 2 ^ 31 by decide)
  exact ⟨q, σ', heq.trans hret, hrest⟩

theorem answered_store {a : Nat} {v : BitVec 8} (hb : b ∈ σ.live) (hin : Names b (store a v)) :
    Answered σ (store a v) := by
  obtain ⟨hsound, hlive⟩ := h.write (m := Function.update σ.mem a v) hb
    fun x hx => Function.update_of_ne (by have := hin.1; have := hin.2; omega) _ _
  refine ⟨rtNull, _, rfl, hsound, .inl rfl, fun b' hb' hnot => ⟨hlive ▸ hb', fun i hi => ?_⟩⟩
  refine Function.update_of_ne (fun heq => hnot ⟨?_, ?_⟩) _ _ <;> omega

theorem answered (hlegal : Legal σ c) : Answered σ c := by
  cases c with
  | malloc size => exact answered_malloc h rfl hlegal
  | calloc count size => exact answered_calloc h hlegal
  | realloc rmem newsize =>
    obtain ⟨hlt, rfl | ⟨n, hp⟩⟩ := hlegal
    · exact answered_malloc h rfl hlt
    · exact answered_realloc h hp hlt
  | free rmem =>
    obtain rfl | ⟨n, hp⟩ := hlegal
    · exact answered_null h rfl
    · exact answered_free h hp
  | store a v =>
    obtain ⟨b, hb, hin⟩ := hlegal
    exact answered_store h hb hin

theorem apart {b' : Nat × Nat} (hb : b ∈ σ.live) (hb' : b' ∈ σ.live) (hne : b ≠ b') :
    ∀ i < b.2, ∀ j < b'.2, b.1 + i ≠ b'.1 + j := by
  obtain ⟨p, n⟩ := b
  obtain ⟨p', n'⟩ := b'
  obtain ⟨k, hk, hb⟩ := hb
  intro i hi j hj heq
  obtain ⟨l, hl, hbl⟩ := hb'
  have hkl : k = l := by
    by_contra hkl
    exact h.apart k hk l hl hkl _ (((σ.heapAt k).usedAreas_within _ hb).2 i hi)
      (heq ▸ ((σ.heapAt l).usedAreas_within _ hbl).2 j hj)
  subst hkl
  have hpp : p' ≠ p := by
    rintro rfl
    exact hne (Prod.ext rfl (((h.sound k hk).poolPtr_eq hb).2.1.symm.trans
      ((h.sound k hk).poolPtr_eq hbl).2.1))
  obtain ⟨bs, fs, hinv, -⟩ := h.sound k hk
  obtain ⟨l, x, r, rfl, hx, rfl, rfl⟩ := hinv.lists.blocks.exists_block hb
  have hidle : x.off + 24 + i ∈ (σ.heapAt k).arena.Idle {x.off + 24} :=
    hinv.lists.blocks.idle_block (.inr rfl) (by omega) (by dsimp only at hi; omega)
  have hout := hidle.2 (p', n') hbl hpp
  dsimp only at hout heq hj
  omega

end

def Step (σ : Heaps) (c : Request) (σ' : Heaps) : Prop :=
  Legal σ c ∧ ∃ q, c.exec σ = some (q, σ')

end Request

/-- In every run of a program on the system heap, over any number of heaps: what is handed out is
apart, `rt_malloc` fails only if no heap can serve the request, and every legal call returns, with
`RT_NULL` or a block that is large enough, and leaves every other block handed out and as it was. -/
theorem system_heap_of_run {σ₀ : Heaps} {tr : List Request} (hstart : σ₀.Sound)
    (hrun : Run Request.Step σ₀ tr σ) :
    (∀ b ∈ σ.live, ∀ b' ∈ σ.live, b ≠ b' → ∀ i < b.2, ∀ j < b'.2, b.1 + i ≠ b'.1 + j) ∧
      (∀ size, (∃ σ', rtMalloc σ size = some (rtNull, σ')) ↔
        ∀ k ∈ σ.objectList, ¬ (σ.heapAt k).CanAlloc (roundSize size)) ∧
      ∀ c, Request.Legal σ c → Request.Answered σ c := by
  have hsound : σ.Sound := by
    refine hrun.state_invariant hstart ?_
    rintro σ c σ' h ⟨hlegal, q, hexec⟩
    obtain ⟨_, σ'', hret, hsound, -⟩ := Request.answered h hlegal
    cases hexec.symm.trans hret
    exact hsound
  refine ⟨fun b hb b' hb' => Request.apart hsound hb hb', fun size => ?_,
    fun c => Request.answered hsound⟩
  rcases hsound.rtMalloc_granted size with ⟨hno, hnull⟩ | ⟨⟨k, hk, hcan⟩, q, n, σ', hret, hq, -⟩
  · exact ⟨fun _ => hno, fun _ => ⟨σ, hnull⟩⟩
  · refine ⟨?_, fun hno => absurd hcan (hno k hk)⟩
    rintro ⟨_, hnull⟩
    cases hret.symm.trans hnull
    exact absurd rfl hq

/-- `rt_malloc(40); rt_calloc(4, 10);` with two heaps. -/
theorem system_heap_of_run_two :
    ∃ σ, Run Request.Step (twoHeaps 256) [.malloc 40] σ ∧ Request.Answered σ (.calloc 4 10) := by
  obtain ⟨⟨q, σ⟩, hmalloc, -⟩ := Option.map_eq_some_iff.mp
    (show (rtMalloc (twoHeaps 256) 40).map Prod.fst = some 0x1018 by decide +kernel)
  have hrun : Run Request.Step (twoHeaps 256) [.malloc 40] σ :=
    .snoc .nil ⟨show 40 < 2 ^ 31 by decide, q, hmalloc⟩
  exact ⟨σ, hrun, (system_heap_of_run (sound_twoHeaps (by decide) (by decide)) hrun).2.2 _
    (show 4 * 10 < 2 ^ 31 by decide)⟩

end RtThread.Memheap.Heaps
