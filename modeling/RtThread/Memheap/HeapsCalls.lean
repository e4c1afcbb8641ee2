import RtThread.Memheap.Changes
import RtThread.Memheap.Init
import RtThread.Memheap.Heaps

/-!
# The calls of the system heap

Several memory heaps are one arena as long as their regions are apart. A call changes one of them,
and the others keep their items and what they have handed out.
-/

namespace RtThread.Memheap
open ByteMem
open List
variable {s s' : Heap} {σ σ' : Heaps} {gone : Set Nat} {new : Set (Nat × Nat)} {P : Set Nat}
  {b : Nat × Nat} {m : ByteMem} {j k n o p q size newsize : Nat}

theorem Heap.Sound.congr (h : s.Sound) (hm : ∀ a ∈ s.region, m a = s.mem a) :
    ({ s with mem := m } : Heap).Sound ∧ ({ s with mem := m } : Heap).usedAreas = s.usedAreas := by
  obtain ⟨bs, fs, hinv, htrue⟩ := h
  have hitems := Covers.idle hinv.lists.blocks ∅
  have hinv' := hinv.congr fun o ho a hlo hhi => hm a (show a ∈ s.arena.Idle ∅ from (by
    rcases ho with rfl | rfl | ⟨z, hz, rfl⟩
    · exact hitems.header a hlo hhi
    · exact hitems.tail a hlo hhi
    · exact hitems.blocks z hz a hlo hhi)).1
  refine ⟨⟨bs, fs, hinv', htrue⟩, ?_⟩
  ext b
  exact hinv'.lists.blocks.mem_usedAreas.trans hinv.lists.blocks.mem_usedAreas.symm

theorem Heap.Sound.poolPtr_eq (h : s.Sound) (hp : (p, n) ∈ s.usedAreas) :
    s.poolPtr (p - rtMemheapSize) = s.memheap ∧ s.memitemSize (p - rtMemheapSize) = n ∧
      p ≠ rtNull := by
  obtain ⟨bs, fs, hinv, -⟩ := h
  obtain ⟨l, x, r, rfl, hx, rfl, rfl⟩ := hinv.lists.blocks.exists_block hp
  rw [rtMemheapSize_eq, Nat.add_sub_cancel]
  refine ⟨?_, hinv.lists.blocks.memitemSize_eq, Nat.succ_ne_zero _⟩
  rw [Heap.poolPtr_eq_view, hinv.lists.blocks.view_eq]
  rcases hinv.lists.blocks.tags x (by simp) with htag | htag <;> rw [htag] <;> rfl

theorem initItem_only (h : ItemIn P o) : Only P s.mem (initItem s o).mem :=
  (((((h.word 0).trans (h.word 4)).trans (h.word 8)).trans (h.word 12)).trans
    (h.word 16)).trans (h.word 20)

theorem initTail_only (h : ItemIn P o) : Only P s.mem (initTail s o).mem :=
  (((((h.word 0).trans (h.word 4)).trans (h.word 8)).trans (h.word 12)).trans
    (h.word 20)).trans (h.word 16)

theorem Fresh.initFirst_only (h : Fresh s) (hring : FreeRing s []) (hheader : ItemIn P s.freeHeader)
    (hstart : ItemIn P s.startAddr) : Only P s.mem (initFirst s).mem := by
  have hring' := h.firstBlock_ring hring
  have hnext : (firstBlock s).nextFree (firstBlock s).freeHeader = s.freeHeader := hring'.ring.1
  have hfirst : Only P s.mem (firstBlock s).mem := ((initItem_only hstart).trans
    (hstart.word 8)).trans (hstart.word 12)
  rw [h.initFirst_eq, FreeRing.insertFree_eq (s := firstBlock s) h.freeList h.sep, hnext]
  exact (((hfirst.trans (hstart.word 16)).trans (hstart.word 20)).trans (hheader.word 20)).trans
    (hheader.word 16)

theorem rtMemheapInit_only {memheap startAddr : Nat} (m : ByteMem) (hroom : 48 ≤ size)
    (hfits : startAddr + size ≤ 2 ^ 32) (hheader : memheap + 68 ≤ 2 ^ 32)
    (hapart : memheap + 68 ≤ startAddr ∨ startAddr + size ≤ memheap + 44) :
    Only (rtMemheapInit m memheap startAddr size).region m
      (rtMemheapInit m memheap startAddr size).mem := by
  obtain ⟨s, hfresh, rfl, -, -, -, hring, heq⟩ := rtMemheapInit_eq m hroom hfits hheader hapart
  have hregion : (initTail (initFirst (initItem s s.freeHeader)) s.tail).region = s.region := rfl
  have hpool : ∀ o, s.startAddr ≤ o → o + 24 ≤ s.startAddr + s.poolSize → ItemIn s.region o :=
    fun o hlo hhi a ha ha' => .inl (by omega)
  have hhead : ItemIn s.region s.freeHeader := fun a hlo hhi => .inr ⟨hlo, hhi⟩
  have hroom1 := hfresh.room
  have htail : s.tail = s.startAddr + s.poolSize - 24 := rfl
  rw [heq, hregion]
  exact ((initItem_only hhead).trans (hfresh.initHeader.initFirst_only hring hhead
    (hpool s.startAddr (by omega) (by omega)))).trans
    (initTail_only (hpool s.tail (by omega) (by omega)))

namespace Heaps

theorem heapAt_put_self (σ : Heaps) (s : Heap) : (σ.put s).heapAt s.memheap = s := by
  simp only [heapAt, put, Function.update_self]

theorem heapAt_put_of_ne (h : k ≠ s.memheap) :
    (σ.put s).heapAt k = { σ.heapAt k with mem := s.mem } := by
  simp only [heapAt, put, Function.update_of_ne h]

variable {f : Heap → Option (Nat × Heap)}

theorem on_eq (h : f (σ.heapAt k) = some (q, s)) : σ.on k f = some (q, σ.put s) := by
  rw [on, h]
  rfl

theorem on_unchanged (h : f (σ.heapAt k) = some (q, σ.heapAt k)) : σ.on k f = some (q, σ) := by
  simp only [on_eq h, put, heapAt, Function.update_eq_self]

/-- All heaps are sound, and their regions are apart. -/
structure Sound (σ : Heaps) : Prop where
  system : σ.heap ∈ σ.objectList
  sound : ∀ k ∈ σ.objectList, (σ.heapAt k).Sound
  apart : ∀ j ∈ σ.objectList, ∀ k ∈ σ.objectList, j ≠ k →
    ∀ a ∈ (σ.heapAt j).region, a ∉ (σ.heapAt k).region

def arena (σ : Heaps) : Arena :=
  .all σ.mem {k | k ∈ σ.objectList} fun k => (σ.heapAt k).arena

/-- What is handed out: address and length. -/
def live (σ : Heaps) : Set (Nat × Nat) := σ.arena.used

/-- A call leaves sound heaps, of which it has taken back and handed out some areas. -/
structure Changes (σ : Heaps) (gone : Set Nat) (new : Set (Nat × Nat)) (σ' : Heaps) : Prop where
  sound : σ'.Sound
  change : σ.arena.Change gone new σ'.arena

theorem Changes.live (h : Changes σ gone new σ') : σ'.live = {b ∈ σ.live | b.1 ∉ gone} ∪ new :=
  h.change.used

theorem Sound.put (h : σ.Sound) (hk : k ∈ σ.objectList)
    (hc : Memheap.Changes (fun _ => True) (σ.heapAt k) gone new s')
    (hgone : gone ⊆ (σ.heapAt k).region) :
    Changes σ gone new (σ.put s') := by
  have hk' : s'.memheap = k := hc.frame.memheap
  have hself : (σ.put s').heapAt k = s' := hk' ▸ σ.heapAt_put_self s'
  have hother : ∀ j, j ≠ k → (σ.put s').heapAt j = { σ.heapAt j with mem := s'.mem } :=
    fun j hj => heapAt_put_of_ne (hk'.symm ▸ hj)
  have hregion : ∀ j, ((σ.put s').heapAt j).region = (σ.heapAt j).region := by
    intro j
    by_cases hj : j = k
    · rw [hj, hself]
      exact hc.change.owns
    · rw [hother j hj]
      rfl
  have hframe : ∀ j ∈ σ.objectList, j ≠ k → ((σ.put s').heapAt j).Sound ∧
      ((σ.put s').heapAt j).usedAreas = (σ.heapAt j).usedAreas := by
    intro j hj hjk
    rw [hother j hjk]
    refine (h.sound j hj).congr fun a ha => hc.change.outside ?_
    exact h.apart j hj k hk hjk _ ha
  refine ⟨⟨h.system, fun j hj => ?_, fun i hi j hj hij => ?_⟩, ?_⟩
  · by_cases hjk : j = k
    · rw [hjk, hself]
      exact hc.sound
    · exact (hframe j hj hjk).1
  · rw [hregion, hregion]
    exact h.apart i hi j hj hij
  · have hchange : (σ.heapAt k).arena.Change gone new ((σ.put s').heapAt k).arena := by
      rw [hself]
      exact hc.change
    exact Arena.Change.all (F := fun j => (σ.heapAt j).arena)
      (G := fun j => ((σ.put s').heapAt j).arena) hchange hk hgone
      (fun j hj hjk => ⟨hregion j, (hframe j hj hjk).2⟩) fun j hj hjk => h.apart j hj k hk hjk

theorem Sound.write (h : σ.Sound) (hp : (p, n) ∈ σ.live) (hm : Within p n σ.mem m) :
    ({ σ with mem := m } : Heaps).Sound ∧ ({ σ with mem := m } : Heaps).live = σ.live := by
  obtain ⟨k, hk, hp⟩ := hp
  have heach : ∀ j ∈ σ.objectList, ({ σ.heapAt j with mem := m } : Heap).Sound ∧
      ({ σ.heapAt j with mem := m } : Heap).usedAreas = (σ.heapAt j).usedAreas := by
    intro j hj
    by_cases hjk : j = k
    · rw [hjk]
      exact (h.sound k hk).write hp hm
    · refine (h.sound j hj).congr fun a ha => hm a ?_
      by_contra hin
      obtain ⟨i, rfl⟩ := Nat.exists_eq_add_of_le (show p ≤ a by omega)
      exact h.apart j hj k hk hjk _ ha (((σ.heapAt k).usedAreas_within _ hp).2 i (by omega))
  refine ⟨⟨h.system, fun j hj => (heach j hj).1, h.apart⟩, ?_⟩
  ext b
  exact exists_congr fun j => and_congr_right fun hj => Set.ext_iff.mp (heach j hj).2 b

theorem Changes.store (h : Changes σ gone new σ') (hp : (p, n) ∈ new)
    (hm : Within p n σ'.mem m) : Changes σ gone new { σ' with mem := m } := by
  obtain ⟨hsound, hlive⟩ := h.sound.write (h.live ▸ .inr hp) hm
  have hstored := h.change.store hp hm
  exact ⟨hsound, hstored.owns, hlive.trans hstored.used, hstored.fresh, hstored.writes⟩

/-- A request is granted: an area of the rounded size is handed out. -/
def Granted (σ : Heaps) (size : Nat) (ret : Option (Nat × Heaps)) : Prop :=
  ∃ q n σ', ret = some (q, σ') ∧ q ≠ rtNull ∧ roundSize size ≤ n ∧ Changes σ ∅ {(q, n)} σ'

section
variable (h : σ.Sound)
include h

theorem Sound.on_alloc (hk : k ∈ σ.objectList) (size : Nat) :
    (¬ (σ.heapAt k).CanAlloc (roundSize size) ∧ σ.on k (rtMemheapAlloc · size) = some (rtNull, σ)) ∨
    ((σ.heapAt k).CanAlloc (roundSize size) ∧ Granted σ size (σ.on k (rtMemheapAlloc · size))) := by
  rcases rtMemheapAlloc_changes (h.sound k hk) size fun _ => id with ⟨hno, hnull⟩ | ⟨hcan, q, n, s',
    hret, hq, hn, -, hc⟩
  · exact .inl ⟨hno, on_unchanged hnull⟩
  · exact .inr ⟨hcan, q, n, σ.put s', on_eq hret, hq, hn, h.put hk hc (Set.empty_subset _)⟩

theorem Sound.mallocLoop_granted (size : Nat) {nodes : List Nat} (hnodes : nodes ⊆ σ.objectList) :
    ((∀ k ∈ nodes, k ≠ σ.heap → ¬ (σ.heapAt k).CanAlloc (roundSize size)) ∧
      mallocLoop σ size nodes = some (rtNull, σ)) ∨
    ((∃ k ∈ nodes, (σ.heapAt k).CanAlloc (roundSize size)) ∧
      Granted σ size (mallocLoop σ size nodes)) := by
  induction nodes with
  | nil => exact .inl ⟨fun k hk => absurd hk not_mem_nil, rfl⟩
  | cons heap nodes ih =>
    obtain ⟨hheap, hnodes⟩ := cons_subset.mp hnodes
    rw [mallocLoop]
    by_cases hsys : heap = σ.heap
    · rw [if_pos hsys]
      refine (ih hnodes).imp ?_ ?_
      · rintro ⟨hno, hnull⟩
        exact ⟨forall_mem_cons.mpr ⟨fun hne => absurd hsys hne, hno⟩, hnull⟩
      · rintro ⟨⟨k, hk, hcan⟩, hret⟩
        exact ⟨⟨k, mem_cons_of_mem _ hk, hcan⟩, hret⟩
    · rw [if_neg hsys]
      rcases h.on_alloc hheap size with ⟨hno, hnull⟩ | ⟨hcan, q, n, σ', hret, hq, hn, hc⟩
      · rw [hnull]
        refine (ih hnodes).imp ?_ ?_
        · rintro ⟨hrest, hnull⟩
          exact ⟨forall_mem_cons.mpr ⟨fun _ => hno, hrest⟩, hnull⟩
        · rintro ⟨⟨k, hk, hcan⟩, hret⟩
          exact ⟨⟨k, mem_cons_of_mem _ hk, hcan⟩, hret⟩
      · refine .inr ⟨⟨heap, mem_cons_self, hcan⟩, q, n, σ', ?_, hq, hn, hc⟩
        rw [hret]
        exact if_pos hq

theorem Sound.rtMalloc_granted (size : Nat) :
    ((∀ k ∈ σ.objectList, ¬ (σ.heapAt k).CanAlloc (roundSize size)) ∧
      rtMalloc σ size = some (rtNull, σ)) ∨
    ((∃ k ∈ σ.objectList, (σ.heapAt k).CanAlloc (roundSize size)) ∧
      Granted σ size (rtMalloc σ size)) := by
  unfold rtMalloc
  rcases h.on_alloc h.system size with ⟨hno, hnull⟩ | ⟨hcan, q, n, σ', hret, hq, hn, hc⟩
  · rw [hnull]
    refine (h.mallocLoop_granted size (List.Subset.refl _)).imp ?_ ?_
    · rintro ⟨hrest, hret⟩
      refine ⟨fun k hk => ?_, hret⟩
      by_cases hsys : k = σ.heap
      · rwa [hsys]
      · exact hrest k hk hsys
    · rintro ⟨hcan, hret⟩
      exact ⟨hcan, hret⟩
  · refine .inr ⟨⟨σ.heap, h.system, hcan⟩, q, n, σ', ?_, hq, hn, hc⟩
    rw [hret]
    exact if_neg hq

theorem Sound.rtRealloc_eq (hk : k ∈ σ.objectList) (hp : (p, n) ∈ (σ.heapAt k).usedAreas)
    (hret : rtMemheapRealloc (σ.heapAt k) p newsize = some (q, s'))
    (hanswer : ¬ (q = rtNull ∧ newsize ≠ 0)) : rtRealloc σ p newsize = some (q, σ.put s') := by
  obtain ⟨hpool, -, hne⟩ := (h.sound k hk).poolPtr_eq hp
  have hpool' : σ.poolPtr (p - rtMemheapSize) = k := hpool
  rw [rtRealloc, if_neg hne]
  dsimp only
  rw [hpool', on_eq hret]
  exact if_neg hanswer

theorem Sound.rtRealloc_own (hk : k ∈ σ.objectList)
    (hp : (p, n) ∈ (σ.heapAt k).usedAreas) (hpos : 0 < newsize) (hlt : newsize < 2 ^ 31)
    (hcan : (σ.heapAt k).CanRealloc p n (roundSize newsize)) :
    ∃ q n' σ', rtRealloc σ p newsize = some (q, σ') ∧ q ≠ rtNull ∧ newsize ≤ n' ∧
      Changes σ {p} {(q, n')} σ' ∧ ∀ i < min n newsize, σ'.mem (q + i) = σ.mem (p + i) := by
  have hround : roundSize newsize + 12 < 2 ^ 32 := roundSize_add_lt hlt
  have hle : newsize ≤ roundSize newsize := le_roundSize (by omega)
  rcases rtMemheapRealloc_moves (h.sound k hk) hp hpos.ne' hround (fun _ => id) fun _ => id with
    ⟨hno, -⟩ | ⟨-, q, s', hret, hq, n', hn', hc, hcontents⟩
  · exact absurd hcan hno
  · exact ⟨q, n', σ.put s', h.rtRealloc_eq hk hp hret fun hfail => hq hfail.1, hq, by omega,
      h.put hk hc (Set.singleton_subset_iff.mpr ((σ.heapAt k).usedAreas_within _ hp).1),
      fun i hi => hcontents i (by omega)⟩

/-- The heap of a block cannot serve a request for it: a block of another heap is handed out, and
the contents are copied there. The old block is not released. -/
theorem Sound.rtRealloc_other (hk : k ∈ σ.objectList)
    (hp : (p, n) ∈ (σ.heapAt k).usedAreas) (hpos : 0 < newsize) (hlt : newsize < 2 ^ 31)
    (hno : ¬ (σ.heapAt k).CanRealloc p n (roundSize newsize)) :
    ((∀ j ∈ σ.objectList, ¬ (σ.heapAt j).CanAlloc (roundSize newsize)) ∧
      rtRealloc σ p newsize = some (rtNull, σ)) ∨
    ((∃ j ∈ σ.objectList, (σ.heapAt j).CanAlloc (roundSize newsize)) ∧
      ∃ q n' σ', rtRealloc σ p newsize = some (q, σ') ∧ q ≠ rtNull ∧ newsize ≤ n' ∧
        Changes σ ∅ {(q, n')} σ' ∧ ∀ i < min n newsize, σ'.mem (q + i) = σ.mem (p + i)) := by
  have hround : roundSize newsize + 12 < 2 ^ 32 := roundSize_add_lt hlt
  have hle : newsize ≤ roundSize newsize := le_roundSize (by omega)
  obtain ⟨hpool, -, hne⟩ := (h.sound k hk).poolPtr_eq hp
  have hpool' : σ.poolPtr (p - rtMemheapSize) = k := hpool
  have hfail : σ.on k (rtMemheapRealloc · p newsize) = some (rtNull, σ) := by
    rcases rtMemheapRealloc_moves (h.sound k hk) hp hpos.ne' hround (fun _ => id) fun _ => id with
      ⟨-, hnull⟩ | ⟨hcan, -⟩
    · exact on_unchanged hnull
    · exact absurd hcan hno
  have hret : rtRealloc σ p newsize = σ.reallocOther p newsize := by
    rw [rtRealloc, if_neg hne]
    dsimp only
    rw [hpool', hfail]
    exact if_pos ⟨rfl, hpos.ne'⟩
  rw [hret, reallocOther]
  rcases h.rtMalloc_granted newsize with ⟨hnone, hnull⟩ | ⟨hsome, q, n', σ', hgranted, hq, hn', hc⟩
  · refine .inl ⟨hnone, ?_⟩
    rw [hnull]
    rfl
  · refine .inr ⟨hsome, q, n', ?_⟩
    -- the old block is where it was
    have hstays : (p, n) ∈ σ'.live := hc.live ▸ .inl ⟨⟨k, hk, hp⟩, Set.notMem_empty p⟩
    obtain ⟨j, hj, hstays⟩ := hstays
    obtain ⟨hpool1, hsize1, -⟩ := (hc.sound.sound j hj).poolPtr_eq hstays
    have hpool1' : σ'.poolPtr (p - rtMemheapSize) = j := hpool1
    have hstored := hc.store (m := σ'.mem.copy q p (if n < newsize then n else newsize))
      (Set.mem_singleton _) fun a ha => by
        rw [ByteMem.copy, if_neg (by split <;> omega)]
    refine ⟨_, ?_, hq, by omega, hstored, fun i hi => ?_⟩
    · rw [hgranted]
      simp only [Option.bind_eq_bind, Option.bind_some]
      rw [if_pos hq, hpool1', hsize1]
      rfl
    · calc σ'.mem.copy q p (if n < newsize then n else newsize) (q + i)
          = σ'.mem (p + i) := by
            rw [ByteMem.copy, if_pos (by split <;> omega), Nat.add_sub_cancel_left]
        _ = σ.mem (p + i) := hc.change.keeps ⟨k, hk, hp⟩ (Set.notMem_empty p) (by omega)

end
end Heaps
end RtThread.Memheap
