import RtThread.Slab.Pages
import RtThread.Lib.Run

/-!
# Programs on the page allocator

A program allocates runs of pages, gives them back in any order, and stores into those it holds. At
every point the free pages are in the list as maximal runs in the order of their addresses, and the
free pages and the pages of the program are those of the region.
-/

namespace RtThread.Slab
open Extent
open List

/-- The pages that `rt_page_init` is called for: some pages, not the one at `RT_NULL` and not the
last one of the address space. -/
structure PageRegion extends Extent where
  pos : 0 < len
  inside : Inside toExtent

/-- The allocator and the runs that the program holds. -/
structure PageSys where
  heap : PageHeap
  live : List Extent

inductive PageCall
  /-- `rt_page_alloc(npages)` -/
  | alloc (npages : BitVec 32)
  /-- `rt_page_free` of a run -/
  | free (e : Extent)
  /-- a store of one byte -/
  | store (a : Nat) (v : BitVec 8)

namespace PageSys

def Legal (s : PageSys) : PageCall → Prop
  | .alloc npages => 1 ≤ npages.toNat
  | .free e => e ∈ s.live
  | .store a _ => ∃ e ∈ s.live, e.start ≤ a / rtMmPageSize ∧ a / rtMmPageSize < e.stop

/-- The effect of a call and what it returns, `none` if it does not. -/
def call (s : PageSys) : PageCall → Option Nat × PageSys
  | .alloc npages =>
    match rtPageAlloc s.heap npages.toNat with
    | none => (none, s)
    | some (b, heap) =>
      (some b, ⟨heap, if b = 0 then s.live else ⟨b / rtMmPageSize, npages.toNat⟩ :: s.live⟩)
  | .free e =>
    match rtPageFree s.heap (addr e) e.len with
    | none => (none, s)
    | some heap => (some 0, ⟨heap, s.live.erase e⟩)
  | .store a v => (some 0, ⟨{ s.heap with mem := Function.update s.heap.mem a v }, s.live⟩)

def machine : Machine PageSys PageCall (Option Nat) := ⟨Legal, call⟩

instance (s : PageSys) (c : PageCall) : Decidable (machine.Enabled s c) :=
  match c with
  | .alloc _ => inferInstanceAs (Decidable (_ ≤ _))
  | .free _ => inferInstanceAs (Decidable (_ ∈ _))
  | .store .. => inferInstanceAs (Decidable (∃ _ ∈ _, _))

end PageSys

/-- The list spells the runs `es`, which are not empty, in order and do not touch; no page is in two
runs, of the list or of the program, and together they have the pages of the region. -/
structure PagesOk (r : PageRegion) (s : PageSys) (es : List Extent) : Prop where
  runs : RunsAt s.heap.mem s.heap.pageList es 0
  separated : Separated es
  apart : (es ++ s.live).Pairwise Extent.Apart
  pages : (allUnits (es ++ s.live)).Perm r.units

namespace PageSys
variable {r : PageRegion} {s : PageSys} {es : List Extent} {e : Extent}

/-- What holds between two calls. -/
structure Inv (r : PageRegion) (s : PageSys) (es : List Extent) : Prop where
  holds : Holds s.heap es
  pos : ∀ e ∈ s.live, 0 < e.len
  pages : (allUnits (es ++ s.live)).Perm r.units

theorem units_inside (r : PageRegion) {u : Nat} (hu : u ∈ r.units) : 0 < u ∧ u + 1 < 2 ^ 20 := by
  have := r.inside.1
  have := r.inside.2
  rw [mem_units] at hu
  omega

namespace Inv

theorem apart (h : Inv r s es) : (es ++ s.live).Pairwise Extent.Apart := by
  refine pairwise_apart (forall_mem_append.mpr ⟨h.holds.separated.pos, h.pos⟩) ?_
  exact h.pages.nodup_iff.mpr (nodup_range')

section
variable (h : Inv r s es) (he : e ∈ s.live)
include h he

theorem inside : Inside e := by
  refine inside_of_units (h.pos e he) fun u hu => units_inside r (h.pages.mem_iff.mp ?_)
  exact mem_flatMap.mpr ⟨e, mem_append_right _ he, hu⟩

theorem in_region : r.start ≤ e.start ∧ e.stop ≤ r.stop := by
  have hpos := h.pos e he
  have hunit : ∀ u ∈ e.units, u ∈ r.units := fun u hu =>
    h.pages.mem_iff.mp (mem_flatMap.mpr ⟨e, mem_append_right _ he, hu⟩)
  have hfirst := hunit e.start (mem_units.mpr ⟨le_rfl, by rw [stop]; omega⟩)
  have hlast := hunit (e.start + (e.len - 1)) (mem_units.mpr ⟨by omega, by rw [stop]; omega⟩)
  rw [mem_units] at hfirst hlast
  have hstop : e.stop = e.start + e.len := rfl
  omega

theorem apart_of_mem {f : Extent} (hf : f ∈ es) : e.Apart f :=
  ((pairwise_append.mp h.apart).2.2 f hf e he).symm

end

variable {heap : PageHeap} {live : List Extent}

theorem perm {live' : List Extent} (h : Inv r ⟨heap, live⟩ es)
    (hperm : live.Perm live') : Inv r ⟨heap, live'⟩ es where
  holds := h.holds
  pos e he := h.pos e (hperm.mem_iff.mpr he)
  pages := by
    have hunits : (allUnits (es ++ live)).Perm (allUnits (es ++ live')) :=
      (hperm.append_left es).flatMap_right _
    exact hunits.symm.trans h.pages

theorem change (h : Inv r s es) {m : ByteMem} (hm : OnlyIn (allUnits s.live) s.heap.mem m) :
    Inv r ⟨{ s.heap with mem := m }, s.live⟩ es := by
  refine ⟨⟨h.holds.runs.congr fun f hf => ?_, h.holds.separated, h.holds.inside⟩, h.pos, h.pages⟩
  intro x hlo hhi
  refine hm x fun hmem => ?_
  obtain ⟨e, he, hle, hlt⟩ := mem_allUnits.mp hmem
  have hapart := h.apart_of_mem he hf
  have hpos := h.holds.separated.pos f hf
  rw [addr_eq] at hlo hhi
  rw [rtMmPageSize] at hle hlt
  simp only [Extent.Apart, stop] at hapart hlt
  omega

theorem pageAlloc (h : Inv r ⟨heap, live⟩ es) {npages : Nat} (hn : 0 < npages) :
    (allocate npages es = none ∧ rtPageAlloc heap npages = some (0, heap)) ∨
      ∃ e heap' es', rtPageAlloc heap npages = some (addr e, heap') ∧ e.len = npages ∧
        OnlyIn (allUnits es) heap.mem heap'.mem ∧ Inv r ⟨heap', e :: live⟩ es' := by
  have hspec := rtPageAlloc_spec h.holds hn
  cases hres : allocate npages es with
  | none =>
    rw [hres] at hspec
    exact .inl ⟨rfl, hspec⟩
  | some result =>
    obtain ⟨e, es'⟩ := result
    rw [hres] at hspec
    obtain ⟨heap', heq, hholds, honly⟩ := hspec
    have hunits := allocate_units hres
    have hlen := allocate_len hres
    refine .inr ⟨e, heap', es', heq, hlen, honly, hholds, forall_mem_cons.mpr ⟨by omega, h.pos⟩, ?_⟩
    have hpages := h.pages
    rw [allUnits_append] at hpages ⊢
    rw [allUnits_cons]
    refine List.Perm.trans ?_ hpages
    rw [← append_assoc]
    exact (perm_append_comm.trans hunits).append_right _

theorem pageFree (h : Inv r ⟨heap, e :: live⟩ es) :
    ∃ heap', rtPageFree heap (addr e) e.len = some heap' ∧
      OnlyIn (allUnits (e :: es)) heap.mem heap'.mem ∧
      Inv r ⟨heap', live⟩ (release e es) := by
  have he : e ∈ (PageSys.mk heap (e :: live)).live := mem_cons_self
  obtain ⟨heap', heq, hholds, honly⟩ :=
    rtPageFree_spec h.holds (h.inside he) (h.pos e he) fun f hf =>
    h.apart_of_mem he hf
  refine ⟨heap', heq, honly, hholds, fun f hf => h.pos f (mem_cons_of_mem e hf), ?_⟩
  have hpages := h.pages
  rw [allUnits_append] at hpages ⊢
  refine List.Perm.trans ?_ hpages
  refine (release_units.append_right _).trans ?_
  rw [append_assoc]
  exact perm_append_comm_assoc ..

theorem alloc (h : Inv r s es) {npages : BitVec 32} (hn : 1 ≤ npages.toNat) :
    (s.call (.alloc npages)).1 ≠ none ∧ ∃ es', Inv r (s.call (.alloc npages)).2 es' := by
  rw [call]
  rcases h.pageAlloc hn with ⟨-, heq⟩ | ⟨e, heap, es', heq, hlen, -, hinv⟩
  · rw [heq]
    exact ⟨by simp, es, h⟩
  · have hstart : addr e / rtMmPageSize = e.start := by
      rw [addr_eq, rtMmPageSize]
      omega
    have hrun : (⟨addr e / rtMmPageSize, npages.toNat⟩ : Extent) = e :=
      Extent.ext hstart hlen.symm
    rw [heq]
    dsimp only
    rw [if_neg (addr_ne_zero (hinv.inside mem_cons_self)), hrun]
    exact ⟨by simp, es', hinv⟩

theorem free (h : Inv r s es) (he : e ∈ s.live) :
    (s.call (.free e)).1 ≠ none ∧ ∃ es', Inv r (s.call (.free e)).2 es' := by
  obtain ⟨heap, heq, -, hinv⟩ := (h.perm (perm_cons_erase he)).pageFree
  rw [call, heq]
  exact ⟨by simp, _, hinv⟩

theorem store (h : Inv r s es) (he : e ∈ s.live) {a : Nat} (hlo : e.start ≤ a / rtMmPageSize)
    (hhi : a / rtMmPageSize < e.stop) (v : BitVec 8) : Inv r (s.call (.store a v)).2 es := by
  refine h.change fun x hx => Function.update_of_ne ?_ _ _
  rintro rfl
  exact hx (mem_allUnits.mpr ⟨e, he, hlo, hhi⟩)

theorem call (h : Inv r s es) {c : PageCall} (hlegal : s.Legal c) :
    (s.call c).1 ≠ none ∧ ∃ es', Inv r (s.call c).2 es' := by
  cases c with
  | alloc npages => exact h.alloc hlegal
  | free e => exact h.free hlegal
  | store a v =>
    obtain ⟨e, he, hlo, hhi⟩ := hlegal
    exact ⟨Option.some_ne_none _, es, h.store he hlo hhi v⟩

end Inv

theorem rtPageInit_spec (r : PageRegion) (m : ByteMem) :
    ∃ heap, rtPageInit m (addr r.toExtent) r.len = some heap ∧ Inv r ⟨heap, []⟩ [r.toExtent] := by
  have hempty : Holds ⟨m, 0⟩ [] := ⟨RunsAt.nil, ⟨by simp, List.Pairwise.nil⟩, by simp⟩
  obtain ⟨heap, heq, hholds, -⟩ := rtPageFree_spec hempty r.inside r.pos (by simp)
  exact ⟨heap, heq, hholds, by simp, by simp⟩

/-- After `rt_page_init` every call of a program returns, and at every point the list has the pages
that the program does not hold, as maximal runs in order. -/
theorem pagesOk_of_run (r : PageRegion) (m : ByteMem) :
    ∃ heap, rtPageInit m (addr r.toExtent) r.len = some heap ∧
      ∀ (tr : List (PageCall × Option Nat)) (s : PageSys), Run machine.Step ⟨heap, []⟩ tr s →
        (∀ e ∈ tr, e.2 ≠ none) ∧ ∃ es, PagesOk r s es := by
  obtain ⟨heap, heq, hinit⟩ := rtPageInit_spec r m
  refine ⟨heap, heq, fun tr s hrun => ?_⟩
  have hinv : (∀ e ∈ tr, e.2 ≠ none) ∧ ∃ es, Inv r s es := by
    refine hrun.invariant
      ⟨by simp, _, hinit⟩ ?_
    intro tr s e s' ⟨hreturns, es, h⟩ ⟨hlegal, hcall⟩
    obtain ⟨hreturn, hnext⟩ := h.call hlegal
    have hcall' : s.call e.1 = (e.2, s') := hcall
    rw [hcall'] at hreturn hnext
    exact ⟨forall_mem_append.mpr ⟨hreturns, by simpa using hreturn⟩, hnext⟩
  obtain ⟨hreturns, es, h⟩ := hinv
  exact ⟨hreturns, es, h.holds.runs, h.holds.separated, h.apart, h.pages⟩

/-- After any run, `rt_page_alloc` finds pages if and only if the region has as many pages in a row
that the program does not hold. -/
theorem page_alloc_complete (r : PageRegion) (m : ByteMem) :
    ∃ heap, rtPageInit m (addr r.toExtent) r.len = some heap ∧
      ∀ (tr : List (PageCall × Option Nat)) (s : PageSys), Run machine.Step ⟨heap, []⟩ tr s →
        ∀ npages : BitVec 32, 1 ≤ npages.toNat → ∃ q, (s.call (.alloc npages)).1 = some q ∧
          (q ≠ 0 ↔ ∃ p, ∀ i < npages.toNat, p + i ∈ r.units ∧ p + i ∉ allUnits s.live) := by
  obtain ⟨heap, heq, hinit⟩ := rtPageInit_spec r m
  refine ⟨heap, heq, fun tr s hrun npages hn => ?_⟩
  have hinv : ∃ es, Inv r s es := by
    refine hrun.state_invariant ⟨_, hinit⟩ ?_
    rintro s e s' ⟨es, h⟩ ⟨hlegal, hcall⟩
    have hcall' : s.call e.1 = (e.2, s') := hcall
    have hnext := (h.call hlegal).2
    rwa [hcall'] at hnext
  obtain ⟨es, h⟩ := hinv
  rcases h.pageAlloc hn with ⟨hnone, hnull⟩ | ⟨e, heap', es', hret, hlen, -, hnext⟩
  · refine ⟨0, by rw [call, hnull], iff_of_false (not_not.mpr rfl) ?_⟩
    rintro ⟨p, hp⟩
    obtain ⟨f, hf, hle⟩ := h.holds.separated.exists_le_len hn fun i hi => by
      have hmem := h.pages.mem_iff.mpr (hp i hi).1
      rw [allUnits_append, mem_append] at hmem
      exact hmem.resolve_right (hp i hi).2
    exact absurd (allocate_eq_none_iff.mp hnone f hf) (Nat.not_lt.mpr hle)
  · refine ⟨addr e, by rw [call, hret], iff_of_true (addr_ne_zero (hnext.inside mem_cons_self))
      ⟨e.start, fun i hi => ?_⟩⟩
    have hunit : e.start + i ∈ e.units := mem_units.mpr ⟨Nat.le_add_right _ _, by rw [stop]; omega⟩
    refine ⟨hnext.pages.mem_iff.mp (by simp [hunit]), fun hmem => ?_⟩
    have hnodup := hnext.pages.nodup_iff.mpr nodup_range'
    rw [allUnits_append, allUnits_cons] at hnodup
    exact (nodup_append.mp (nodup_append.mp hnodup).2.1).2.2 _ hunit _ hmem rfl

/-- Eight pages, from the third one of the address space on. -/
def eightPages : PageRegion where
  start := 2
  len := 8
  pos := by decide
  inside := by decide

/-- The allocator after `rt_page_init` of the eight pages, in memory that was zero. -/
def eightPagesHeap : PageHeap := linkPages ⟨fun _ => 0, 0⟩ 8192 8 none 0

theorem rtPageInit_eightPages :
    rtPageInit (fun _ => 0) (addr eightPages.toExtent) eightPages.len = some eightPagesHeap := by
  rw [addr_eq]
  rfl

/-- Three runs are taken; the middle one is given back last and joins the two others. -/
theorem pagesOk_of_run_joined :
    ∃ tr s,
      rtPageInit (fun _ => 0) (addr eightPages.toExtent) eightPages.len = some eightPagesHeap ∧
      Run machine.Step ⟨eightPagesHeap, []⟩ tr s ∧
      tr.map Prod.snd = [some 8192, some 16384, some 20480, some 0, some 0, some 0, some 8192] ∧
      ∃ es, PagesOk eightPages s es := by
  obtain ⟨heap, hheap, hruns⟩ := pagesOk_of_run eightPages fun _ => 0
  cases rtPageInit_eightPages.symm.trans hheap
  have hrun := machine.run_steps ⟨eightPagesHeap, []⟩
    [.alloc 2, .alloc 1, .alloc 3, .free ⟨2, 2⟩, .free ⟨5, 3⟩, .free ⟨4, 1⟩, .alloc 8]
  exact ⟨_, _, hheap, hrun, by decide +kernel, (hruns _ _ hrun).2⟩

/-- With the middle one of three runs given back, there are no four pages in a row for a call. -/
theorem page_alloc_complete_apart :
    ∃ tr s, Run machine.Step ⟨eightPagesHeap, []⟩ tr s ∧ tr.length = 4 ∧
      (s.call (.alloc 4)).1 = some 0 ∧
      ¬ ∃ p, ∀ i < 4, p + i ∈ eightPages.units ∧ p + i ∉ allUnits s.live := by
  obtain ⟨heap, hheap, hruns⟩ := page_alloc_complete eightPages fun _ => 0
  cases rtPageInit_eightPages.symm.trans hheap
  have hrun := machine.run_steps ⟨eightPagesHeap, []⟩ [.alloc 2, .alloc 3, .alloc 2, .free ⟨4, 3⟩]
  obtain ⟨q, hcall, hiff⟩ := hruns _ _ hrun 4 (by decide)
  have hnull : q = 0 := Option.some.inj (hcall.symm.trans (by decide +kernel))
  exact ⟨_, _, hrun, by decide +kernel, hnull ▸ hcall, fun h => hiff.mpr h hnull⟩

end PageSys
end RtThread.Slab
