import RtThread.Basic
import RtThread.Lib.Extents
import RtThread.Lib.PointerList
import Mathlib.Data.List.Perm.Subperm

/-!
# The page allocator

`rt_page_alloc`, `rt_page_free` and `rt_page_init` of `slab.c`. The free pages are kept as a list of
runs in the order of their addresses; the head of a run, at its first page, holds the link and the
number of pages. Both functions search the list through a pointer to the link in front. A search
that does not end, on a damaged list, is `none`.

The list in memory is read as a list of extents of page numbers, and the two functions as
`Extent.allocate` and `Extent.release` on it.
-/

namespace RtThread.Slab
open List
open Nat
open ByteMem
open Extent

/-- `RT_MM_PAGE_SIZE` (`rtdef.h:230`), which is also the size of a `struct rt_page_head`. -/
def rtMmPageSize : Nat := 4096

/-- The memory and `rt_page_list`. -/
structure PageHeap where
  mem : ByteMem
  pageList : Nat

/-- A search that has not ended after this many rounds has been at some page head twice, and does
not end. -/
def searchBound : Nat := 2 ^ 32

namespace PageHeap

def next (s : PageHeap) (b : Nat) : Nat := s.mem.readLE 4 b
def page (s : PageHeap) (b : Nat) : Nat := s.mem.readLE 4 (b + 4)
def setNext (s : PageHeap) (b v : Nat) : PageHeap := { s with mem := s.mem.writeLE 4 b v }
def setPage (s : PageHeap) (b v : Nat) : PageHeap := { s with mem := s.mem.writeLE 4 (b + 4) v }

/-- `*prev`, where `prev` is `&rt_page_list` or `&b->next`. -/
def link (s : PageHeap) (prev : Option Nat) : Nat := s.mem.linkValue 0 s.pageList prev
/-- `*prev = v`. -/
def setLink (s : PageHeap) (prev : Option Nat) (v : Nat) : PageHeap :=
  ⟨(s.mem.linkStore 0 s.pageList prev v).1, (s.mem.linkStore 0 s.pageList prev v).2⟩

end PageHeap

open PageHeap

/-- `b + npages`, for pointers to page heads. -/
def addPages (b npages : Nat) : Nat := (b + npages * rtMmPageSize) % 2 ^ 32

/-- The first pages of the run `b` are taken off (`slab.c:261-264`). -/
def splitPages (s : PageHeap) (npages : Nat) (prev : Option Nat) (b : Nat) : PageHeap :=
  let n := addPages b npages
  let s := s.setNext n (s.next b)
  let s := s.setPage n (sub32 (s.page b) npages)
  s.setLink prev n

/-- The loop of `rt_page_alloc` (`:256-274`). -/
def pageAllocLoop (s : PageHeap) (npages : Nat) : Nat → Option Nat → Option (Nat × PageHeap)
  | 0, _ => none
  | fuel + 1, prev =>
    let b := s.link prev
    if b = 0 then some (0, s)
    else if npages < s.page b then some (b, splitPages s npages prev b)
    else if s.page b = npages then some (b, s.setLink prev (s.next b))
    else pageAllocLoop s npages fuel (some b)

/-- `rt_page_alloc` (`:246-280`). -/
def rtPageAlloc (s : PageHeap) (npages : Nat) : Option (Nat × PageHeap) :=
  if npages = 0 then some (0, s) else pageAllocLoop s npages searchBound none

/-- A run is linked in front of `b` (`:323-325`). -/
def linkPages (s : PageHeap) (n npages : Nat) (prev : Option Nat) (b : Nat) : PageHeap :=
  let s := s.setPage n npages
  let s := s.setNext n b
  s.setLink prev n

/-- A run is appended to the run `b` in front of it, and then the next one if it touches
(`:301-305`). -/
def appendPages (s : PageHeap) (npages b : Nat) : PageHeap :=
  let s := s.setPage b ((s.page b + npages) % 2 ^ 32)
  if addPages b (s.page b) = s.next b then
    let s := s.setPage b ((s.page b + s.page (s.next b)) % 2 ^ 32)
    s.setNext b (s.next (s.next b))
  else s

/-- A run takes the place of the run `b` behind it (`:312-314`). -/
def prependPages (s : PageHeap) (n npages : Nat) (prev : Option Nat) (b : Nat) : PageHeap :=
  let s := s.setPage n ((s.page b + npages) % 2 ^ 32)
  let s := s.setNext n (s.next b)
  s.setLink prev n

/-- The loop of `rt_page_free` (`:294-325`). -/
def pageFreeLoop (s : PageHeap) (n npages : Nat) : Nat → Option Nat → Option PageHeap
  | 0, _ => none
  | fuel + 1, prev =>
    let b := s.link prev
    if b = 0 then some (linkPages s n npages prev b)
    else if addPages b (s.page b) = n then some (appendPages s npages b)
    else if b = addPages n npages then some (prependPages s n npages prev b)
    else if addPages n npages < b then some (linkPages s n npages prev b)
    else pageFreeLoop s n npages fuel (some b)

/-- `rt_page_free` (`:282-332`). -/
def rtPageFree (s : PageHeap) (addr npages : Nat) : Option PageHeap :=
  pageFreeLoop s addr npages searchBound none

/-- `rt_page_init` (`:337-344`). -/
def rtPageInit (m : ByteMem) (addr npages : Nat) : Option PageHeap := rtPageFree ⟨m, 0⟩ addr npages

/-- The address of a run. -/
@[irreducible] def addr (e : Extent) : Nat := e.start * rtMmPageSize

/-- From the pointer `p` on come the heads of the runs, and then the pointer `q`. -/
structure RunsAt (m : ByteMem) (p : Nat) (es : List Extent) (q : Nat) : Prop where
  links : SegAt m 0 p (es.map addr) q
  pages : ∀ e ∈ es, m.readLE 4 (addr e + 4) = e.len

/-- The pages are behind the page at `RT_NULL` and in front of the last one of the address space. -/
def Inside (e : Extent) : Prop := 0 < e.start ∧ e.stop < 2 ^ 20

instance (e : Extent) : Decidable (Inside e) := instDecidableAnd

/-- The free pages are those of the extents: maximal runs, in order. -/
structure Holds (s : PageHeap) (es : List Extent) : Prop where
  runs : RunsAt s.mem s.pageList es 0
  separated : Separated es
  inside : ∀ u ∈ allUnits es, 0 < u ∧ u + 1 < 2 ^ 20

/-- Maximal runs, in order, and inside of the address space. -/
def Placed (es : List Extent) : Prop :=
  Separated es ∧ ∀ u ∈ allUnits es, 0 < u ∧ u + 1 < 2 ^ 20

/-- Only bytes in the pages are changed. -/
def OnlyIn (units : List Nat) (m m' : ByteMem) : Prop :=
  ∀ x, x / rtMmPageSize ∉ units → m' x = m x

variable {s : PageHeap} {m m' : ByteMem} {p q : Nat} {e f : Extent} {es es' fs : List Extent}

theorem addr_eq (e : Extent) : addr e = 4096 * e.start := by
  rw [addr, rtMmPageSize, mul_comm]

theorem addPages_eq {n : Nat} (h : e.start + n < 2 ^ 20) :
    addPages (addr e) n = 4096 * (e.start + n) := by
  have heq : addr e + n * rtMmPageSize = 4096 * (e.start + n) := by
    rw [addr_eq, rtMmPageSize]
    omega
  rw [addPages, heq, mod_eq_of_lt (by omega)]

theorem addr_ne_zero (h : Inside e) : addr e ≠ 0 := by
  have := h.1
  rw [addr_eq]
  omega

theorem addr_lt (h : Inside e) : addr e < 2 ^ 32 := by
  have := h.2
  rw [stop] at this
  rw [addr_eq]
  omega

namespace RunsAt

theorem nil : RunsAt m p [] p := ⟨rfl, by simp⟩

theorem cons_iff : RunsAt m p (e :: es) q ↔ p = addr e ∧ addr e ≠ 0 ∧
    m.readLE 4 (addr e + 4) = e.len ∧ RunsAt m (m.readLE 4 (addr e)) es q := by
  constructor
  · rintro ⟨⟨hp, hne, hlinks⟩, hpages⟩
    exact ⟨hp, hne, hpages e mem_cons_self, hlinks, fun f hf => hpages f (mem_cons_of_mem e hf)⟩
  · rintro ⟨hp, hne, hpage, hlinks, hpages⟩
    exact ⟨⟨hp, hne, hlinks⟩, forall_mem_cons.mpr ⟨hpage, hpages⟩⟩

theorem append_iff : RunsAt m p (es ++ fs) q ↔ ∃ r, RunsAt m p es r ∧ RunsAt m r fs q := by
  constructor
  · rintro ⟨hlinks, hpages⟩
    rw [map_append] at hlinks
    obtain ⟨r, hes, hfs⟩ := segAt_append.mp hlinks
    rw [forall_mem_append] at hpages
    exact ⟨r, ⟨hes, hpages.1⟩, hfs, hpages.2⟩
  · rintro ⟨r, ⟨hes, hpages⟩, hfs, hpages'⟩
    refine ⟨?_, forall_mem_append.mpr ⟨hpages, hpages'⟩⟩
    rw [map_append]
    exact segAt_append.mpr ⟨r, hes, hfs⟩

theorem congr (h : RunsAt m p es q) (heq : ∀ e ∈ es, AgreeOn m' m (addr e) 8) :
    RunsAt m' p es q where
  links := by
    refine h.links.congr fun a ha => ?_
    obtain ⟨e, he, rfl⟩ := mem_map.mp ha
    exact (heq e he).mono le_rfl (by omega)
  pages e he := by
    rw [readLE_congr ((heq e he).mono (by omega) (by omega)), h.pages e he]

end RunsAt

theorem inside_of_units (hpos : 0 < e.len) (hin : ∀ u ∈ e.units, 0 < u ∧ u + 1 < 2 ^ 20) :
    Inside e := by
  have hfirst := hin e.start (mem_units.mpr ⟨le_rfl, by rw [stop]; omega⟩)
  have hlast := hin (e.start + (e.len - 1)) (mem_units.mpr ⟨by omega, by rw [stop]; omega⟩)
  rw [Inside, stop]
  omega

theorem Holds.placed (h : Holds s es) : Placed es := ⟨h.separated, h.inside⟩

theorem Placed.inside (h : Placed es) (he : e ∈ es) : Inside e :=
  inside_of_units (h.1.pos e he) fun u hu => h.2 u (mem_flatMap.mpr ⟨e, he, hu⟩)

theorem start_mem (hsep : Separated es) (he : e ∈ es) : e.start ∈ allUnits es :=
  mem_allUnits.mpr ⟨e, he, le_rfl, Nat.lt_add_of_pos_right (hsep.pos e he)⟩

theorem start_lt (hsep : Separated (es ++ fs)) (he : e ∈ es) (hf : f ∈ fs) : e.stop < f.start :=
  (pairwise_append.mp hsep.sorted).2.2 e he f hf

namespace OnlyIn
variable {units units' : List Nat} {m'' : ByteMem}

theorem refl (units : List Nat) (m : ByteMem) : OnlyIn units m m := fun _ _ => rfl

theorem trans (h : OnlyIn units m m') (h' : OnlyIn units m' m'') : OnlyIn units m m'' :=
  fun x hx => (h' x hx).trans (h x hx)

theorem mono (h : OnlyIn units m m') (hsub : units ⊆ units') : OnlyIn units' m m' :=
  fun x hx => h x fun hmem => hx (hsub hmem)

theorem writeLE {a n v : Nat} (he : e.start ∈ units) (ha : addr e ≤ a := by omega)
    (hn : a + n ≤ addr e + 8 := by omega) : OnlyIn units m (m.writeLE n a v) := by
  intro x hx
  refine writeLE_apply_of_disjoint m n a v x ?_
  by_contra hmem
  have hpage : x / rtMmPageSize = e.start := by
    rw [rtMmPageSize]
    rw [addr_eq] at *
    omega
  exact hx (hpage ▸ he)

theorem setLink (hes : ∀ e ∈ es, e.start ∈ units) {s : PageHeap} {v : Nat} :
    OnlyIn units s.mem (s.setLink (es.map addr).getLast? v).mem := by
  rcases eq_nil_or_concat' es with rfl | ⟨fs, e, rfl⟩
  · exact refl _ _
  · rw [map_append, map_singleton, getLast?_concat]
    exact writeLE (hes e (by simp)) le_rfl (by omega)

end OnlyIn

/-- The runs behind the link are replaced by others, which are in memory already. -/
theorem holds_setLink {pre mid : List Extent} (hpre : RunsAt s.mem s.pageList pre q)
    (hmid : RunsAt s.mem p mid 0) (hall : Placed (pre ++ mid)) :
    Holds (s.setLink (pre.map addr).getLast? p) (pre ++ mid) := by
  have hp : p < 2 ^ 32 := by
    rcases hmid.links.eq_or_mem with rfl | hmem
    · decide
    · obtain ⟨e, he, rfl⟩ := mem_map.mp hmem
      exact addr_lt (hall.inside (mem_append_right _ he))
  have hsep : Separated pre := ⟨fun e he => hall.1.pos e (mem_append_left _ he),
    (pairwise_append.mp hall.1.sorted).1⟩
  refine ⟨RunsAt.append_iff.mpr ⟨p, ⟨?_, ?_⟩, ?_⟩, hall.1, hall.2⟩
  · refine hpre.links.linkStore hp (pairwise_map.mpr (hsep.sorted.imp fun {e f} hlt => .inl ?_))
    rw [stop] at hlt
    rw [addr_eq, addr_eq]
    omega
  · intro e he
    rw [← hpre.pages e he]
    refine readLE_congr (linkStore_agreeOn fun b hb => ?_)
    obtain ⟨f, -, rfl⟩ := mem_map.mp hb
    rw [addr_eq, addr_eq]
    omega
  · refine hmid.congr fun e he => linkStore_agreeOn fun b hb => .inr ?_
    obtain ⟨f, hf, rfl⟩ := mem_map.mp hb
    have := start_lt hall.1 hf he
    rw [stop] at this
    rw [addr_eq, addr_eq]
    omega

variable {pre rest : List Extent}

theorem Holds.at_link (h : Holds s (pre ++ rest)) :
    RunsAt s.mem s.pageList pre (s.link (pre.map addr).getLast?) ∧
      RunsAt s.mem (s.link (pre.map addr).getLast?) rest 0 := by
  obtain ⟨r, hpre, hrest⟩ := RunsAt.append_iff.mp h.runs
  have hlink : s.link (pre.map addr).getLast? = r := hpre.links.linkValue
  rw [hlink]
  exact ⟨hpre, hrest⟩

/-- A head with the link `p` is written at the run `e`, and nothing outside of its page. -/
structure NewHead (m m' : ByteMem) (e : Extent) (p : Nat) : Prop where
  next : m'.readLE 4 (addr e) = p
  page : m'.readLE 4 (addr e + 4) = e.len
  other : OnlyIn [e.start] m m'

namespace NewHead
variable {pre : List Extent} {a v : Nat}

theorem agreeOn (h : NewHead m m' e p) (hne : f.start ≠ e.start) : AgreeOn m' m (addr f) 8 := by
  intro x hlo hhi
  refine h.other x fun hmem => hne ?_
  rw [mem_singleton, rtMmPageSize] at hmem
  rw [addr_eq] at hlo hhi
  omega

theorem of_next_page (ha : a = addr e) (hp : p < 2 ^ 32) (hlen : e.len < 2 ^ 32) :
    NewHead m ((m.writeLE 4 a p).writeLE 4 (a + 4) e.len) e p := by
  subst ha
  refine ⟨?_, readLE_writeLE_word _ _ hlen, ?_⟩
  · rw [readLE_writeLE_of_disjoint _ (by omega), readLE_writeLE_word _ _ hp]
  · have hmem : e.start ∈ [e.start] := mem_singleton_self _
    exact (OnlyIn.writeLE hmem).trans (OnlyIn.writeLE hmem)

theorem of_page_next (ha : a = addr e) (hp : p < 2 ^ 32) (hlen : e.len < 2 ^ 32) :
    NewHead m ((m.writeLE 4 (a + 4) e.len).writeLE 4 a p) e p := by
  subst ha
  refine ⟨readLE_writeLE_word _ _ hp, ?_, ?_⟩
  · rw [readLE_writeLE_of_disjoint _ (by omega), readLE_writeLE_word _ _ hlen]
  · have hmem : e.start ∈ [e.start] := mem_singleton_self _
    exact (OnlyIn.writeLE hmem).trans (OnlyIn.writeLE hmem)

theorem of_start (hstart : e.start = f.start) (hnext : m'.readLE 4 (addr f) = p)
    (hpage : m'.readLE 4 (addr f + 4) = e.len) (hother : OnlyIn [f.start] m m') :
    NewHead m m' e p := by
  have haddr : addr e = addr f := by rw [addr_eq, addr_eq, hstart]
  exact ⟨haddr ▸ hnext, haddr ▸ hpage, hstart ▸ hother⟩

theorem runs (h : NewHead m m' e p) (hall : Placed (pre ++ e :: es)) (hpre : RunsAt m v pre q)
    (hes : RunsAt m p es 0) : RunsAt m' v pre q ∧ RunsAt m' (addr e) (e :: es) 0 := by
  refine ⟨hpre.congr fun f hf => h.agreeOn ?_, RunsAt.cons_iff.mpr ⟨rfl, ?_, h.page, ?_⟩⟩
  · have := start_lt hall.1 hf mem_cons_self
    rw [stop] at this
    omega
  · exact addr_ne_zero (hall.inside (by simp))
  · rw [h.next]
    refine hes.congr fun f hf => h.agreeOn ?_
    have hsorted := (pairwise_append.mp hall.1.sorted).2.1
    have := (pairwise_cons.mp hsorted).1 f hf
    rw [stop] at this
    omega

theorem holds (h : NewHead s.mem m' e p) (hall : Placed (pre ++ e :: es))
    (hpre : RunsAt s.mem s.pageList pre (addr e)) (hes : RunsAt s.mem p es 0) :
    Holds ⟨m', s.pageList⟩ (pre ++ e :: es) := by
  obtain ⟨hpre', hes'⟩ := h.runs hall hpre hes
  exact ⟨RunsAt.append_iff.mpr ⟨addr e, hpre', hes'⟩, hall.1, hall.2⟩

theorem holds_setLink (h : NewHead s.mem m' e p) (hall : Placed (pre ++ e :: es))
    (hpre : RunsAt s.mem s.pageList pre q) (hes : RunsAt s.mem p es 0) :
    Holds (setLink ⟨m', s.pageList⟩ (pre.map addr).getLast? (addr e)) (pre ++ e :: es) := by
  obtain ⟨hpre', hes'⟩ := h.runs hall hpre hes
  exact Slab.holds_setLink hpre' hes' hall

end NewHead

variable {npages : Nat}

theorem Holds.allocate (h : Holds s es) (hres : allocate npages es = some (e, es')) : Placed es' :=
  ⟨h.separated.allocate hres, fun u hu =>
    h.inside u ((allocate_units hres).mem_iff.mp (mem_append_right _ hu))⟩

theorem splitPages_spec {pre : List Extent} (h : Holds s (pre ++ f :: fs))
    (hn : 0 < npages) (hlt : npages < f.len)
    (hall : Placed (pre ++ ⟨f.start + npages, f.len - npages⟩ :: fs)) :
    Holds (splitPages s npages (pre.map addr).getLast? (addr f))
        (pre ++ ⟨f.start + npages, f.len - npages⟩ :: fs) ∧
      OnlyIn (allUnits (pre ++ f :: fs)) s.mem
        (splitPages s npages (pre.map addr).getLast? (addr f)).mem := by
  obtain ⟨hpre, hrest⟩ := h.at_link
  obtain ⟨-, -, hpage, hfs⟩ := RunsAt.cons_iff.mp hrest
  have hf : Inside f := h.placed.inside (by simp)
  have hstop := hf.2
  rw [stop] at hstop
  have haddr : addPages (addr f) npages = addr ⟨f.start + npages, f.len - npages⟩ := by
    rw [addPages_eq (by omega), addr_eq]
  have hold : (s.mem.writeLE 4 (addPages (addr f) npages) (s.mem.readLE 4 (addr f))).readLE 4
      (addr f + 4) = f.len := by
    rw [haddr, ← hpage]
    rw [addr_eq, addr_eq, readLE_writeLE_of_disjoint _ (by omega)]
  have hnew : NewHead s.mem
      ((s.mem.writeLE 4 (addPages (addr f) npages) (s.mem.readLE 4 (addr f))).writeLE 4
        (addPages (addr f) npages + 4) (f.len - npages))
      ⟨f.start + npages, f.len - npages⟩ (s.mem.readLE 4 (addr f)) :=
    NewHead.of_next_page haddr (readLE_word_lt _ _) (by dsimp only; omega)
  have hholds := hnew.holds_setLink hall hpre hfs
  have hpart : f.start + npages ∈ allUnits (pre ++ f :: fs) :=
    mem_allUnits.mpr ⟨f, by simp, by omega, by rw [stop]; omega⟩
  rw [splitPages]
  simp only [setNext, setPage, PageHeap.next, page, hold, sub32_of_le hlt.le]
  rw [haddr] at *
  refine ⟨hholds, (hnew.other.mono ?_).trans (OnlyIn.setLink fun e he => ?_)⟩
  · simpa using hpart
  · exact start_mem h.separated (mem_append_left _ he)

theorem pageAllocLoop_spec {fuel : Nat} (hn : 0 < npages)
    (h : Holds s (pre ++ rest)) (hshort : ∀ f ∈ pre, f.len < npages) (hfuel : rest.length < fuel) :
    match allocate npages (pre ++ rest) with
    | none => pageAllocLoop s npages fuel (pre.map addr).getLast? = some (0, s)
    | some (e, es) => ∃ s',
        pageAllocLoop s npages fuel (pre.map addr).getLast? = some (addr e, s') ∧
          Holds s' es ∧ OnlyIn (allUnits (pre ++ rest)) s.mem s'.mem := by
  induction rest generalizing pre fuel with
  | nil =>
    obtain ⟨fuel, rfl⟩ := exists_eq_succ_of_ne_zero (ne_of_gt hfuel)
    obtain ⟨-, hrest⟩ := h.at_link
    have hzero : s.link (pre.map addr).getLast? = 0 := hrest.links
    rw [allocate_append hshort]
    exact if_pos hzero
  | cons f fs ih =>
    obtain ⟨fuel, rfl⟩ := exists_eq_succ_of_ne_zero (ne_zero_of_lt hfuel)
    obtain ⟨hpre, hrest⟩ := h.at_link
    obtain ⟨hb, hne, hpage, hfs⟩ := RunsAt.cons_iff.mp hrest
    rw [pageAllocLoop]
    simp only [hb, if_neg hne, page, hpage]
    rcases lt_trichotomy npages f.len with hlt | heq | hgt
    · have hres : allocate npages (pre ++ f :: fs) =
          some (⟨f.start, npages⟩, pre ++ ⟨f.start + npages, f.len - npages⟩ :: fs) := by
        rw [allocate_append hshort, allocate, if_pos hlt]
        rfl
      rw [hres, if_pos hlt]
      have haddr : addr f = addr ⟨f.start, npages⟩ := by rw [addr_eq, addr_eq]
      obtain ⟨hholds, honly⟩ := splitPages_spec h hn hlt (h.allocate hres)
      exact ⟨_, by rw [haddr], by rwa [← haddr], by rwa [← haddr]⟩
    · have hres : allocate npages (pre ++ f :: fs) = some (f, pre ++ fs) := by
        rw [allocate_append hshort, allocate, if_neg (by omega), if_pos heq.symm]
        rfl
      rw [hres, if_neg (by omega), if_pos heq.symm]
      exact ⟨_, rfl, holds_setLink hpre hfs (h.allocate hres),
        OnlyIn.setLink fun e he => start_mem h.separated (mem_append_left _ he)⟩
    · rw [if_neg (by omega), if_neg (by omega)]
      have hnext := ih (show Holds s (pre ++ [f] ++ fs) by simpa using h)
        (forall_mem_append.mpr ⟨hshort, by simpa using hgt⟩) (by simpa using hfuel)
      simpa using hnext

section Release
variable {pre rest : List Extent} {units : List Nat}

theorem linkPages_spec (hpre : RunsAt s.mem s.pageList pre q) (hrest : RunsAt s.mem p rest 0)
    (hp : p < 2 ^ 32) (hall : Placed (pre ++ e :: rest)) (he : e.start ∈ units)
    (hunits : ∀ f ∈ pre, f.start ∈ units) :
    Holds (linkPages s (addr e) e.len (pre.map addr).getLast? p) (pre ++ e :: rest) ∧
      OnlyIn units s.mem (linkPages s (addr e) e.len (pre.map addr).getLast? p).mem := by
  have hstop := (hall.inside (e := e) (by simp)).2
  rw [stop] at hstop
  have hnew : NewHead s.mem ((s.mem.writeLE 4 (addr e + 4) e.len).writeLE 4 (addr e) p) e p :=
    NewHead.of_page_next rfl hp (by omega)
  refine ⟨hnew.holds_setLink hall hpre hrest, ?_⟩
  exact (hnew.other.mono (by simpa using he)).trans (OnlyIn.setLink hunits)

theorem prependPages_spec (h : Holds s (pre ++ f :: fs))
    (htouch : f.start = e.stop) (hpos : 0 < e.len)
    (hall : Placed (pre ++ ⟨e.start, f.len + e.len⟩ :: fs))
    (heu : e.start ∈ units) (hunits : ∀ f ∈ pre, f.start ∈ units) :
    Holds (prependPages s (addr e) e.len (pre.map addr).getLast? (addr f))
        (pre ++ ⟨e.start, f.len + e.len⟩ :: fs) ∧
      OnlyIn units s.mem (prependPages s (addr e) e.len (pre.map addr).getLast? (addr f)).mem := by
  obtain ⟨hpre, hrest⟩ := h.at_link
  obtain ⟨-, -, hpage, hfs⟩ := RunsAt.cons_iff.mp hrest
  have hf := (h.placed.inside (e := f) (by simp)).2
  rw [stop] at hf htouch
  have haddr : addr e = addr ⟨e.start, f.len + e.len⟩ := by rw [addr_eq, addr_eq]
  have hnext : (s.mem.writeLE 4 (addr e + 4) (f.len + e.len)).readLE 4 (addr f) =
      s.mem.readLE 4 (addr f) := by
    rw [addr_eq, addr_eq, readLE_writeLE_of_disjoint _ (by omega)]
  have hnew : NewHead s.mem ((s.mem.writeLE 4 (addr e + 4) (f.len + e.len)).writeLE 4 (addr e)
      (s.mem.readLE 4 (addr f))) ⟨e.start, f.len + e.len⟩ (s.mem.readLE 4 (addr f)) :=
    NewHead.of_page_next (e := ⟨e.start, f.len + e.len⟩) haddr (readLE_word_lt _ _)
      (by dsimp only; omega)
  have hholds := hnew.holds_setLink hall hpre hfs
  have hsum : (s.mem.readLE 4 (addr f + 4) + e.len) % 2 ^ 32 = f.len + e.len := by
    rw [hpage, mod_eq_of_lt (by omega)]
  rw [prependPages]
  simp only [setNext, setPage, PageHeap.next, page, hsum, hnext]
  rw [← haddr] at hholds
  exact ⟨hholds, (hnew.other.mono (by simpa using heu)).trans (OnlyIn.setLink hunits)⟩

/-- A run that touches the one in front is appended to it, and the next one too if it touches. -/
theorem appendPages_spec (h : Holds s (pre ++ f :: fs)) (he : Inside e) (htouch : f.stop = e.start)
    (hall : Placed (pre ++ join ⟨f.start, f.len + e.len⟩ fs)) :
    Holds (appendPages s e.len (addr f)) (pre ++ join ⟨f.start, f.len + e.len⟩ fs) ∧
      OnlyIn [f.start] s.mem (appendPages s e.len (addr f)).mem := by
  obtain ⟨hpre, hrest⟩ := h.at_link
  obtain ⟨hlink, -, hpage, hfs⟩ := RunsAt.cons_iff.mp hrest
  rw [hlink] at hpre
  have hstop := he.2
  rw [stop] at hstop htouch
  have haddr : ∀ n, addr f = addr ⟨f.start, n⟩ := fun n => by rw [addr_eq, addr_eq]
  have hmem : f.start ∈ [f.start] := mem_singleton_self _
  have hsum : (s.mem.readLE 4 (addr f + 4) + e.len) % 2 ^ 32 = f.len + e.len := by
    rw [hpage, mod_eq_of_lt (by omega)]
  -- the first store
  have hpage' : (s.mem.writeLE 4 (addr f + 4) (f.len + e.len)).readLE 4 (addr f + 4) =
      f.len + e.len := readLE_writeLE_word _ _ (by omega)
  have hnext' : (s.mem.writeLE 4 (addr f + 4) (f.len + e.len)).readLE 4 (addr f) =
      s.mem.readLE 4 (addr f) := readLE_writeLE_of_disjoint _ (by omega)
  have honly : OnlyIn [f.start] s.mem (s.mem.writeLE 4 (addr f + 4) (f.len + e.len)) :=
    OnlyIn.writeLE hmem
  have hend : addPages (addr f) (f.len + e.len) = 4096 * (f.start + (f.len + e.len)) :=
    addPages_eq (by omega)
  have hfirst : NewHead s.mem (s.mem.writeLE 4 (addr f + 4) (f.len + e.len))
      ⟨f.start, f.len + e.len⟩ (s.mem.readLE 4 (addr f)) :=
    NewHead.of_start (f := f) rfl hnext' hpage' honly
  rw [haddr (f.len + e.len)] at hpre
  rw [appendPages]
  simp only [setNext, setPage, PageHeap.next, page, hsum, hpage', hnext', hend]
  cases fs with
  | nil =>
    have hzero : s.mem.readLE 4 (addr f) = 0 := hfs.links
    have hstart := (h.placed.inside (e := f) (by simp)).1
    rw [if_neg (by omega)]
    exact ⟨hfirst.holds hall hpre hfs, honly⟩
  | cons c cs =>
    obtain ⟨hc, -, hpagec, hcs⟩ := RunsAt.cons_iff.mp hfs
    have hcstop := (h.placed.inside (e := c) (by simp)).2
    rw [stop] at hcstop
    rw [hc]
    by_cases hjoin : f.start + (f.len + e.len) = c.start
    · have hjoined : join ⟨f.start, f.len + e.len⟩ (c :: cs) =
          ⟨f.start, f.len + e.len + c.len⟩ :: cs := if_pos hjoin
      rw [hjoined] at hall ⊢
      rw [if_pos (by rw [addr_eq, hjoin])]
      have hflen := h.separated.pos f (by simp)
      have hcf : addr f + 8 ≤ addr c := by
        rw [addr_eq, addr_eq]
        omega
      have hlast :
        (s.mem.writeLE 4 (addr f + 4) (f.len + e.len)).readLE 4 (addr c + 4) = c.len := by
        rw [readLE_writeLE_of_disjoint _ (by omega), hpagec]
      rw [hlast, mod_eq_of_lt (show f.len + e.len + c.len < 2 ^ 32 by omega)]
      generalize hm : ByteMem.writeLE (s.mem.writeLE 4 (addr f + 4) (f.len + e.len)) 4 (addr f + 4)
        (f.len + e.len + c.len) = m2
      have hnextf : m2.readLE 4 (addr f) = addr c := by
        rw [← hm, readLE_writeLE_of_disjoint _ (by omega), hnext', hc]
      have hnextc : m2.readLE 4 (addr c) = s.mem.readLE 4 (addr c) := by
        rw [← hm, readLE_writeLE_of_disjoint _ (by omega), readLE_writeLE_of_disjoint _ (by omega)]
      have honly2 : OnlyIn [f.start] s.mem (m2.writeLE 4 (addr f) (s.mem.readLE 4 (addr c))) := by
        rw [← hm]
        exact (honly.trans (OnlyIn.writeLE hmem)).trans (OnlyIn.writeLE hmem)
      have hnew : NewHead s.mem (m2.writeLE 4 (addr f) (s.mem.readLE 4 (addr c)))
          ⟨f.start, f.len + e.len + c.len⟩ (s.mem.readLE 4 (addr c)) := by
        refine NewHead.of_start (f := f) rfl (readLE_writeLE_word _ _
          (readLE_word_lt _ _)) ?_ honly2
        rw [readLE_writeLE_of_disjoint _ (by omega), ← hm, readLE_writeLE_word _ _ (by omega)]
      rw [hnextf, hnextc]
      rw [← haddr, haddr (f.len + e.len + c.len)] at hpre
      exact ⟨hnew.holds hall hpre hcs, honly2⟩
    · have hjoined : join ⟨f.start, f.len + e.len⟩ (c :: cs) =
          ⟨f.start, f.len + e.len⟩ :: c :: cs := if_neg hjoin
      rw [hjoined] at hall ⊢
      rw [if_neg (by rw [addr_eq]; omega)]
      exact ⟨hfirst.holds hall hpre hfs, honly⟩

theorem Holds.release (h : Holds s es) (he : Inside e) (hpos : 0 < e.len)
    (hapart : ∀ f ∈ es, e.Apart f) : Placed (release e es) := by
  refine ⟨h.separated.release hpos hapart, fun u hu => ?_⟩
  rw [release_units.mem_iff, mem_append, mem_units] at hu
  rcases hu with hu | hu
  · have := he.1
    have := he.2
    omega
  · exact h.inside u hu

theorem pageFreeLoop_spec {fuel : Nat} (he : Inside e) (hpos : 0 < e.len)
    (h : Holds s (pre ++ rest)) (hapart : ∀ f ∈ pre ++ rest, e.Apart f)
    (hbelow : ∀ f ∈ pre, f.stop < e.start) (hfuel : rest.length < fuel) :
    ∃ s', pageFreeLoop s (addr e) e.len fuel (pre.map addr).getLast? = some s' ∧
      Holds s' (release e (pre ++ rest)) ∧
      OnlyIn (allUnits (e :: (pre ++ rest))) s.mem s'.mem := by
  induction fuel generalizing pre rest with
  | zero => cases hfuel
  | succ fuel ih =>
    have heu : e.start ∈ allUnits (e :: (pre ++ rest)) :=
      mem_allUnits.mpr ⟨e, mem_cons_self, le_rfl, by rw [stop]; omega⟩
    have hunits : ∀ f ∈ pre ++ rest, f.start ∈ allUnits (e :: (pre ++ rest)) := fun f hf =>
      mem_append_right _ (start_mem h.separated hf)
    have hpreu : ∀ f ∈ pre, f.start ∈ allUnits (e :: (pre ++ rest)) := fun f hf =>
      hunits f (mem_append_left _ hf)
    have hall := h.release he hpos hapart
    obtain ⟨hpre, hrest⟩ := h.at_link
    rw [release_append hbelow] at hall
    rw [pageFreeLoop]
    cases rest with
    | nil =>
      have hzero : s.link (pre.map addr).getLast? = 0 := hrest.links
      rw [hzero] at hpre hrest
      rw [release_append hbelow]
      simp only [hzero, if_pos]
      exact ⟨_, rfl, linkPages_spec hpre hrest (by decide) hall heu hpreu⟩
    | cons f fs =>
      have hf : Inside f := h.placed.inside (by simp)
      obtain ⟨hb, hne, hpage, hfs⟩ := RunsAt.cons_iff.mp hrest
      have hfstop : addPages (addr f) f.len = 4096 * f.stop := addPages_eq hf.2
      have hestop : addPages (addr e) e.len = 4096 * e.stop := addPages_eq he.2
      simp only [hb, if_neg hne, page, hpage, hfstop, hestop]
      by_cases hleft : f.stop = e.start
      · rw [if_pos (by rw [addr_eq, hleft]), release_append hbelow]
        rw [release, if_pos hleft] at hall ⊢
        obtain ⟨hholds, honly⟩ := appendPages_spec h he hleft hall
        refine ⟨_, rfl, hholds, honly.mono ?_⟩
        simpa using hunits f (by simp)
      rw [if_neg (by rw [addr_eq]; omega)]
      by_cases hright : f.start = e.stop
      · rw [if_pos (by rw [addr_eq, hright]), release_append hbelow]
        rw [release, if_neg hleft, if_pos hright] at hall ⊢
        exact ⟨_, rfl, prependPages_spec h hright hpos hall heu hpreu⟩
      rw [if_neg (by rw [addr_eq]; omega)]
      by_cases hbefore : e.stop < f.start
      · rw [if_pos (by rw [addr_eq]; omega), release_append hbelow]
        rw [release, if_neg hleft, if_neg hright, if_pos hbefore] at hall ⊢
        rw [hb] at hpre hrest
        exact ⟨_, rfl, linkPages_spec hpre hrest (addr_lt hf) hall heu hpreu⟩
      · -- the run is further on
        have hfe : f.stop < e.start := by
          have hapartf := hapart f (by simp)
          rw [Extent.Apart] at hapartf
          omega
        rw [if_neg (by rw [addr_eq]; omega)]
        have hnext := ih (show Holds s (pre ++ [f] ++ fs) by simpa using h) (by simpa using hapart)
          (forall_mem_append.mpr ⟨hbelow, by simpa using hfe⟩) (by simpa using hfuel)
        simpa using hnext

theorem length_lt_searchBound {pages : List Nat} (hnodup : pages.Nodup)
    (hlt : ∀ p ∈ pages, p < 2 ^ 20) : pages.length < searchBound := by
  have hsub : pages ⊆ range (2 ^ 20) := fun p hp => mem_range.mpr (hlt p hp)
  have hle := (hnodup.subperm hsub).length_le
  rw [length_range] at hle
  rw [searchBound]
  omega

theorem Holds.length_lt (h : Holds s es) : es.length < searchBound := by
  have hnodup : (es.map start).Nodup := by
    refine pairwise_map.mpr (h.separated.sorted.imp fun {e f} hlt => ?_)
    rw [stop] at hlt
    omega
  rw [← length_map]
  refine length_lt_searchBound hnodup fun u hu => ?_
  obtain ⟨e, he, rfl⟩ := mem_map.mp hu
  have := h.inside e.start (start_mem h.separated he)
  omega

theorem rtPageAlloc_spec (h : Holds s es) (hn : 0 < npages) :
    match allocate npages es with
    | none => rtPageAlloc s npages = some (0, s)
    | some (e, es') => ∃ s', rtPageAlloc s npages = some (addr e, s') ∧ Holds s' es' ∧
        OnlyIn (allUnits es) s.mem s'.mem := by
  rw [rtPageAlloc, if_neg (by omega)]
  exact pageAllocLoop_spec hn (show Holds s ([] ++ es) from h) (by simp) h.length_lt

theorem rtPageFree_spec (h : Holds s es) (he : Inside e) (hpos : 0 < e.len)
    (hapart : ∀ f ∈ es, e.Apart f) :
    ∃ s', rtPageFree s (addr e) e.len = some s' ∧ Holds s' (release e es) ∧
      OnlyIn (allUnits (e :: es)) s.mem s'.mem :=
  pageFreeLoop_spec he hpos (show Holds s ([] ++ es) from h) hapart (by simp) h.length_lt

end Release
end RtThread.Slab
