import RtThread.Slab.Zones

/-!
# The heap between two calls

What is in memory for the whole heap: the zones in use, the zones in `zone_free`, `memusage`, and
the free pages, each in pages of its own. A zone that a function works on is set aside, as a hole:
the rest is not concerned by changes in it.
-/

namespace RtThread.Slab
open ByteMem
open Extent (allUnits)
open SlabHeap
open List

/-- The static variables that are set by `rt_system_heap_init` only. -/
structure Fixed (L : Layout) (s : SlabHeap) : Prop where
  zoneSize : s.zoneSize = L.zoneSize
  zoneLimit : s.zoneLimit = if L.zoneSize = 32768 then 8192 else 16384
  zonePageCnt : s.zonePageCnt = L.zonePages
  memusage : s.memusage = addr L.usage
  heapStart : s.heapStart = pageAddr L.region.start

/-- Where the entry of `memusage` for a page is. -/
def Layout.usageWord (L : Layout) (page : Nat) : Nat := addr L.usage + 4 * (page - L.region.start)

/-- The zones in use, those in `zone_free` and those that are set aside are in pages of their own,
with their entries in `memusage`; the runs `es` are free. -/
structure Core (L : Layout) (s : SlabHeap) (zones : List (Zone L)) (cached hole : List Nat)
    (es : List Extent) : Prop where
  fixed : Fixed L s
  pages : PageSys.Inv L.region
    ⟨s.toPageHeap, L.usage :: (zones.map Zone.page ++ cached ++ hole).map L.run⟩ es
  usage : ∀ p ∈ zones.map Zone.page ++ cached ++ hole, ∀ i < L.zonePages,
    s.mem.readLE 4 (L.usageWord (p + i)) = 4 * i + 1
  zones : ∀ v ∈ zones, ZoneAt s.mem v
  cached : ListAt s.mem 12 s.zoneFree (cached.map pageAddr)

variable {L : Layout} {s : SlabHeap} {v w : Zone L} {zones : List (Zone L)}
  {cached hole : List Nat} {es : List Extent} {m m' : ByteMem} {p q i : Nat}

namespace Core

section
variable (h : Core L s zones cached hole es)
include h

theorem page_mem (hp : p ∈ zones.map Zone.page ++ cached ++ hole) :
    0 < p ∧ L.region.start ≤ p ∧ p + L.zonePages ≤ L.region.stop ∧ L.region.stop < 2 ^ 20 := by
  have hin := h.pages.in_region (mem_cons_of_mem _ (mem_map_of_mem hp))
  have hregion := L.region.inside
  simp only [Layout.run, Extent.stop, Inside] at hin hregion ⊢
  omega

theorem pairwise : (zones.map Zone.page ++ cached ++ hole).Pairwise fun p q =>
      p + L.zonePages ≤ q ∨ q + L.zonePages ≤ p := by
  have hapart := (pairwise_append.mp h.pages.apart).2.1
  exact pairwise_map.mp (pairwise_cons.mp hapart).2

theorem usage_apart (hp : p ∈ zones.map Zone.page ++ cached ++ hole) :
    L.usage.stop ≤ p ∨ p + L.zonePages ≤ L.usage.start := by
  have hapart := (pairwise_append.mp h.pages.apart).2.1
  exact (pairwise_cons.mp hapart).1 _ (mem_map_of_mem hp)

theorem free_apart
    (hp : p ∈ zones.map Zone.page ++ cached ++ hole) {u : Nat} (hu : u ∈ allUnits es) :
    u < p ∨ p + L.zonePages ≤ u := by
  obtain ⟨e, he, hlo, hhi⟩ := Extent.mem_allUnits.mp hu
  have hapart := h.pages.apart_of_mem (mem_cons_of_mem _ (mem_map_of_mem hp)) he
  simp only [Extent.Apart, Layout.run, Extent.stop] at hapart hhi
  omega

theorem free_usage_apart {u : Nat} (hu : u ∈ allUnits es) :
    u < L.usage.start ∨ L.usage.stop ≤ u := by
  obtain ⟨e, he, hlo, hhi⟩ := Extent.mem_allUnits.mp hu
  have hapart := h.pages.apart_of_mem mem_cons_self he
  simp only [Extent.Apart] at hapart
  omega

end

theorem zone_mem (hv : v ∈ zones) : v.page ∈ zones.map Zone.page ++ cached ++ hole := by
  simp only [append_assoc, mem_append]
  exact .inl (mem_map_of_mem hv)

theorem cached_mem (hp : p ∈ cached) : p ∈ zones.map Zone.page ++ cached ++ hole := by
  simp only [append_assoc, mem_append]
  exact .inr (.inl hp)

theorem hole_mem (hp : p ∈ hole) : p ∈ zones.map Zone.page ++ cached ++ hole := by
  simp only [append_assoc, mem_append]
  exact .inr (.inr hp)

section
variable (h : Core L s zones cached hole es) {zones' : List (Zone L)}
include h

theorem hole_apart (hp : p ∈ hole)
    (hq : q ∈ zones.map Zone.page ++ cached) : q + L.zonePages ≤ p ∨ p + L.zonePages ≤ q :=
  (pairwise_append.mp h.pairwise).2.2 q hq p hp

theorem zone_eq_or_apart (hv : v ∈ zones) (hw : w ∈ zones) :
    v.page = w.page ∨ v.page + L.zonePages ≤ w.page ∨ w.page + L.zonePages ≤ v.page := by
  have hpairs := (pairwise_append.mp (pairwise_append.mp h.pairwise).1).1
  have : Std.Symm fun p q : Nat => p + L.zonePages ≤ q ∨ q + L.zonePages ≤ p :=
    ⟨fun _ _ => Or.symm⟩
  by_cases heq : v.page = w.page
  · exact .inl heq
  · exact .inr (hpairs.forall (mem_map_of_mem hv) (mem_map_of_mem hw) heq)

theorem usageWord_inside (hp : p ∈ zones.map Zone.page ++ cached ++ hole) (hi : i < L.zonePages) :
    addr L.usage ≤ L.usageWord (p + i) ∧ L.usageWord (p + i) + 4 ≤ 4096 * L.usage.stop := by
  have hpage := h.page_mem hp
  have hlen := L.usage_len
  unfold Layout.usageWord
  rw [addr_eq]
  simp only [Extent.stop] at hpage ⊢
  omega

theorem change (hm : ∀ x, (∀ p ∈ hole, x < pageAddr p ∨ pageAddr p + L.zoneSize ≤ x) →
      (∀ v ∈ zones, x < pageAddr v.page + 12 ∨ pageAddr v.page + 16 ≤ x) → m' x = s.mem x)
    (zoneArray : Nat → Nat) : Core L (s.change m' zoneArray) zones cached hole es := by
  have hsize := L.zonePages_eq
  have hpos := L.zonePages_pos
  -- what is not in a zone is not changed
  have hout : ∀ x, (∀ p ∈ zones.map Zone.page ++ cached ++ hole,
      x < 4096 * p ∨ 4096 * (p + L.zonePages) ≤ x) → m' x = s.mem x := by
    intro x hx
    refine hm x (fun p hp => ?_) fun v hv => ?_
    · have := hx p (hole_mem hp)
      rw [pageAddr_eq]
      omega
    · have := hx v.page (zone_mem hv)
      rw [pageAddr_eq]
      omega
  refine ⟨⟨h.fixed.zoneSize, h.fixed.zoneLimit, h.fixed.zonePageCnt, h.fixed.memusage,
    h.fixed.heapStart⟩, h.pages.change fun x hx => hout x fun p hp => ?_, fun p hp i hi => ?_,
    fun v hv => ?_, h.cached.congr fun a ha => ?_⟩
  · by_contra hmem
    refine hx (Extent.mem_allUnits.mpr ⟨L.run p, mem_cons_of_mem _ (mem_map_of_mem hp), ?_⟩)
    rw [rtMmPageSize]
    simp only [Layout.run, Extent.stop]
    omega
  · rw [← h.usage p hp i hi]
    refine readLE_congr fun x hlo hhi => hout x fun q hq => ?_
    have hword := h.usageWord_inside hp hi
    have hapart := h.usage_apart hq
    rw [addr_eq] at hword
    omega
  · -- a zone in use: the words of its header and of its chunks
    have hzone : ∀ x, 4096 * v.page ≤ x → x < 4096 * (v.page + L.zonePages) →
        (x < pageAddr v.page + 12 ∨ pageAddr v.page + 16 ≤ x) → m' x = s.mem x := by
      intro x hlo hhi hlink
      refine hm x (fun p hp => ?_) fun w hw => ?_
      · have := h.hole_apart hp (mem_append_left _ (mem_map_of_mem hv))
        rw [pageAddr_eq]
        omega
      · rcases h.zone_eq_or_apart hv hw with heq | hapart
        · rwa [← heq]
        · rw [pageAddr_eq]
          omega
    refine ⟨?_, ?_⟩
    · rw [← (h.zones v hv).header]
      have haddr := pageAddr_eq v.page
      exact header_congr (fun x hlo hhi => hzone x (by omega) (by omega) (by omega))
        (fun x hlo hhi => hzone x (by omega) (by omega) (by omega))
    · refine (h.zones v hv).free.congr fun a ha x hlo hhi => ?_
      obtain ⟨j, hj, rfl⟩ := mem_map.mp ha
      obtain ⟨hin, hin'⟩ := v.chunk_inside (v.lt_of_mem_free hj)
      obtain ⟨hchunk, -⟩ := L.chunks_fit v.zi_lt
      have haddr := pageAddr_eq v.page
      unfold sizeofSlabZone at hin
      exact hzone x (by omega) (by omega) (by omega)
  · obtain ⟨p, hp, rfl⟩ := mem_map.mp ha
    intro x hlo hhi
    rw [pageAddr_eq] at hlo hhi
    refine hm x (fun q hq => ?_) fun w hw => ?_
    · have := h.hole_apart hq (mem_append_right _ hp)
      rw [pageAddr_eq]
      omega
    · have := (pairwise_append.mp (pairwise_append.mp h.pairwise).1).2.2 _ (mem_map_of_mem hw) _ hp
      rw [pageAddr_eq]
      omega

theorem rearrange {cached' hole' : List Nat} {zoneFree : Nat} (zoneFreeCnt : Int)
    (hperm : (zones.map Zone.page ++ cached ++ hole).Perm
      (zones'.map Zone.page ++ cached' ++ hole')) (hzones : ∀ v ∈ zones', ZoneAt s.mem v)
    (hcached : ListAt s.mem 12 zoneFree (cached'.map pageAddr)) :
    Core L { s with zoneFree := zoneFree, zoneFreeCnt := zoneFreeCnt } zones' cached' hole' es :=
  ⟨⟨h.fixed.zoneSize, h.fixed.zoneLimit, h.fixed.zonePageCnt, h.fixed.memusage, h.fixed.heapStart⟩,
    h.pages.perm ((hperm.map L.run).cons _), fun p hp => h.usage p (hperm.mem_iff.mpr hp), hzones,
    hcached⟩

theorem perm (hperm : zones.Perm zones') : Core L s zones' cached hole es :=
  h.rearrange s.zoneFreeCnt (((hperm.map _).append_right _).append_right _)
    (fun v hv => h.zones v (hperm.mem_iff.mpr hv)) h.cached

end

theorem openZone (h : Core L s (v :: zones) cached hole es) :
    Core L s zones cached (v.page :: hole) es :=
  h.rearrange s.zoneFreeCnt perm_middle.symm (fun w hw => h.zones w (mem_cons_of_mem v hw)) h.cached

theorem closeZone (h : Core L s zones cached (v.page :: hole) es) (hv : ZoneAt s.mem v) :
    Core L s (v :: zones) cached hole es :=
  h.rearrange s.zoneFreeCnt perm_middle (forall_mem_cons.mpr ⟨hv, h.zones⟩) h.cached

theorem popCached (h : Core L s zones (p :: cached) hole es) (zoneFreeCnt : Int) :
    Core L { s with zoneFree := s.znext (pageAddr p), zoneFreeCnt := zoneFreeCnt } zones cached
      (p :: hole) es :=
  h.rearrange zoneFreeCnt ((perm_middle.append_right _).trans perm_middle.symm) h.zones h.cached.2.2

theorem pushCached (h : Core L s zones cached (p :: hole) es)
    (hlink : s.znext (pageAddr p) = s.zoneFree) (zoneFreeCnt : Int) :
    Core L { s with zoneFree := pageAddr p, zoneFreeCnt := zoneFreeCnt } zones (p :: cached) hole
      es := by
  have hpos := (h.page_mem (hole_mem mem_cons_self)).1
  refine h.rearrange zoneFreeCnt (perm_middle.trans (perm_middle.symm.append_right _))
    h.zones ⟨rfl, ?_, ?_⟩
  · rw [pageAddr_eq]
    omega
  · unfold znext at hlink
    rw [hlink]
    exact h.cached

/-- Other pages are taken or given back; the zones in use and in `zone_free` keep their bytes. -/
theorem changePages (h : Core L s zones cached hole es) {heap : PageHeap} {hole' : List Nat}
    {es' : List Extent}
    (hpages : PageSys.Inv L.region
      ⟨heap, L.usage :: (zones.map Zone.page ++ cached ++ hole').map L.run⟩ es')
    (husage : ∀ p ∈ zones.map Zone.page ++ cached ++ hole', ∀ i < L.zonePages,
      heap.mem.readLE 4 (L.usageWord (p + i)) = 4 * i + 1)
    (hsame : ∀ p ∈ zones.map Zone.page ++ cached, AgreeOn heap.mem s.mem (pageAddr p) L.zoneSize) :
    Core L { s with toPageHeap := heap } zones cached hole' es' := by
  have hsize := L.zonePages_eq
  have hpos := L.zonePages_pos
  refine ⟨⟨h.fixed.zoneSize, h.fixed.zoneLimit, h.fixed.zonePageCnt, h.fixed.memusage,
    h.fixed.heapStart⟩, hpages, husage, fun v hv => ?_, h.cached.congr fun a ha => ?_⟩
  · have hzone := hsame v.page (mem_append_left _ (mem_map_of_mem hv))
    refine ⟨?_, (h.zones v hv).free.congr fun a ha => ?_⟩
    · rw [← (h.zones v hv).header]
      exact header_congr (hzone.mono (by omega) (by omega)) (hzone.mono (by omega) (by omega))
    · obtain ⟨j, hj, rfl⟩ := mem_map.mp ha
      obtain ⟨hin, hin'⟩ := v.chunk_inside (v.lt_of_mem_free hj)
      obtain ⟨hchunk, -⟩ := L.chunks_fit v.zi_lt
      exact hzone.mono (by omega) (by omega)
  · obtain ⟨p, hp, rfl⟩ := mem_map.mp ha
    exact (hsame p (mem_append_right _ hp)).mono (by omega) (by omega)

end Core

section
variable (m) (kup : Nat) (type : PageType)

theorem setUsage_read (size : Nat) :
    (setUsage m kup type size).readLE 4 kup = type.code + size % 2 ^ 30 * 4 := by
  have hword := readLE_word_lt m kup
  have hcode : type.code < 4 := by
    cases type
    all_goals decide
  unfold setUsage
  dsimp only
  rw [readLE_writeLE_word _ _ (by omega), readLE_writeLE_word _ _ (by omega)]
  omega

theorem setUsage_within (size : Nat) : Within kup 4 m (setUsage m kup type size) :=
  Within.trans (Within.writeLE _ (by omega) (by omega)) (Within.writeLE _ (by omega) (by omega))

theorem setUsages_within (size : Nat → Nat) (n : Nat) :
    Within kup (4 * n) m (setUsages m kup type size n) := by
  induction n with
  | zero => exact Within.refl _ _ _
  | succ n ih =>
    exact Within.trans (ih.mono le_rfl (by omega))
      ((setUsage_within _ _ _ _).mono (by omega) (by omega))

theorem setUsages_read (size : Nat → Nat) {n : Nat} (hi : i < n) :
    (setUsages m kup type size n).readLE 4 (kup + 4 * i) = type.code + size i % 2 ^ 30 * 4 := by
  induction n with
  | zero => cases hi
  | succ n ih =>
    unfold setUsages
    by_cases heq : i = n
    · subst heq
      exact setUsage_read _ _ _ _
    · rw [readLE_congr ((setUsage_within _ _ _ _).agreeOn (by omega))]
      exact ih (by omega)

end

theorem Layout.usageWord_add (hp : L.region.start ≤ p) :
    L.usageWord (p + i) = L.usageWord p + 4 * i := by
  unfold usageWord
  omega

theorem Fixed.btokup (h : Fixed L s) (hlo : L.region.start ≤ p) (hhi : p < 2 ^ 20) :
    s.btokup (pageAddr p) = L.usageWord p := by
  have hdiff : sub32 (pageAddr p) (pageAddr L.region.start) = 4096 * (p - L.region.start) := by
    rw [pageAddr_eq, pageAddr_eq, sub32_of_le]
    omega
  unfold SlabHeap.btokup Layout.usageWord
  rw [h.memusage, h.heapStart, hdiff, rtMmPageSize, Nat.mul_div_cancel_left _ (by decide)]

theorem Layout.addr_run (L : Layout) (p : Nat) : addr (L.run p) = pageAddr p := by
  rw [addr_eq, pageAddr_eq, run]

theorem OnlyIn.agreeOn {units : List Nat} {a n : Nat} (h : OnlyIn units m m')
    (hdisjoint : ∀ u ∈ units, a + n ≤ 4096 * u ∨ 4096 * (u + 1) ≤ a) : AgreeOn m' m a n := by
  intro x hlo hhi
  refine h x fun hmem => ?_
  have := hdisjoint _ hmem
  rw [rtMmPageSize] at this
  omega

theorem onlyIn_usage {live : List Extent} (hlo : L.region.start ≤ p)
    (hhi : p + L.zonePages ≤ L.region.stop)
    (hm : Within (L.usageWord p) (4 * L.zonePages) m m') :
    OnlyIn (allUnits (L.usage :: live)) m m' := by
  intro x hx
  refine hm x ?_
  by_contra hmem
  refine hx (Extent.mem_allUnits.mpr ⟨L.usage, mem_cons_self, ?_⟩)
  have hlen := L.usage_len
  unfold Layout.usageWord at hmem
  rw [addr_eq] at hmem
  rw [rtMmPageSize]
  simp only [Extent.stop] at hhi ⊢
  omega

namespace Core

theorem newPages (h : Core L s zones cached [] es) {e : Extent} {heap : PageHeap}
    {es' : List Extent} (hlen : e.len = L.zonePages)
    (honly : OnlyIn (allUnits es) s.mem heap.mem)
    (hinv : PageSys.Inv L.region
      ⟨heap, e :: L.usage :: (zones.map Zone.page ++ cached ++ []).map L.run⟩ es') :
    Core L { s with toPageHeap := { heap with
        mem := setUsages heap.mem (L.usageWord e.start) .small (fun off => off) L.zonePages } }
      zones cached [e.start] es' ∧
    ∀ v ∈ zones, AgreeOn (setUsages heap.mem (L.usageWord e.start) .small (fun off => off)
      L.zonePages) s.mem (pageAddr v.page) L.zoneSize := by
  have hsize := L.zonePages_eq
  have hrun : L.run e.start = e := Extent.ext rfl hlen.symm
  obtain ⟨hlo, hhi⟩ := hinv.in_region mem_cons_self
  have hstop : e.stop = e.start + L.zonePages := by rw [Extent.stop, hlen]
  have hwithin := setUsages_within heap.mem (L.usageWord e.start) .small (fun off => off)
    L.zonePages
  have hheld : (e :: L.usage :: (zones.map Zone.page ++ cached ++ []).map L.run).Perm
      (L.usage :: (zones.map Zone.page ++ cached ++ [e.start]).map L.run) := by
    have hlast : (zones.map Zone.page ++ cached ++ [e.start]).map L.run =
        (zones.map Zone.page ++ cached).map L.run ++ [e] := by
      rw [map_append, map_singleton, hrun]
    rw [append_nil, hlast]
    exact (List.Perm.swap ..).trans ((perm_append_singleton _ _).symm.cons _)
  have hapart := (pairwise_cons.mp (pairwise_append.mp hinv.apart).2.1).1
  have hsame : ∀ p ∈ zones.map Zone.page ++ cached,
      AgreeOn (setUsages heap.mem (L.usageWord e.start) .small (fun off => off) L.zonePages) s.mem
        (pageAddr p) L.zoneSize := by
    intro p hp
    have hp' : p ∈ zones.map Zone.page ++ cached ++ [] := by rwa [append_nil]
    have hfree := honly.agreeOn (a := pageAddr p) (n := L.zoneSize) fun u hu => by
      have := h.free_apart hp' hu
      rw [pageAddr_eq]
      omega
    have husage : OnlyIn (allUnits [L.usage]) _ _ := onlyIn_usage hlo (by omega) hwithin
    intro x hx hx'
    refine (husage x fun hmem => ?_).trans (hfree x hx hx')
    obtain ⟨f, hf, hle, hlt⟩ := Extent.mem_allUnits.mp hmem
    rw [mem_singleton.mp hf, rtMmPageSize] at hle hlt
    have := h.usage_apart hp'
    rw [pageAddr_eq] at hx hx'
    omega
  refine ⟨h.changePages ?_ (fun p hp i hi => ?_) hsame, fun v hv =>
    hsame v.page (mem_append_left _ (mem_map_of_mem hv))⟩
  · exact (hinv.perm hheld).change (onlyIn_usage hlo (by omega) hwithin)
  · rcases mem_append.mp hp with hp | hp
    · -- an entry that was there
      have hp' : p ∈ zones.map Zone.page ++ cached ++ [] := by rwa [append_nil]
      have hpage := h.page_mem hp'
      have hword := h.usageWord_inside hp' hi
      have hne := hapart (L.run p) (mem_cons_of_mem _ (mem_map_of_mem hp'))
      simp only [Extent.Apart, hstop, Layout.run] at hne
      simp only [Extent.stop] at hne
      rw [← h.usage p hp' i hi, readLE_congr (hwithin.agreeOn ?_)]
      · refine readLE_congr (honly.agreeOn fun u hu => ?_)
        have := h.free_usage_apart hu
        rw [addr_eq] at hword
        omega
      · unfold Layout.usageWord
        omega
    · rw [mem_singleton.mp hp, L.usageWord_add hlo, setUsages_read _ _ _ _ hi]
      have hpages : L.zonePages ≤ 32 := by
        have := L.zoneSize_eq
        omega
      change 1 + i % 2 ^ 30 * 4 = 4 * i + 1
      omega

theorem releasePages (h : Core L s zones cached [p] es) : ∃ heap es', rtPageFree { s.toPageHeap with
        mem := setUsages s.mem (L.usageWord p) .free (fun _ => 0) L.zonePages }
          (pageAddr p) L.zonePages = some heap ∧
      Core L { s with toPageHeap := heap } zones cached [] es' ∧
      ∀ v ∈ zones, AgreeOn heap.mem s.mem (pageAddr v.page) L.zoneSize := by
  have hsize := L.zonePages_eq
  have hp : p ∈ zones.map Zone.page ++ cached ++ [p] := hole_mem mem_cons_self
  obtain ⟨-, hlo, hhi, -⟩ := h.page_mem hp
  have hwithin := setUsages_within s.mem (L.usageWord p) .free (fun _ => 0) L.zonePages
  have hheld : (L.usage :: (zones.map Zone.page ++ cached ++ [p]).map L.run).Perm
      (L.run p :: L.usage :: (zones.map Zone.page ++ cached ++ []).map L.run) := by
    have hlast : (zones.map Zone.page ++ cached ++ [p]).map L.run =
        (zones.map Zone.page ++ cached).map L.run ++ [L.run p] := map_append
    rw [append_nil, hlast]
    exact ((perm_append_singleton _ _).cons _).trans (List.Perm.swap ..)
  obtain ⟨heap, heq, honly, hinv⟩ :=
    ((h.pages.change (onlyIn_usage hlo hhi hwithin)).perm hheld).pageFree
  rw [L.addr_run] at heq
  -- the bytes that are changed
  have hout : ∀ {a n : Nat}, (∀ u ∈ allUnits es, a + n ≤ 4096 * u ∨ 4096 * (u + 1) ≤ a) →
      (a + n ≤ 4096 * p ∨ 4096 * (p + L.zonePages) ≤ a) →
      (a + n ≤ L.usageWord p ∨ L.usageWord p + 4 * L.zonePages ≤ a) →
      AgreeOn heap.mem s.mem a n := by
    intro a n hfree hzone husage x hx hx'
    refine (honly.agreeOn (fun u hu => ?_) x hx hx').trans
      (hwithin.agreeOn husage x hx hx')
    rcases mem_append.mp hu with hu | hu
    · simp only [Extent.mem_units, Layout.run, Extent.stop] at hu
      omega
    · exact hfree u hu
  have hsame : ∀ q ∈ zones.map Zone.page ++ cached,
      AgreeOn heap.mem s.mem (pageAddr q) L.zoneSize := by
    intro q hq
    have hq' : q ∈ zones.map Zone.page ++ cached ++ [p] := mem_append_left _ hq
    have hword := h.usageWord_inside hp (i := L.zonePages - 1) (by have := L.zonePages_pos; omega)
    have := h.usage_apart hq'
    have := h.hole_apart mem_cons_self hq
    rw [L.usageWord_add hlo, addr_eq] at hword
    rw [pageAddr_eq]
    refine hout (fun u hu => ?_) (by omega) ?_
    · have := h.free_apart hq' hu
      omega
    · have hstart : addr L.usage ≤ L.usageWord p := Nat.le_add_right _ _
      rw [addr_eq] at hstart
      omega
  refine ⟨heap, _, heq, h.changePages hinv (fun q hq i hi => ?_) hsame, fun v hv =>
    hsame v.page (mem_append_left _ (mem_map_of_mem hv))⟩
  rw [append_nil] at hq
  have hq' : q ∈ zones.map Zone.page ++ cached ++ [p] := mem_append_left _ hq
  have hpage := h.page_mem hq'
  have hword := h.usageWord_inside hq' hi
  have hne := h.hole_apart mem_cons_self hq
  have hzone := h.usage_apart hp
  rw [← h.usage q hq' i hi]
  rw [addr_eq] at hword
  refine readLE_congr (hout (fun u hu => ?_) (by omega) ?_)
  · have := h.free_usage_apart hu
    omega
  · unfold Layout.usageWord
    omega

end Core
end RtThread.Slab
