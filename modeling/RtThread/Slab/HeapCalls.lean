import RtThread.Slab.HeapInv

/-!
# `rt_malloc` and `rt_free` of small chunks

The lists of `zone_array` have, for each size, the zones with free chunks, each once. Every call
keeps this: a chunk is taken from a zone or put back, a zone is set up, put into `zone_free`, or
given back to the page allocator.
-/

namespace RtThread.Slab
open ByteMem
open Function
open SlabHeap
open List
variable {L : Layout}

/-- The zone has free chunks of a size. -/
def Zone.offers (v : Zone L) (zi : Nat) : Bool := decide (v.zi = zi ∧ 0 < v.nfree)

/-- The list of `zone_array` for each size has the zones that offer it. -/
structure Links (s : SlabHeap) (zones : List (Zone L)) (chain : Nat → List Nat) : Prop where
  lists : ∀ zi, ListAt s.mem 12 (s.zoneArray zi) ((chain zi).map pageAddr)
  zones : ∀ zi, (chain zi).Perm ((zones.filter fun v => v.offers zi).map Zone.page)

variable {s s' : SlabHeap} {v v' w : Zone L} {zones zones' : List (Zone L)}
  {cached hole pre post : List Nat} {chain : Nat → List Nat} {es : List Extent} {m' : ByteMem}
  {live : List Chunk} {p n zi : Nat}

namespace Links

attribute [local simp] Zone.offers

theorem mem_iff (h : Links s zones chain) :
    p ∈ chain zi ↔ ∃ v ∈ zones, (v.zi = zi ∧ 0 < v.nfree) ∧ v.page = p := by
  rw [(h.zones zi).mem_iff, mem_map]
  simp [and_assoc]

theorem perm (h : Links s zones chain) (hperm : zones.Perm zones') : Links s zones' chain :=
  ⟨h.lists, fun zi => (h.zones zi).trans ((hperm.filter _).map _)⟩

theorem congr (h : Links s zones chain) (harray : s'.zoneArray = s.zoneArray)
    (hlinks : ∀ v ∈ zones, s'.znext (pageAddr v.page) = s.znext (pageAddr v.page)) :
    Links s' zones chain := by
  refine ⟨fun zi => ?_, h.zones⟩
  rw [harray]
  refine (h.lists zi).congr_links fun a ha => ?_
  obtain ⟨p, hp, rfl⟩ := mem_map.mp ha
  obtain ⟨v, hv, -, rfl⟩ := h.mem_iff.mp hp
  exact hlinks v hv

theorem replace (h : Links s (v :: zones) chain) (hpage : v'.page = v.page)
    (hoffers : ∀ zi, v'.offers zi = v.offers zi) : Links s (v' :: zones) chain := by
  refine ⟨h.lists, fun zi => (h.zones zi).trans ?_⟩
  rw [filter_cons, filter_cons, hoffers]
  split
  · rw [map_cons, map_cons, hpage]
  · exact List.Perm.refl _

theorem full_iff (hfull : v.nfree = 0) : Links s (v :: zones) chain ↔ Links s zones chain := by
  have hfilter : ∀ zi, ((v :: zones).filter fun v => v.offers zi) =
      zones.filter fun v => v.offers zi := fun zi =>
    filter_cons_of_neg (by simp [hfull])
  constructor
  · intro h
    exact ⟨h.lists, fun zi => hfilter zi ▸ h.zones zi⟩
  · intro h
    exact ⟨h.lists, fun zi => (hfilter zi).symm ▸ h.zones zi⟩

theorem push (h : Links s zones chain) (hpos : 0 < v.nfree) (hne : pageAddr v.page ≠ 0)
    (hlink : m'.readLE 4 (pageAddr v.page + 12) = s.zoneArray v.zi)
    (hlinks : ∀ w ∈ zones, m'.readLE 4 (pageAddr w.page + 12) = s.znext (pageAddr w.page)) :
    Links (s.change m' (update s.zoneArray v.zi (pageAddr v.page))) (v :: zones)
      (update chain v.zi (v.page :: chain v.zi)) := by
  have hlists := (show Links (s.change m' s.zoneArray) zones chain from h.congr rfl hlinks).lists
  constructor
  · intro zi
    change ListAt m' 12 (update s.zoneArray v.zi (pageAddr v.page) zi) _
    by_cases hzi : zi = v.zi
    · subst hzi
      rw [update_self, update_self]
      refine ⟨rfl, hne, ?_⟩
      rw [hlink]
      exact hlists v.zi
    · rw [update_of_ne hzi, update_of_ne hzi]
      exact hlists zi
  · intro zi
    by_cases hzi : zi = v.zi
    · subst hzi
      rw [update_self, filter_cons_of_pos (by simp [hpos]), map_cons]
      exact (h.zones v.zi).cons _
    · rw [update_of_ne hzi,
        filter_cons_of_neg (by simp [Ne.symm hzi])]
      exact h.zones zi

theorem nodup (h : Links s zones chain) (hnodup : (zones.map Zone.page).Nodup) (zi : Nat) :
    (chain zi).Nodup :=
  (h.zones zi).nodup_iff.mpr (hnodup.sublist (filter_sublist.map _))

theorem zi_eq_of_mem (h : Links s zones chain) (hnodup : (zones.map Zone.page).Nodup) {zi' : Nat}
    (hp : p ∈ chain zi) (hp' : p ∈ chain zi') : zi = zi' := by
  obtain ⟨v, hv, ⟨rfl, -⟩, rfl⟩ := h.mem_iff.mp hp
  obtain ⟨w, hw, ⟨rfl, -⟩, heq⟩ := h.mem_iff.mp hp'
  rw [inj_on_of_nodup_map hnodup hw hv heq]

theorem unlink (h : Links s (v :: zones) chain) (hpos : 0 < v.nfree)
    (hnodup : ((v :: zones).map Zone.page).Nodup) (hchain : chain v.zi = pre ++ v.page :: post) :
    Links (s.setZoneLink (s.znext (pageAddr v.page)) v.zi (pre.map pageAddr).getLast?) zones
      (update chain v.zi (pre ++ post)) := by
  have hlist := h.lists v.zi
  rw [hchain, map_append] at hlist
  obtain ⟨r, hpre, -, -, hpost⟩ := segAt_append.mp hlist
  have hchain_nodup := h.nodup hnodup v.zi
  rw [hchain] at hchain_nodup
  obtain ⟨hpre_nodup, hpost_nodup, hdisjoint⟩ := nodup_append.mp hchain_nodup
  have haddr : ∀ {p q : Nat}, p ≠ q → pageAddr p + 4096 ≤ pageAddr q ∨
      pageAddr q + 4096 ≤ pageAddr p := by
    intro p q hne
    rw [pageAddr_eq, pageAddr_eq]
    omega
  -- the store does not concern zones that are not in front of the link
  have hother : ∀ {p : Nat}, p ∉ pre → AgreeOn (s.mem.linkStore 12 (s.zoneArray v.zi)
      (pre.map pageAddr).getLast? (s.znext (pageAddr v.page))).1 s.mem (pageAddr p + 12) 4 := by
    intro p hp
    refine linkStore_agreeOn fun b hb => ?_
    obtain ⟨q, hq, rfl⟩ := mem_map.mp hb
    have := haddr (p := p) fun heq => hp (heq ▸ hq)
    omega
  constructor
  · intro zi
    change ListAt (s.mem.linkStore 12 _ _ _).1 12 (update s.zoneArray v.zi _ zi) _
    by_cases hzi : zi = v.zi
    · subst hzi
      rw [update_self, update_self, map_append]
      refine segAt_append.mpr ⟨s.znext (pageAddr v.page), ?_, ?_⟩
      · refine hpre.linkStore (readLE_word_lt _ _) (pairwise_map.mpr ?_)
        refine hpre_nodup.imp fun hne => ?_
        have := haddr hne
        omega
      · refine SegAt.congr hpost fun a ha => ?_
        obtain ⟨p, hp, rfl⟩ := mem_map.mp ha
        exact hother fun hmem => hdisjoint p hmem p (mem_cons_of_mem _ hp) rfl
    · rw [update_of_ne hzi, update_of_ne hzi]
      refine (h.lists zi).congr fun a ha => ?_
      obtain ⟨p, hp, rfl⟩ := mem_map.mp ha
      refine hother fun hmem => hzi (h.zi_eq_of_mem hnodup hp ?_)
      rw [hchain]
      exact mem_append_left _ hmem
  · intro zi
    by_cases hzi : zi = v.zi
    · subst hzi
      have hperm := h.zones v.zi
      rw [hchain, filter_cons_of_pos (by simp [hpos]), map_cons] at hperm
      rw [update_self]
      exact (perm_middle.symm.trans hperm).cons_inv
    · have hperm := h.zones zi
      rw [filter_cons_of_neg (by simp [Ne.symm hzi])] at hperm
      rwa [update_of_ne hzi]

end Links

theorem unlinkZone_spec {z fuel : Nat} {front back rest : List Nat}
    (hlist : ListAt s.mem 12 (s.zoneArray zi) (front ++ back ++ z :: rest)) (hz : z ∉ back)
    (hfuel : back.length < fuel) :
    unlinkZone s zi z fuel front.getLast? =
      some (s.setZoneLink (s.znext z) zi (front ++ back).getLast?) := by
  induction fuel generalizing front back with
  | zero => cases hfuel
  | succ fuel ih =>
    rw [append_assoc] at hlist
    obtain ⟨r, hfront, hback⟩ := segAt_append.mp hlist
    have hlink : s.zoneLink zi front.getLast? = r := hfront.linkValue
    rw [unlinkZone, hlink]
    cases back with
    | nil =>
      obtain rfl : r = z := hback.1
      rw [if_neg (by simp), append_nil]
    | cons b back =>
      obtain rfl : r = b := hback.1
      have hne : z ≠ r := by
        rintro rfl
        exact hz mem_cons_self
      rw [if_pos hne]
      have hnext := ih (show ListAt s.mem 12 (s.zoneArray zi) (front ++ [r] ++ back ++ z :: rest) by
        simpa using hlist)
        (fun hmem => hz (mem_cons_of_mem r hmem)) (Nat.lt_of_succ_lt_succ hfuel)
      simpa using hnext

/-- What holds between two calls: the zones are in memory, the lists of `zone_array` have those with
free chunks, and the chunks in use are those that the program holds. -/
structure Inv (L : Layout) (s : SlabHeap) (live : List Chunk) (zones : List (Zone L))
    (cached : List Nat) (chain : Nat → List Nat) (es : List Extent) : Prop where
  core : Core L s zones cached [] es
  links : Links s zones chain
  live : live.Perm (zones.flatMap Zone.live)

section
variable (h : Core L s zones cached hole es)
include h

theorem Core.nodup : (zones.map Zone.page).Nodup := by
  have hpairs := (pairwise_append.mp (pairwise_append.mp h.pairwise).1).1
  refine hpairs.imp fun hapart => ?_
  have := L.zonePages_pos
  omega

theorem Core.zone_lt (hp : p ∈ zones.map Zone.page ++ cached ++ hole) :
    pageAddr p ≠ 0 ∧ pageAddr p + L.zoneSize ≤ 2 ^ 32 := by
  have hpage := h.page_mem hp
  have hsize := L.zonePages_eq
  rw [pageAddr_eq]
  omega

theorem Core.znext_eq (hp : p ∈ hole)
    (hm : Within (pageAddr p) L.zoneSize s.mem m') (hw : w ∈ zones) :
    m'.readLE 4 (pageAddr w.page + 12) = s.znext (pageAddr w.page) := by
  have hapart := h.hole_apart hp (mem_append_left _ (mem_map_of_mem hw))
  have hsize := L.zonePages_eq
  refine readLE_congr (hm.agreeOn ?_)
  rw [pageAddr_eq, pageAddr_eq]
  omega

end

theorem Core.change_hole (h : Core L s zones cached [p] es)
    (hm : Within (pageAddr p) L.zoneSize s.mem m') (zoneArray : Nat → Nat) :
    Core L (s.change m' zoneArray) zones cached [p] es :=
  h.change (fun x hx _ => hm x (hx p mem_cons_self)) zoneArray

namespace Inv

section
variable (h : Inv L s live zones cached chain es)
include h

theorem perm (hperm : zones.Perm zones') : Inv L s live zones' cached chain es :=
  ⟨h.core.perm hperm, h.links.perm hperm, h.live.trans (hperm.flatMap_right _)⟩

theorem zoneArray_lt (zi : Nat) : s.zoneArray zi < 2 ^ 32 := by
  have hsize := L.zonePages_eq
  have hpos := L.zonePages_pos
  rcases (h.links.lists zi).eq_or_mem with heq | hmem
  · rw [heq]
    decide
  · obtain ⟨p, hp, heq⟩ := mem_map.mp hmem
    obtain ⟨v, hv, -, rfl⟩ := h.links.mem_iff.mp hp
    have := (h.core.zone_lt (Core.zone_mem hv)).2
    rw [← heq]
    omega

theorem exists_zone (hp : p ∈ chain zi) : ∃ v zones', v.page = p ∧ v.zi = zi ∧ 0 < v.nfree ∧
      Inv L s live (v :: zones') cached chain es := by
  obtain ⟨v, hv, ⟨hzi, hpos⟩, hpage⟩ := h.links.mem_iff.mp hp
  obtain ⟨l, l', rfl⟩ := append_of_mem hv
  exact ⟨v, l ++ l', hpage, hzi, hpos, h.perm perm_middle⟩

end

theorem zone_lt (h : Inv L s live (v :: zones) cached chain es) :
    pageAddr v.page ≠ 0 ∧ pageAddr v.page + L.zoneSize ≤ 2 ^ 32 :=
  h.core.zone_lt (Core.zone_mem mem_cons_self)

theorem take (h : Inv L s live (v :: zones) cached chain es) {ps : List Nat}
    (hchain : chain v.zi = v.page :: ps) (hpos : 0 < v.nfree) (hn : n ≤ chunkSizeOf v.zi) :
    ∃ ptr s' v' chain', takeChunk s (pageAddr v.page) v.zi (chunkSizeOf v.zi) = (ptr, s') ∧
      ptr ≠ 0 ∧ Inv L s' (⟨ptr, n⟩ :: live) (v' :: zones) cached chain' es := by
  obtain ⟨hne, hlt⟩ := h.zone_lt
  obtain ⟨v', i, m', heq, htaken, hzone, hlink, hwithin⟩ :=
    takeChunk_spec (h.core.zones v mem_cons_self) hpos hlt hn
  have hsize := L.zoneSize_eq
  have hwithin' : Within (pageAddr v.page) L.zoneSize s.mem m' :=
    hwithin.mono le_rfl (by unfold sizeofSlabZone; omega)
  have hcore : ∀ a, Core L (s.change m' a) (v' :: zones) cached [] es := by
    intro a
    have hhole := h.core.openZone.change_hole hwithin' a
    rw [← htaken.page] at hhole
    exact hhole.closeZone hzone
  have hlive : (⟨v.chunk i, n⟩ :: live).Perm ((v' :: zones).flatMap Zone.live) := by
    have hv' : v'.live = ⟨v.chunk i, n⟩ :: v.live := by
      unfold Zone.live
      rw [htaken.used, htaken.chunk]
      rfl
    rw [flatMap_cons, hv']
    exact h.live.cons _
  have hlinks : ∀ w ∈ zones, m'.readLE 4 (pageAddr w.page + 12) = s.znext (pageAddr w.page) :=
    fun w hw => h.core.openZone.znext_eq mem_cons_self hwithin' hw
  have hcount : v'.nfree + 1 = v.nfree := by
    have hv := v.nfree_add_used
    have hv' := v'.nfree_add_used
    rw [htaken.used, htaken.zi, length_cons] at hv'
    omega
  have hptr : v.chunk i ≠ 0 := by
    unfold Zone.chunk Zone.base
    omega
  refine ⟨_, _, v', (if v.nfree = 1 then update chain v.zi ps else chain), heq, hptr, hcore _,
    ?_, hlive⟩
  by_cases hlast : v.nfree = 1
  · -- the zone has become full, and leaves its list
    rw [if_pos hlast, if_pos hlast]
    exact (Links.full_iff (by omega)).mpr
      ((h.links.unlink hpos h.core.nodup (show chain v.zi = [] ++ v.page :: ps from hchain)).congr
        rfl hlinks)
  · rw [if_neg hlast] at hlink ⊢
    rw [if_neg hlast]
    refine Links.replace (h.links.congr rfl ?_) htaken.page fun zi => ?_
    · exact forall_mem_cons.mpr ⟨hlink, hlinks⟩
    · refine decide_eq_decide.mpr ?_
      rw [htaken.zi]
      exact and_congr_right fun _ => ⟨fun _ => hpos, fun _ => by omega⟩

theorem newZone (hcore : Core L s zones cached [p] es) (hlinks : Links s zones chain)
    (hlive : live.Perm (zones.flatMap Zone.live)) (hzi : zi < L.classes) (hn : n ≤ chunkSizeOf zi)
    (harray : s.zoneArray zi < 2 ^ 32) :
    ∃ ptr s' v' chain', initZone s (pageAddr p) zi (chunkSizeOf zi) = (ptr, s') ∧ ptr ≠ 0 ∧
      Inv L s' (⟨ptr, n⟩ :: live) (v' :: zones) cached chain' es := by
  obtain ⟨hne, hlt⟩ := hcore.zone_lt (Core.hole_mem mem_cons_self)
  obtain ⟨m', heq, hzone, hlink, hwithin⟩ :=
    initZone_spec hcore.fixed.zoneSize hzi hn hlt harray
  have hsize := L.zoneSize_eq
  have hwithin' : Within (pageAddr p) L.zoneSize s.mem m' :=
    hwithin.mono le_rfl (by unfold sizeofSlabZone; omega)
  have hpos : 0 < (Zone.fresh p hzi hn).nfree := by
    have hcount := (Zone.fresh p hzi hn).nfree_add_used
    have hfit := L.chunks_fit hzi
    change _ + 1 = L.nmax zi at hcount
    omega
  have hptr : (Zone.fresh p hzi hn).chunk 0 ≠ 0 := by
    have hbase : (Zone.fresh p hzi hn).base =
      pageAddr p + zoneOffset (chunkSizeOf zi) := rfl
    unfold Zone.chunk
    omega
  refine ⟨_, _, Zone.fresh p hzi hn, update chain zi (p :: chain zi), heq, hptr, ?_, ?_, ?_⟩
  · exact (hcore.change_hole hwithin' _).closeZone hzone
  · exact hlinks.push hpos hne hlink fun w hw =>
      hcore.znext_eq mem_cons_self hwithin' hw
  · exact hlive.cons _

theorem zoneMemory_spec (h : Inv L s live zones cached chain es) : zoneMemory s = some (0, s) ∨
      ∃ p s' cached' es', zoneMemory s = some (pageAddr p, s') ∧ Core L s' zones cached' [p] es' ∧
        Links s' zones chain ∧ s'.zoneArray = s.zoneArray := by
  unfold zoneMemory
  cases cached with
  | cons p cached =>
    obtain ⟨hp, hne, -⟩ := h.core.cached
    rw [if_pos (by rw [hp]; exact hne), hp]
    exact .inr ⟨p, _, cached, es, rfl, h.core.popCached _, h.links.congr rfl fun _ _ => rfl, rfl⟩
  | nil =>
    have hnone : s.zoneFree = 0 := h.core.cached
    have hpages : s.zoneSize / rtMmPageSize = L.zonePages := by
      rw [h.core.fixed.zoneSize]
      rfl
    rw [if_neg (by simp [hnone]), hpages]
    rcases h.core.pages.pageAlloc L.zonePages_pos with
      ⟨-, heq⟩ | ⟨e, heap, es', heq, hlen, honly, hinv⟩
    · rw [heq]
      exact .inl rfl
    · have hrun : L.run e.start = e := Extent.ext rfl hlen.symm
      have haddr : addr e = pageAddr e.start := by rw [← L.addr_run, hrun]
      have hinside := hinv.inside mem_cons_self
      have hregion := hinv.in_region mem_cons_self
      have hkup : btokup { s with toPageHeap := heap } (pageAddr e.start) =
          L.usageWord e.start := by
        refine Fixed.btokup ⟨h.core.fixed.zoneSize, h.core.fixed.zoneLimit,
          h.core.fixed.zonePageCnt, h.core.fixed.memusage, h.core.fixed.heapStart⟩ hregion.1 ?_
        have := hinside.2
        unfold Extent.stop at this
        omega
      obtain ⟨hcore, hsame⟩ := h.core.newPages hlen honly hinv
      have hentries :
          setUsages heap.mem (L.usageWord e.start) .small (fun off => off) s.zonePageCnt =
          setUsages heap.mem (L.usageWord e.start) .small (fun off => off) L.zonePages := by
        rw [h.core.fixed.zonePageCnt]
      rw [heq, Option.bind_eq_bind, Option.bind_some]
      dsimp only
      rw [if_neg (addr_ne_zero hinside), haddr, hkup, hentries]
      refine .inr ⟨e.start, _, [], es', rfl, hcore, h.links.congr rfl fun v hv => ?_, rfl⟩
      have hsize := L.zoneSize_eq
      exact readLE_congr ((hsame v hv).mono (by omega) (by omega))

theorem malloc (h : Inv L s live zones cached chain es) (hpos : 1 ≤ n) (hlt : n < s.zoneLimit) :
    ∃ ptr s' zones' cached' chain' es', rtMalloc s n = some (ptr, s') ∧
      Inv L s' (if ptr = 0 then live else ⟨ptr, n⟩ :: live) zones' cached' chain' es' := by
  rw [h.core.fixed.zoneLimit] at hlt
  have hlt' : n < 16384 := by
    split at hlt
    all_goals omega
  obtain ⟨hsize, hle, hzi, hzi'⟩ := zoneindex_spec hpos hlt'
  have hclass : (zoneindex n).1 < L.classes := by
    unfold Layout.classes
    split
    · rename_i hmin
      rw [if_pos hmin] at hlt
      exact hzi' hlt
    · exact hzi
  rw [hsize] at hle
  unfold rtMalloc
  rw [h.core.fixed.zoneLimit, if_neg (by omega), if_neg (by omega)]
  dsimp only
  rw [hsize]
  generalize (zoneindex n).1 = zi at *
  cases hchain : chain zi with
  | cons p ps =>
    obtain ⟨v, zones', rfl, rfl, hfree, h'⟩ :=
      h.exists_zone (show p ∈ chain zi by rw [hchain]; exact mem_cons_self)
    have hhead : s.zoneArray v.zi = pageAddr v.page := by
      have hlist := h'.links.lists v.zi
      rw [hchain] at hlist
      exact hlist.1
    obtain ⟨ptr, s', v', chain', heq, hptr, hinv⟩ := h'.take hchain hfree hle
    rw [hhead, if_pos h'.zone_lt.1, heq]
    exact ⟨ptr, s', v' :: zones', cached, chain', es, rfl, by rwa [if_neg hptr]⟩
  | nil =>
    have hempty : s.zoneArray zi = 0 := by
      have hlist := h.links.lists zi
      rw [hchain] at hlist
      exact hlist
    rw [hempty, if_neg (by simp)]
    rcases h.zoneMemory_spec with heq | ⟨p, s', cached', es', heq, hcore, hlinks, harray⟩
    · rw [heq]
      exact ⟨0, s, _, _, _, _, rfl, h⟩
    · have hne := (hcore.zone_lt (Core.hole_mem mem_cons_self)).1
      obtain ⟨ptr, s'', v', chain', heq', hptr, hinv⟩ :=
        newZone hcore hlinks h.live hclass hle (by rw [harray, hempty]; decide)
      rw [heq, Option.bind_eq_bind, Option.bind_some]
      rw [if_neg hne, heq']
      exact ⟨ptr, s'', v' :: zones, cached', chain', es', rfl, by rwa [if_neg hptr]⟩

theorem put (h : Inv L s live (v :: zones) cached chain es) {c : Nat × Nat} (hc : c ∈ v.used) :
    ∃ chain', Inv L (putChunk s (pageAddr v.page) (v.chunk c.1))
      (live.erase ⟨v.chunk c.1, c.2⟩) (v.put c hc :: zones) cached chain' es := by
  obtain ⟨hne, hlt⟩ := h.zone_lt
  obtain ⟨m', heq, hzone, hlink, hwithin⟩ :=
    putChunk_spec (h.core.zones v mem_cons_self) hc hlt (h.zoneArray_lt v.zi)
  have hcore : ∀ a, Core L (s.change m' a) (v.put c hc :: zones) cached [] es := fun a =>
    (h.core.openZone.change_hole hwithin a).closeZone (v := v.put c hc) hzone
  have hlive : (live.erase ⟨v.chunk c.1, c.2⟩).Perm ((v.put c hc :: zones).flatMap Zone.live) := by
    have hused : v.live.Perm (⟨v.chunk c.1, c.2⟩ :: (v.put c hc).live) :=
      (perm_cons_erase hc).map fun d : Nat × Nat => (⟨v.chunk d.1, d.2⟩ : Chunk)
    have hperm := (h.live.trans (hused.append_right _)).erase ⟨v.chunk c.1, c.2⟩
    rwa [cons_append, erase_cons_head] at hperm
  have hlinks : ∀ w ∈ zones, m'.readLE 4 (pageAddr w.page + 12) = s.znext (pageAddr w.page) :=
    fun w hw => h.core.openZone.znext_eq mem_cons_self hwithin hw
  have hcount : (v.put c hc).nfree = v.nfree + 1 := rfl
  rw [heq]
  refine ⟨(if v.nfree = 0 then update chain v.zi (v.page :: chain v.zi) else chain), hcore _, ?_,
    hlive⟩
  by_cases hfull : v.nfree = 0
  · -- the zone was full, and gets into its list
    rw [if_pos hfull] at hlink
    rw [if_pos hfull, if_pos hfull]
    exact ((Links.full_iff hfull).mp h.links).push (v := v.put c hc) (by omega) hne hlink hlinks
  · rw [if_neg hfull] at hlink
    rw [if_neg hfull, if_neg hfull]
    refine Links.replace (h.links.congr rfl ?_) (show (v.put c hc).page = v.page from rfl)
      fun zi => ?_
    · exact forall_mem_cons.mpr ⟨hlink, hlinks⟩
    · refine decide_eq_decide.mpr (and_congr_right fun _ => ?_)
      omega

theorem zoneFree_lt (h : Inv L s live zones cached chain es) : s.zoneFree < 2 ^ 32 := by
  rcases h.core.cached.eq_or_mem with heq | hmem
  · rw [heq]
    decide
  · obtain ⟨p, hp, heq⟩ := mem_map.mp hmem
    have hlt := (h.core.zone_lt (Core.cached_mem hp)).2
    have hsize := L.zoneSize_eq
    rw [← heq]
    omega

theorem retire (h : Inv L s live (v :: zones) cached chain es) (hempty : v.used = []) :
    ∃ s' chain', unlinkZone s v.zi (pageAddr v.page) searchBound none = some s' ∧
      Inv L (retireZone s' (pageAddr v.page)) live zones (v.page :: cached) chain' es := by
  have hpos : 0 < v.nfree := by
    have hcount := v.nfree_add_used
    have hfit := L.chunks_fit v.zi_lt
    rw [hempty, length_nil] at hcount
    omega
  have hsize := L.zoneSize_eq
  have hmem : v.page ∈ chain v.zi :=
    h.links.mem_iff.mpr ⟨v, mem_cons_self, ⟨rfl, hpos⟩, rfl⟩
  obtain ⟨pre, post, hchain⟩ := append_of_mem hmem
  have hnodup := h.links.nodup h.core.nodup v.zi
  have hpre : v.page ∉ pre := by
    rw [hchain] at hnodup
    exact fun hp => (nodup_append.mp hnodup).2.2 _ hp _ mem_cons_self rfl
  -- the loop
  have hlist := h.links.lists v.zi
  have hfuel : (pre.map pageAddr).length < searchBound := by
    have hbound := length_lt_searchBound hnodup fun p hp => by
      obtain ⟨w, hw, -, rfl⟩ := h.links.mem_iff.mp hp
      have := h.core.page_mem (Core.zone_mem hw)
      omega
    rw [hchain, length_append] at hbound
    rw [length_map]
    omega
  have hz : pageAddr v.page ∉ pre.map pageAddr := by
    intro hmem
    obtain ⟨p, hp, heq⟩ := mem_map.mp hmem
    rw [pageAddr_eq, pageAddr_eq] at heq
    obtain rfl : p = v.page := by omega
    exact hpre hp
  rw [hchain, map_append, map_cons] at hlist
  refine ⟨_, update chain v.zi (pre ++ post),
    unlinkZone_spec (show ListAt s.mem 12 _ ([] ++ _ ++ _ :: _) from hlist) hz hfuel, ?_, ?_, ?_⟩
  · -- the memory: the link in front of the zone, and the zone itself
    refine (h.core.openZone.change ?_
      (s.setZoneLink (s.znext (pageAddr v.page)) v.zi
        (pre.map pageAddr).getLast?).zoneArray).pushCached (readLE_writeLE_word _ _ h.zoneFree_lt) _
    · intro x hhole hlink
      have hx := hhole v.page mem_cons_self
      change (((s.mem.linkStore 12 (s.zoneArray v.zi) (pre.map pageAddr).getLast?
        (s.znext (pageAddr v.page))).1.writeLE 4 (pageAddr v.page) (2 ^ 32 - 1)).writeLE 4
          (pageAddr v.page + 12) s.zoneFree) x = s.mem x
      rw [writeLE_apply_of_disjoint _ _ _ _ _ (by omega),
        writeLE_apply_of_disjoint _ _ _ _ _ (by omega)]
      refine linkStore_agreeOn (n := 1) (fun b hb => ?_) x le_rfl (Nat.lt_succ_self x)
      obtain ⟨p, hp, rfl⟩ := mem_map.mp hb
      obtain ⟨w, hw, -, rfl⟩ := h.links.mem_iff.mp
        (show p ∈ chain v.zi by rw [hchain]; exact mem_append_left _ hp)
      rcases mem_cons.mp hw with rfl | hw
      · exact absurd hp hpre
      · have := hlink w hw
        omega
  · refine (h.links.unlink hpos h.core.nodup hchain).congr rfl fun w hw => ?_
    have hapart := h.core.openZone.hole_apart mem_cons_self (mem_append_left _ (mem_map_of_mem hw))
    have hpages := L.zonePages_eq
    have haddr := pageAddr_eq v.page
    have haddr' := pageAddr_eq w.page
    refine (readLE_writeLE_of_disjoint _ (by omega)).trans ?_
    exact readLE_writeLE_of_disjoint _ (by omega)
  · have hlive := h.live
    rw [flatMap_cons] at hlive
    unfold Zone.live at hlive
    rwa [hempty] at hlive

theorem release (h : Inv L s live zones (p :: cached) chain es) :
    ∃ s' es', releaseZone s = some s' ∧ Inv L s' live zones cached chain es' := by
  obtain ⟨hp, -, -⟩ := h.core.cached
  have hpage := h.core.page_mem (Core.cached_mem mem_cons_self)
  have hcore := h.core.popCached (s.zoneFreeCnt - 1)
  have hkup := hcore.fixed.btokup hpage.2.1 (by omega)
  obtain ⟨heap, es', heq, hcore', hsame⟩ := hcore.releasePages
  have hpages : s.zoneSize / rtMmPageSize = L.zonePages := by
    rw [h.core.fixed.zoneSize]
    rfl
  have hsize := L.zoneSize_eq
  refine ⟨_, es', ?_, hcore', h.links.congr rfl fun v hv => ?_, h.live⟩
  · unfold releaseZone
    dsimp only
    rw [hp, hkup, h.core.fixed.zonePageCnt, hpages, heq]
    rfl
  · exact readLE_congr ((hsame v hv).mono (by omega) (by omega))

section
variable (h : Inv L s live zones cached chain es) {c : Chunk}
include h

theorem exists_chunk (hc : c ∈ live) :
    ∃ (v : Zone L) (zones' : List (Zone L)) (d : Nat × Nat), d ∈ v.used ∧
      c = ⟨v.chunk d.1, d.2⟩ ∧ zones.Perm (v :: zones') ∧
      Inv L s live (v :: zones') cached chain es := by
  obtain ⟨v, hv, hc'⟩ := mem_flatMap.mp (h.live.mem_iff.mp hc)
  obtain ⟨d, hd, rfl⟩ := mem_map.mp hc'
  obtain ⟨l, l', rfl⟩ := append_of_mem hv
  exact ⟨v, l ++ l', d, hd, rfl, perm_middle, h.perm perm_middle⟩

theorem entry_of_chunk (hv : v ∈ zones) {i : Nat} (hi : i < L.nmax v.zi) :
    s.kupType (s.btokup (v.chunk i / rtMmPageSize * rtMmPageSize)) = PageType.small.code ∧
      zoneOf s (v.chunk i) = pageAddr v.page := by
  obtain ⟨hlo, hhi⟩ := v.chunk_inside hi
  obtain ⟨hchunk, -⟩ := L.chunks_fit v.zi_lt
  have hpage := h.core.page_mem (Core.zone_mem hv)
  have hsize := L.zonePages_eq
  have hzone := pageAddr_eq v.page
  -- the page is some pages behind the first one of the zone
  obtain ⟨j, hj⟩ : ∃ j, v.chunk i / rtMmPageSize = v.page + j := by
    refine Nat.exists_eq_add_of_le ((Nat.le_div_iff_mul_le (by decide)).mpr ?_)
    rw [rtMmPageSize]
    omega
  have hj' : j < L.zonePages := by
    rw [rtMmPageSize] at hj
    omega
  have haddr : v.chunk i / rtMmPageSize * rtMmPageSize = pageAddr (v.page + j) := by
    rw [hj, pageAddr_eq, rtMmPageSize, Nat.mul_comm]
  have hkup : s.btokup (pageAddr (v.page + j)) = L.usageWord (v.page + j) :=
    h.core.fixed.btokup (by omega) (by omega)
  have hentry := h.core.usage v.page (Core.zone_mem hv) j hj'
  unfold zoneOf
  dsimp only
  rw [haddr, hkup]
  unfold SlabHeap.kupType SlabHeap.kupSize
  rw [hentry]
  constructor
  · change (4 * j + 1) % 4 = 1
    omega
  · have hoff : (4 * j + 1) / 4 * rtMmPageSize % 2 ^ 32 = 4096 * j := by
      rw [rtMmPageSize]
      omega
    rw [hoff, pageAddr_eq, sub32_of_le]
    omega

theorem free (hc : c ∈ live) : ∃ s' zones' cached' chain' es', rtFree s c.ptr = some s' ∧
      Inv L s' (live.erase c) zones' cached' chain' es' := by
  obtain ⟨v, zones', d, hd, rfl, -, h⟩ := h.exists_chunk hc
  have hle := v.lt_of_mem_used hd
  have huindex := v.uindex_lt
  obtain ⟨htype, hzone⟩ := h.entry_of_chunk mem_cons_self (i := d.1) (by omega)
  have hne := h.zone_lt.1
  have hinside := v.chunk_inside (i := d.1) (by omega)
  obtain ⟨chain', hput⟩ := h.put hd
  unfold rtFree
  dsimp only
  rw [if_neg (by omega), htype, if_neg (by decide), hzone]
  generalize putChunk s (pageAddr v.page) (v.chunk d.1) = s1 at hput ⊢
  have hheader := (hput.core.zones _ mem_cons_self).header
  have hnfree : s1.nfree (pageAddr v.page) = (v.put d hd).nfree := congrArg Header.nfree hheader
  have hnmax : s1.nmax (pageAddr v.page) = L.nmax v.zi := congrArg Header.nmax hheader
  have hindex : s1.zindex (pageAddr v.page) = v.zi := congrArg Header.zindex hheader
  rw [hnfree, hnmax, hindex]
  by_cases hlast : (v.put d hd).nfree = L.nmax v.zi ∧
      (s1.znext (pageAddr v.page) ≠ 0 ∨ s1.zoneArray v.zi ≠ pageAddr v.page)
  · rw [if_pos hlast]
    have hempty : (v.put d hd).used = [] := by
      have hcount := (v.put d hd).nfree_add_used
      have hmax : L.nmax (v.put d hd).zi = L.nmax v.zi := rfl
      exact eq_nil_of_length_eq_zero (by omega)
    obtain ⟨s2, chain2, heq, hretire⟩ := hput.retire hempty
    have heq' : unlinkZone s1 v.zi (pageAddr v.page) searchBound none = some s2 := heq
    rw [heq', Option.bind_eq_bind, Option.bind_some]
    by_cases hmany : 2 < (retireZone s2 (pageAddr v.page)).zoneFreeCnt
    · rw [if_pos hmany]
      obtain ⟨s3, es3, hrelease, hinv⟩ := hretire.release
      exact ⟨s3, _, _, _, _, hrelease, hinv⟩
    · rw [if_neg hmany]
      exact ⟨_, _, _, _, _, rfl, hretire⟩
  · rw [if_neg hlast]
    exact ⟨_, _, _, _, _, rfl, hput⟩

theorem store (hc : c ∈ live) {a : Nat}
    (hlo : c.ptr ≤ a) (hhi : a < c.ptr + c.size) (x : BitVec 8) :
    ∃ zones', Inv L { s with mem := update s.mem a x } live zones' cached chain es := by
  obtain ⟨v, zones', d, hd, rfl, -, h⟩ := h.exists_chunk hc
  have hle := v.lt_of_mem_used hd
  have huindex := v.uindex_lt
  have hsize := v.sizes d hd
  obtain ⟨hin, hin'⟩ := v.chunk_inside (i := d.1) (by omega)
  have hzone := h.core.zones v mem_cons_self
  dsimp only at hlo hhi
  unfold sizeofSlabZone at hin
  have hwithin : Within (pageAddr v.page) L.zoneSize s.mem (update s.mem a x) :=
    fun y hy => update_of_ne (by omega) _ _
  have hzone' : ZoneAt (update s.mem a x) v := by
    constructor
    · rw [← hzone.header]
      exact header_congr (update_agreeOn _ _ (by omega)) (update_agreeOn _ _ (by omega))
    · refine hzone.free.congr fun b hb => update_agreeOn _ _ ?_
      obtain ⟨j, hj, rfl⟩ := mem_map.mp hb
      have hne : d.1 ≠ j := fun heq => v.not_mem_free hd (heq ▸ hj)
      have hapart := v.chunk_apart hne
      obtain ⟨hchunk, -⟩ := L.chunks_fit v.zi_lt
      omega
  refine ⟨v :: zones', (h.core.openZone.change_hole hwithin s.zoneArray).closeZone hzone',
    ?_, h.live⟩
  refine h.links.congr rfl (forall_mem_cons.mpr ⟨?_, fun w hw => ?_⟩)
  · exact readLE_congr (update_agreeOn _ _ (by omega))
  · exact h.core.openZone.znext_eq mem_cons_self hwithin hw

end
end Inv
end RtThread.Slab
