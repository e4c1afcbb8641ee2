import RtThread.Slab.Heap
import RtThread.Slab.PageRun

/-!
# Zones

What is in memory for a zone: the words of its `slab_zone`, and the list of the chunks that have
been given back. The sizes of chunks and the layout of a zone are fixed by its index; each zone has
room for at least three chunks, behind its `slab_zone`.
-/

namespace RtThread.Slab
open ByteMem
open Function
open SlabHeap
open List

/-- The size of the chunks in the zones with an index: eight sizes up to 64, and then eight between
each power of two and the next. -/
def chunkSizeOf (zi : Nat) : Nat :=
  if zi < 8 then 8 * (zi + 1) else 2 ^ (zi / 8 + 2) * (zi % 8 + 9)

theorem chunkSizeOf_eq {k q : Nat} (hk : 3 ≤ k) (hlo : 8 ≤ q) (hhi : q ≤ 16) :
    chunkSizeOf (8 * (k - 3) + q - 1) = 2 ^ k * q := by
  obtain ⟨k, rfl⟩ := Nat.exists_eq_add_of_le' hk
  unfold chunkSizeOf
  rcases Nat.eq_or_lt_of_le hlo with rfl | hlo
  · -- the last size of the range below
    cases k with
    | zero => rfl
    | succ k =>
      have hdiv : (8 * (k + 1 + 3 - 3) + 8 - 1) / 8 + 2 = k + 3 := by omega
      have hmod : (8 * (k + 1 + 3 - 3) + 8 - 1) % 8 + 9 = 16 := by omega
      rw [if_neg (by omega), hdiv, hmod, Nat.pow_succ 2 (k + 3), Nat.mul_assoc]
  · have hdiv : (8 * (k + 3 - 3) + q - 1) / 8 + 2 = k + 3 := by omega
    have hmod : (8 * (k + 3 - 3) + q - 1) % 8 + 9 = q := by omega
    rw [if_neg (by omega), hdiv, hmod]

/-- A branch of `zoneindex`: the sizes from `8 * 2 ^ k` on, in steps of `2 ^ k`. -/
theorem zoneindex_range {n k d : Nat} (hk : 3 ≤ k) (hk' : k ≤ 10) (hd : d = 8 * (k - 3) - 1)
    (hpos : 0 < d) (hlo : 8 * 2 ^ k ≤ n) (hhi : n < 16 * 2 ^ k) :
    rtAlign n (2 ^ k) = chunkSizeOf (rtAlign n (2 ^ k) / 2 ^ k + d) ∧ n ≤ rtAlign n (2 ^ k) ∧
      rtAlign n (2 ^ k) / 2 ^ k ≤ 16 := by
  have hstep : 0 < 2 ^ k := Nat.two_pow_pos k
  have hstep' : 2 ^ k ≤ 2 ^ 10 := Nat.pow_le_pow_right (by decide) hk'
  have hdiv := Nat.div_add_mod (n + 2 ^ k - 1) (2 ^ k)
  have hq : 8 ≤ (n + 2 ^ k - 1) / 2 ^ k := (Nat.le_div_iff_mul_le hstep).mpr (by omega)
  have hq' : (n + 2 ^ k - 1) / 2 ^ k < 17 := (Nat.div_lt_iff_lt_mul hstep).mpr (by omega)
  rw [rtAlign_two_pow n (by omega), Nat.mod_eq_of_lt (by omega), Nat.mul_div_cancel _ hstep]
  generalize (n + 2 ^ k - 1) / 2 ^ k = q at *
  have hindex : q + d = 8 * (k - 3) + q - 1 := by omega
  rw [hindex, chunkSizeOf_eq hk hq (by omega), Nat.mul_comm q]
  exact ⟨rfl, by omega, by omega⟩

theorem zoneindex_spec {n : Nat} (hpos : 1 ≤ n) (hlt : n < 16384) :
    (zoneindex n).2 = chunkSizeOf (zoneindex n).1 ∧ n ≤ (zoneindex n).2 ∧
      (zoneindex n).1 < nzones ∧ (n < 8192 → (zoneindex n).1 < 64) := by
  have hrange : ∀ k d, 4 ≤ k ∧ k ≤ 10 ∧ d = 8 * (k - 3) - 1 → 8 * 2 ^ k ≤ n ∧ n < 16 * 2 ^ k →
      rtAlign n (2 ^ k) = chunkSizeOf (rtAlign n (2 ^ k) / 2 ^ k + d) ∧ n ≤ rtAlign n (2 ^ k) ∧
        rtAlign n (2 ^ k) / 2 ^ k + d < nzones ∧
        (n < 8192 → rtAlign n (2 ^ k) / 2 ^ k + d < 64) := by
    intro k d ⟨hk, hk', hd⟩ ⟨hlo, hhi⟩
    obtain ⟨hsize, hle, hq⟩ := zoneindex_range (by omega) hk' hd (by omega) hlo hhi
    unfold nzones
    refine ⟨hsize, hle, by omega, fun hn => ?_⟩
    have hne : k ≠ 10 := by
      rintro rfl
      omega
    omega
  unfold zoneindex
  split_ifs
  · have hsmall : ∀ q, 1 ≤ q → q ≤ 16 → 8 * q = chunkSizeOf (q - 1) := by decide
    have halign := rtAlign_eight n
    rw [Nat.mod_eq_of_lt (by omega)] at halign
    rw [halign]
    dsimp only
    rw [Nat.mul_div_cancel _ (by decide), sub32_of_le, Nat.mul_comm]
    unfold nzones
    exact ⟨hsmall _ (by omega) (by omega), by omega, by omega, by omega⟩
  · exact hrange 4 7 (by decide) (by omega)
  · exact hrange 5 15 (by decide) (by omega)
  · exact hrange 6 23 (by decide) (by omega)
  · exact hrange 7 31 (by decide) (by omega)
  · exact hrange 8 39 (by decide) (by omega)
  · exact hrange 9 47 (by decide) (by omega)
  · exact hrange 10 55 (by decide) (by omega)

theorem zoneOffset_spec : ∀ zi < nzones,
    8 ≤ chunkSizeOf zi ∧ chunkSizeOf zi ≤ 16384 ∧ sizeofSlabZone ≤ zoneOffset (chunkSizeOf zi) ∧
      zoneOffset (chunkSizeOf zi) + 3 * chunkSizeOf zi ≤ (if zi < 64 then 32768 else 65536) := by
  decide +kernel

/-- What is fixed by `rt_system_heap_init`: the pages of the heap, those of `memusage`, which has an
entry for each page, and the size of a zone. -/
structure Layout where
  region : PageRegion
  usage : Extent
  zoneSize : Nat
  zoneSize_eq : zoneSize = 32768 ∨ zoneSize = 65536 ∨ zoneSize = 131072
  usage_len : region.len ≤ 1024 * usage.len

namespace Layout
variable (L : Layout) {zi : Nat}

def zonePages : Nat := L.zoneSize / rtMmPageSize

/-- The number of sizes that are served from zones. -/
def classes : Nat := if L.zoneSize = 32768 then 64 else nzones

def nmax (zi : Nat) : Nat := (L.zoneSize - zoneOffset (chunkSizeOf zi)) / chunkSizeOf zi

/-- The pages of the zone that starts at a page. -/
def run (page : Nat) : Extent := ⟨page, L.zonePages⟩

theorem zonePages_eq : L.zoneSize = 4096 * L.zonePages := by
  have := L.zoneSize_eq
  unfold zonePages rtMmPageSize
  omega

theorem zonePages_pos : 0 < L.zonePages := by
  have := L.zoneSize_eq
  unfold zonePages rtMmPageSize
  omega

theorem classes_le : L.classes ≤ nzones := by
  unfold classes nzones
  split
  all_goals omega

theorem chunks_fit (hzi : zi < L.classes) :
    8 ≤ chunkSizeOf zi ∧ chunkSizeOf zi ≤ 16384 ∧ sizeofSlabZone ≤ zoneOffset (chunkSizeOf zi) ∧
      3 ≤ L.nmax zi ∧ zoneOffset (chunkSizeOf zi) + L.nmax zi * chunkSizeOf zi ≤ L.zoneSize := by
  obtain ⟨hlo, hhi, hoff, hroom⟩ :=
    zoneOffset_spec zi (Nat.lt_of_lt_of_le hzi L.classes_le)
  have hsize := L.zoneSize_eq
  have hroom' : zoneOffset (chunkSizeOf zi) + 3 * chunkSizeOf zi ≤ L.zoneSize := by
    refine Nat.le_trans hroom ?_
    unfold classes at hzi
    split at hzi
    · rw [if_pos hzi]
      omega
    · split
      all_goals omega
  refine ⟨hlo, hhi, hoff, ?_, ?_⟩
  · exact (Nat.le_div_iff_mul_le (by omega)).mpr (by omega)
  · have := Nat.div_mul_le_self (L.zoneSize - zoneOffset (chunkSizeOf zi)) (chunkSizeOf zi)
    unfold nmax
    omega

end Layout

@[irreducible] def pageAddr (page : Nat) : Nat := rtMmPageSize * page

theorem pageAddr_eq (page : Nat) : pageAddr page = 4096 * page := by
  rw [pageAddr, rtMmPageSize]

/-- A zone in use: its first page, the index of its size, the last chunk that has ever been handed
out, the chunks that are in use with the sizes that were asked for, and those that were given back.
-/
structure Zone (L : Layout) where
  page : Nat
  zi : Nat
  uindex : Nat
  used : List (Nat × Nat)
  free : List Nat
  zi_lt : zi < L.classes
  uindex_lt : uindex < L.nmax zi
  chunks : (used.map Prod.fst ++ free).Perm (List.range (uindex + 1))
  sizes : ∀ c ∈ used, c.2 ≤ chunkSizeOf zi

/-- A chunk of memory that `rt_malloc` has returned, and the size that was asked for. -/
@[ext] structure Chunk where
  ptr : Nat
  size : Nat
  deriving DecidableEq

/-- The words of a `slab_zone` other than `z_magic` and `z_next`. -/
@[ext] structure Header where
  nfree : Nat
  nmax : Nat
  baseptr : Nat
  uindex : Nat
  chunksize : Nat
  zindex : Nat
  freechunk : Nat

/-- The words of the `slab_zone` at `z`. -/
def header (m : ByteMem) (z : Nat) : Header :=
  ⟨m.readLE 4 (z + 4), m.readLE 4 (z + 8), m.readLE 4 (z + 16), m.readLE 4 (z + 20),
    m.readLE 4 (z + 24), m.readLE 4 (z + 28), m.readLE 4 (z + 32)⟩

namespace Zone
variable {L : Layout} (v : Zone L) {i j : Nat}

def nfree : Nat := L.nmax v.zi - v.uindex - 1 + v.free.length

def base : Nat := pageAddr v.page + zoneOffset (chunkSizeOf v.zi)

def chunk (i : Nat) : Nat := v.base + i * chunkSizeOf v.zi

def live : List Chunk := v.used.map fun c => ⟨v.chunk c.1, c.2⟩

/-- The words that describe the zone. -/
def header : Header :=
  ⟨v.nfree, L.nmax v.zi, v.base, v.uindex, chunkSizeOf v.zi, v.zi, (v.free.map v.chunk).headD 0⟩

theorem nfree_add_used : v.nfree + v.used.length = L.nmax v.zi := by
  have hlen := v.chunks.length_eq
  have hlt := v.uindex_lt
  rw [length_append, length_map, length_range] at hlen
  unfold nfree
  omega

theorem lt_of_mem_free (hi : i ∈ v.free) : i < L.nmax v.zi := by
  have hmem := v.chunks.mem_iff.mp (mem_append_right _ hi)
  rw [mem_range] at hmem
  have := v.uindex_lt
  omega

theorem lt_of_mem_used {c : Nat × Nat} (hc : c ∈ v.used) : c.1 ≤ v.uindex := by
  have hmem := v.chunks.mem_iff.mp (mem_append_left _ (mem_map_of_mem hc))
  rw [mem_range] at hmem
  omega

theorem chunk_inside (hi : i < L.nmax v.zi) : pageAddr v.page + sizeofSlabZone ≤ v.chunk i ∧
    v.chunk i + chunkSizeOf v.zi ≤ pageAddr v.page + L.zoneSize := by
  obtain ⟨-, -, hoff, -, hend⟩ := L.chunks_fit v.zi_lt
  have hmul : (i + 1) * chunkSizeOf v.zi ≤ L.nmax v.zi * chunkSizeOf v.zi :=
    Nat.mul_le_mul_right _ hi
  rw [Nat.add_mul, Nat.one_mul] at hmul
  unfold chunk base
  omega

theorem chunk_apart (hij : i ≠ j) : v.chunk i + chunkSizeOf v.zi ≤ v.chunk j ∨
    v.chunk j + chunkSizeOf v.zi ≤ v.chunk i := by
  unfold chunk
  rcases Nat.lt_or_gt_of_ne hij with hlt | hlt
  · have hmul : (i + 1) * chunkSizeOf v.zi ≤ j * chunkSizeOf v.zi := Nat.mul_le_mul_right _ hlt
    rw [Nat.add_mul, Nat.one_mul] at hmul
    omega
  · have hmul : (j + 1) * chunkSizeOf v.zi ≤ i * chunkSizeOf v.zi := Nat.mul_le_mul_right _ hlt
    rw [Nat.add_mul, Nat.one_mul] at hmul
    omega

theorem chunk_injective : Function.Injective v.chunk := by
  intro i j heq
  obtain ⟨hsize, -⟩ := L.chunks_fit v.zi_lt
  by_contra hij
  have := v.chunk_apart hij
  omega

end Zone

/-- The zone is in memory. -/
structure ZoneAt {L : Layout} (m : ByteMem) (v : Zone L) : Prop where
  header : header m (pageAddr v.page) = v.header
  free : ListAt m 0 v.header.freechunk (v.free.map v.chunk)

/-- The state with other memory and another `zone_array`. -/
def SlabHeap.change (s : SlabHeap) (m : ByteMem) (zoneArray : Nat → Nat) : SlabHeap :=
  { s with mem := m, zoneArray := zoneArray }

section Header
variable {m m' : ByteMem} {z w : Nat}

theorem header_congr (hlo : AgreeOn m' m (z + 4) 8) (hhi : AgreeOn m' m (z + 16) 20) :
    header m' z = header m z := by
  have hread : ∀ a, z + 4 ≤ a ∧ a + 4 ≤ z + 12 ∨ z + 16 ≤ a ∧ a + 4 ≤ z + 36 →
      m'.readLE 4 a = m.readLE 4 a := by
    rintro a (⟨hlo', hhi'⟩ | ⟨hlo', hhi'⟩)
    · exact readLE_congr (hlo.mono hlo' (by omega))
    · exact readLE_congr (hhi.mono hlo' (by omega))
  simp only [header]
  rw [hread (z + 4) (by omega), hread (z + 8) (by omega), hread (z + 16) (by omega),
    hread (z + 20) (by omega), hread (z + 24) (by omega), hread (z + 28) (by omega),
    hread (z + 32) (by omega)]

variable (m z)

theorem header_write_nfree (hw : w < 2 ^ 32) :
    header (m.writeLE 4 (z + 4) w) z = { header m z with nfree := w } := by
  simp (disch := omega) only [header, readLE_writeLE_of_disjoint, readLE_writeLE_word]

theorem header_write_uindex (hw : w < 2 ^ 32) :
    header (m.writeLE 4 (z + 20) w) z = { header m z with uindex := w } := by
  simp (disch := omega) only [header, readLE_writeLE_of_disjoint, readLE_writeLE_word]

theorem header_write_freechunk (hw : w < 2 ^ 32) :
    header (m.writeLE 4 (z + 32) w) z = { header m z with freechunk := w } := by
  simp (disch := omega) only [header, readLE_writeLE_of_disjoint, readLE_writeLE_word]

theorem within_writeLE {off : Nat} (hoff : off + 4 ≤ sizeofSlabZone := by decide) :
    Within z sizeofSlabZone m (m.writeLE 4 (z + off) w) :=
  Within.writeLE m (by omega) (by omega)

theorem header_write_other {a : Nat} (ha : a = z + 12 ∨ z + sizeofSlabZone ≤ a) :
    header (m.writeLE 4 a w) z = header m z := by
  unfold sizeofSlabZone at ha
  apply header_congr
  all_goals
    apply writeLE_agreeOn
    omega

end Header

section Take
variable {L : Layout} {s : SlabHeap} {v : Zone L} {n : Nat}

theorem countTaken_spec (s : SlabHeap) (z zi : Nat) (hpos : 0 < s.nfree z) :
    ∃ m', countTaken s z zi = s.change m'
        (if s.nfree z = 1 then update s.zoneArray zi (s.znext z) else s.zoneArray) ∧
      header m' z = { header s.mem z with nfree := s.nfree z - 1 } ∧
      m'.readLE 4 (z + 12) = (if s.nfree z = 1 then 0 else s.znext z) ∧
      Within z sizeofSlabZone s.mem m' := by
  have hlt : s.nfree z < 2 ^ 32 := readLE_word_lt _ _
  have hcount : sub32 (s.nfree z) 1 = s.nfree z - 1 := sub32_of_le hpos hlt
  have hheader := header_write_nfree s.mem z (w := s.nfree z - 1) (by omega)
  have hlink : (s.mem.writeLE 4 (z + 4) (s.nfree z - 1)).readLE 4 (z + 12) = s.znext z :=
    readLE_writeLE_of_disjoint _ (by omega)
  have hwithin : Within z sizeofSlabZone s.mem (s.mem.writeLE 4 (z + 4) (s.nfree z - 1)) :=
    within_writeLE _ _
  have hread : (s.setNfree z (s.nfree z - 1)).nfree z = s.nfree z - 1 :=
    readLE_writeLE_word _ _ (by omega)
  unfold countTaken
  dsimp only
  rw [hcount, hread]
  by_cases hlast : s.nfree z = 1
  · rw [if_pos (by omega), if_pos hlast, if_pos hlast]
    refine ⟨(s.mem.writeLE 4 (z + 4) (s.nfree z - 1)).writeLE 4 (z + 12) 0, ?_, ?_, ?_, ?_⟩
    · unfold setNfree setZoneArray setZnext znext
      rw [hlink]
      rfl
    · rw [header_write_other _ _ (.inl rfl), hheader]
    · exact readLE_writeLE_word _ _ (by decide)
    · exact hwithin.trans (within_writeLE _ _)
  · rw [if_neg (by omega), if_neg hlast, if_neg hlast]
    exact ⟨_, rfl, hheader, hlink, hwithin⟩

theorem ZoneAt.free_within {m m' : ByteMem} {p : Nat} (h : ListAt m 0 p (v.free.map v.chunk))
    (hwithin : Within (pageAddr v.page) sizeofSlabZone m m') :
    ListAt m' 0 p (v.free.map v.chunk) := by
  refine h.congr fun a ha => hwithin.agreeOn (.inr ?_)
  obtain ⟨i, hi, rfl⟩ := mem_map.mp ha
  have := (v.chunk_inside (v.lt_of_mem_free hi)).1
  omega

/-- The chunk behind the last one that has ever been handed out. -/
def Zone.takeNew (v : Zone L) (n : Nat) (hn : n ≤ chunkSizeOf v.zi)
    (hroom : v.uindex + 1 < L.nmax v.zi) : Zone L :=
  { v with
    uindex := v.uindex + 1
    used := (v.uindex + 1, n) :: v.used
    uindex_lt := hroom
    chunks := by
      rw [range_succ]
      exact (v.chunks.cons _).trans (perm_append_singleton _ _).symm
    sizes := forall_mem_cons.mpr ⟨hn, v.sizes⟩ }

/-- The first chunk of the list. -/
def Zone.takeFree (v : Zone L) (n : Nat) (hn : n ≤ chunkSizeOf v.zi) {i : Nat} {free : List Nat}
    (hfree : v.free = i :: free) : Zone L :=
  { v with
    used := (i, n) :: v.used
    free := free
    chunks := by
      have hchunks := v.chunks
      rw [hfree] at hchunks
      exact perm_middle.symm.trans hchunks
    sizes := forall_mem_cons.mpr ⟨hn, v.sizes⟩ }

/-- What taking a chunk from a zone does. -/
structure Taken (v v' : Zone L) (n i : Nat) : Prop where
  page : v'.page = v.page
  zi : v'.zi = v.zi
  used : v'.used = (i, n) :: v.used

theorem Taken.chunk {v' : Zone L} {i : Nat} (h : Taken v v' n i) : v'.chunk = v.chunk := by
  unfold Zone.chunk Zone.base
  rw [h.page, h.zi]

theorem nextChunk_spec (hheader : header s.mem (pageAddr v.page) =
      { v.header with nfree := v.nfree - 1 })
    (hlist : ListAt s.mem 0 v.header.freechunk (v.free.map v.chunk)) (hpos : 0 < v.nfree)
    (hlt : pageAddr v.page + L.zoneSize ≤ 2 ^ 32) (hn : n ≤ chunkSizeOf v.zi) :
    ∃ v' i m', nextChunk s (pageAddr v.page) (chunkSizeOf v.zi) =
        (v.chunk i, s.change m' s.zoneArray) ∧
      Taken v v' n i ∧ ZoneAt m' v' ∧
      m'.readLE 4 (pageAddr v.page + 12) = s.znext (pageAddr v.page) ∧
      Within (pageAddr v.page) sizeofSlabZone s.mem m' := by
  have huindex : s.uindex (pageAddr v.page) = v.uindex := congrArg Header.uindex hheader
  have hnmax : s.nmax (pageAddr v.page) = L.nmax v.zi := congrArg Header.nmax hheader
  have hbase : s.baseptr (pageAddr v.page) = v.base := congrArg Header.baseptr hheader
  have hfreechunk : s.freechunk (pageAddr v.page) = v.header.freechunk :=
    congrArg Header.freechunk hheader
  obtain ⟨hsize, -, -, -, hend⟩ := L.chunks_fit v.zi_lt
  have hmax : L.nmax v.zi ≤ L.nmax v.zi * chunkSizeOf v.zi := Nat.le_mul_of_pos_right _ (by omega)
  have huindexlt := v.uindex_lt
  have hzone := L.zoneSize_eq
  unfold nextChunk
  rw [huindex, hnmax, Nat.mod_eq_of_lt (by omega)]
  by_cases hroom : v.uindex + 1 < L.nmax v.zi
  · have hread : (s.setUindex (pageAddr v.page) (v.uindex + 1)).uindex (pageAddr v.page) =
        v.uindex + 1 := readLE_writeLE_word _ _ (by omega)
    have hread' : (s.setUindex (pageAddr v.page) (v.uindex + 1)).baseptr (pageAddr v.page) =
        v.base := (readLE_writeLE_of_disjoint _ (by omega)).trans hbase
    have hptr := (v.chunk_inside hroom).2
    have hwithin : Within (pageAddr v.page) sizeofSlabZone s.mem
        (s.mem.writeLE 4 (pageAddr v.page + 20) (v.uindex + 1)) :=
      within_writeLE _ _
    rw [if_pos (by omega)]
    dsimp only
    rw [hread, hread']
    refine ⟨v.takeNew n hn hroom, v.uindex + 1, _, ?_, ⟨rfl, rfl, rfl⟩, ⟨?_, ?_⟩, ?_, hwithin⟩
    · rw [← Zone.chunk, Nat.mod_eq_of_lt (by omega)]
      rfl
    · have hnfree : v.nfree - 1 = (v.takeNew n hn hroom).nfree := by
        unfold Zone.nfree Zone.takeNew
        dsimp only
        omega
      refine (header_write_uindex _ _ (by omega)).trans ?_
      rw [hheader, hnfree]
      rfl
    · exact ZoneAt.free_within hlist hwithin
    · exact readLE_writeLE_of_disjoint _ (by omega)
  · -- all chunks have been handed out once, so there is one in the list
    cases hfree : v.free with
    | nil =>
      unfold Zone.nfree at hpos
      rw [hfree, length_nil] at hpos
      omega
    | cons i free =>
      rw [hfree] at hlist
      obtain ⟨hp, -, htail⟩ := hlist
      have hnext : s.mem.readLE 4 (v.chunk i) = (free.map v.chunk).headD 0 :=
        ListAt.eq_headD htail
      have hnextlt : (free.map v.chunk).headD 0 < 2 ^ 32 := hnext ▸ readLE_word_lt _ _
      have hwithin : Within (pageAddr v.page) sizeofSlabZone s.mem
          (s.mem.writeLE 4 (pageAddr v.page + 32) ((free.map v.chunk).headD 0)) :=
        within_writeLE _ _
      rw [if_neg (by omega)]
      dsimp only
      rw [hfreechunk, hp, hnext]
      refine ⟨v.takeFree n hn hfree, i, _, rfl, ⟨rfl, rfl, rfl⟩, ⟨?_, ?_⟩, ?_, hwithin⟩
      · have hnfree : v.nfree - 1 = (v.takeFree n hn hfree).nfree := by
          unfold Zone.nfree Zone.takeFree
          dsimp only
          rw [hfree, length_cons]
          omega
        refine (header_write_freechunk _ _ hnextlt).trans ?_
        rw [hheader, hnfree]
        rfl
      · refine ZoneAt.free_within ?_ hwithin
        have htail' := htail
        rw [Nat.add_zero, hnext] at htail'
        exact htail'
      · exact readLE_writeLE_of_disjoint _ (by omega)

theorem takeChunk_spec (h : ZoneAt s.mem v) (hpos : 0 < v.nfree)
    (hlt : pageAddr v.page + L.zoneSize ≤ 2 ^ 32) (hn : n ≤ chunkSizeOf v.zi) :
    ∃ v' i m', takeChunk s (pageAddr v.page) v.zi (chunkSizeOf v.zi) =
        (v.chunk i, s.change m' (if v.nfree = 1
          then update s.zoneArray v.zi (s.znext (pageAddr v.page)) else s.zoneArray)) ∧
      Taken v v' n i ∧ ZoneAt m' v' ∧
      m'.readLE 4 (pageAddr v.page + 12) = (if v.nfree = 1 then 0 else s.znext (pageAddr v.page)) ∧
      Within (pageAddr v.page) sizeofSlabZone s.mem m' := by
  have hnfree : s.nfree (pageAddr v.page) = v.nfree := congrArg Header.nfree h.header
  obtain ⟨m1, heq, hheader, hlink, hwithin⟩ :=
    countTaken_spec s (pageAddr v.page) v.zi (by rw [hnfree]; exact hpos)
  rw [hnfree, h.header] at hheader
  rw [hnfree] at heq hlink
  unfold takeChunk
  rw [heq]
  obtain ⟨v', i, m2, heq', htaken, hzone, hlink', hwithin'⟩ :=
    nextChunk_spec (s := s.change m1 _) hheader (ZoneAt.free_within h.free hwithin) hpos hlt hn
  exact ⟨v', i, m2, heq', htaken, hzone, hlink'.trans hlink, hwithin.trans hwithin'⟩

end Take

section Put
variable {L : Layout} {s : SlabHeap} {v : Zone L} {c : Nat × Nat}

/-- A chunk that is in use is put into the list. -/
def Zone.put (v : Zone L) (c : Nat × Nat) (hc : c ∈ v.used) : Zone L :=
  { v with
    used := v.used.erase c
    free := c.1 :: v.free
    chunks := by
      have hused := ((perm_cons_erase hc).map Prod.fst).symm
      exact perm_middle.trans ((hused.append_right v.free).trans v.chunks)
    sizes := fun d hd => v.sizes d (mem_of_mem_erase hd) }

theorem Zone.not_mem_free (v : Zone L) (hc : c ∈ v.used) : c.1 ∉ v.free := by
  have hnodup : (v.used.map Prod.fst ++ v.free).Nodup :=
    v.chunks.nodup_iff.mpr nodup_range
  exact disjoint_of_nodup_append hnodup (mem_map_of_mem hc)

theorem pushChunk_spec (h : ZoneAt s.mem v) (hc : c ∈ v.used)
    (hlt : pageAddr v.page + L.zoneSize ≤ 2 ^ 32) :
    ∃ m', pushChunk s (pageAddr v.page) (v.chunk c.1) = s.change m' s.zoneArray ∧
      header m' (pageAddr v.page) = { v.header with freechunk := v.chunk c.1 } ∧
      ListAt m' 0 (v.chunk c.1) ((v.put c hc).free.map v.chunk) ∧
      m'.readLE 4 (pageAddr v.page + 12) = s.znext (pageAddr v.page) ∧
      Within (pageAddr v.page) L.zoneSize s.mem m' := by
  have hfreechunk : s.freechunk (pageAddr v.page) = v.header.freechunk :=
    congrArg Header.freechunk h.header
  have huindex := v.uindex_lt
  have hle := v.lt_of_mem_used hc
  obtain ⟨hsize, -, -, -, -⟩ := L.chunks_fit v.zi_lt
  obtain ⟨hlo, hhi⟩ := v.chunk_inside (i := c.1) (by omega)
  have hpush : ListAt (s.mem.writeLE 4 (v.chunk c.1 + 0) v.header.freechunk) 0 (v.chunk c.1)
      (v.chunk c.1 :: v.free.map v.chunk) := by
    unfold sizeofSlabZone at hlo
    refine h.free.push (by omega) (hfreechunk ▸ readLE_word_lt _ _) fun b hb => ?_
    obtain ⟨j, hj, rfl⟩ := mem_map.mp hb
    have hne : c.1 ≠ j := fun heq => v.not_mem_free hc (heq ▸ hj)
    have := v.chunk_apart hne
    omega
  unfold pushChunk
  rw [hfreechunk]
  unfold sizeofSlabZone at hlo
  refine ⟨_, rfl, ?_, ?_, ?_, ?_⟩
  · refine (header_write_freechunk _ _ (by omega)).trans ?_
    rw [header_write_other _ _ (.inr hlo), h.header]
  · have hwithin : Within (pageAddr v.page) sizeofSlabZone
        (s.mem.writeLE 4 (v.chunk c.1) v.header.freechunk)
        ((s.mem.writeLE 4 (v.chunk c.1) v.header.freechunk).writeLE 4 (pageAddr v.page + 32)
          (v.chunk c.1)) :=
      within_writeLE _ _
    exact ZoneAt.free_within (v := v.put c hc) hpush hwithin
  · refine (readLE_writeLE_of_disjoint _ (by omega)).trans ?_
    exact readLE_writeLE_of_disjoint _ (by omega)
  · refine Within.trans (Within.writeLE _ (by omega) (by omega))
      (Within.writeLE _ (by omega) (by omega))

theorem countPut_spec (s : SlabHeap) (z : Nat) (hlt : s.nfree z + 1 < 2 ^ 32)
    (harray : s.zoneArray (s.zindex z) < 2 ^ 32) :
    ∃ m', countPut s z = s.change m' (if s.nfree z = 0
        then update s.zoneArray (s.zindex z) z else s.zoneArray) ∧
      header m' z = { header s.mem z with nfree := s.nfree z + 1 } ∧
      m'.readLE 4 (z + 12) = (if s.nfree z = 0 then s.zoneArray (s.zindex z) else s.znext z) ∧
      Within z sizeofSlabZone s.mem m' := by
  have hheader := header_write_nfree s.mem z hlt
  have hwithin : Within z sizeofSlabZone s.mem (s.mem.writeLE 4 (z + 4) (s.nfree z + 1)) :=
    within_writeLE _ _
  have hindex : (s.mem.writeLE 4 (z + 4) (s.nfree z + 1)).readLE 4 (z + 28) = s.zindex z :=
    readLE_writeLE_of_disjoint _ (by omega)
  unfold countPut
  dsimp only
  rw [Nat.mod_eq_of_lt hlt]
  by_cases hfirst : s.nfree z = 0
  · rw [if_pos hfirst, if_pos hfirst, if_pos hfirst]
    have hindex' : ((s.mem.writeLE 4 (z + 4) (s.nfree z + 1)).writeLE 4 (z + 12)
        (s.zoneArray (s.zindex z))).readLE 4 (z + 28) = s.zindex z := by
      rw [readLE_writeLE_of_disjoint _ (by omega), hindex]
    refine ⟨(s.mem.writeLE 4 (z + 4) (s.nfree z + 1)).writeLE 4 (z + 12)
      (s.zoneArray (s.zindex z)), ?_, ?_, ?_, ?_⟩
    · unfold setNfree setZnext zindex setZoneArray
      rw [hindex, hindex']
      rfl
    · rw [header_write_other _ _ (.inl rfl), hheader]
    · exact readLE_writeLE_word _ _ harray
    · exact hwithin.trans (within_writeLE _ _)
  · rw [if_neg hfirst, if_neg hfirst, if_neg hfirst]
    exact ⟨_, rfl, hheader, readLE_writeLE_of_disjoint _ (by omega), hwithin⟩

theorem putChunk_spec (h : ZoneAt s.mem v) (hc : c ∈ v.used)
    (hlt : pageAddr v.page + L.zoneSize ≤ 2 ^ 32) (harray : s.zoneArray v.zi < 2 ^ 32) :
    ∃ m', putChunk s (pageAddr v.page) (v.chunk c.1) = s.change m' (if v.nfree = 0
        then update s.zoneArray v.zi (pageAddr v.page) else s.zoneArray) ∧
      ZoneAt m' (v.put c hc) ∧
      m'.readLE 4 (pageAddr v.page + 12) =
        (if v.nfree = 0 then s.zoneArray v.zi else s.znext (pageAddr v.page)) ∧
      Within (pageAddr v.page) L.zoneSize s.mem m' := by
  obtain ⟨m1, heq, hheader, hlist, hlink, hwithin⟩ := pushChunk_spec h hc hlt
  have hnfree : (s.change m1 s.zoneArray).nfree (pageAddr v.page) = v.nfree :=
    congrArg Header.nfree hheader
  have hindex : (s.change m1 s.zoneArray).zindex (pageAddr v.page) = v.zi :=
    congrArg Header.zindex hheader
  have hcount := v.nfree_add_used
  obtain ⟨hsize, -, -, -, hend⟩ := L.chunks_fit v.zi_lt
  have hmax : L.nmax v.zi ≤ L.nmax v.zi * chunkSizeOf v.zi := Nat.le_mul_of_pos_right _ (by omega)
  have hzone := L.zoneSize_eq
  obtain ⟨m2, heq', hheader', hlink', hwithin'⟩ :=
    countPut_spec (s.change m1 s.zoneArray) (pageAddr v.page) (by omega)
      (by rw [hindex]; exact harray)
  rw [hnfree, hindex] at heq' hlink'
  rw [hnfree] at hheader'
  unfold putChunk
  rw [heq]
  refine ⟨m2, heq', ⟨?_, ?_⟩, hlink'.trans ?_, ?_⟩
  · refine hheader'.trans ?_
    change { header m1 (pageAddr v.page) with nfree := v.nfree + 1 } = _
    rw [hheader]
    rfl
  · exact ZoneAt.free_within hlist hwithin'
  · split
    · rfl
    · exact hlink
  · exact hwithin.trans (hwithin'.mono le_rfl (by unfold sizeofSlabZone; omega))

end Put

section Init
variable {L : Layout} {s : SlabHeap} {page zi n : Nat}

/-- A zone whose first chunk is in use. -/
def Zone.fresh (page : Nat) (hzi : zi < L.classes) (hn : n ≤ chunkSizeOf zi) : Zone L where
  page := page
  zi := zi
  uindex := 0
  used := [(0, n)]
  free := []
  zi_lt := hzi
  uindex_lt := by
    have := L.chunks_fit hzi
    omega
  chunks := List.Perm.refl _
  sizes := by simpa using hn

theorem initZone_spec (hsize : s.zoneSize = L.zoneSize) (hzi : zi < L.classes)
    (hn : n ≤ chunkSizeOf zi) (hlt : pageAddr page + L.zoneSize ≤ 2 ^ 32)
    (harray : s.zoneArray zi < 2 ^ 32) :
    ∃ m', initZone s (pageAddr page) zi (chunkSizeOf zi) =
        ((Zone.fresh (L := L) page hzi hn).chunk 0,
          s.change m' (update s.zoneArray zi (pageAddr page))) ∧
      ZoneAt m' (Zone.fresh (L := L) page hzi hn) ∧
      m'.readLE 4 (pageAddr page + 12) = s.zoneArray zi ∧
      Within (pageAddr page) sizeofSlabZone s.mem m' := by
  obtain ⟨hsize8, hsize16, -, hthree, hend⟩ := L.chunks_fit hzi
  have hmax : L.nmax zi ≤ L.nmax zi * chunkSizeOf zi := Nat.le_mul_of_pos_right _ (by omega)
  have hzone := L.zoneSize_eq
  have hclass : zi < 2 ^ 32 := by
    have := L.classes_le
    unfold nzones at this
    omega
  have hnmax : sub32 s.zoneSize (zoneOffset (chunkSizeOf zi)) / chunkSizeOf zi = L.nmax zi := by
    rw [hsize, sub32_of_le]
    rfl
  have hnfree : sub32 (L.nmax zi) 1 = L.nmax zi - 1 := sub32_of_le
  unfold initZone
  simp only [setMagic, setZindex, setNmax, setNfree, setBaseptr, setUindex, setChunksize, setZnext,
    setZoneArray, nmax, baseptr, uindex, hnmax]
  simp (disch := omega) only [readLE_writeLE_of_disjoint, readLE_writeLE_word,
    Nat.mod_eq_of_lt, hnfree]
  refine ⟨_, rfl, ⟨?_, ?_⟩, readLE_writeLE_word _ _ harray, ?_⟩
  · have hzero : (s.mem.fill (pageAddr page) sizeofSlabZone 0).readLE 4 (pageAddr page + 32) = 0 :=
      readLE_fill_zero _ (by omega) (by unfold sizeofSlabZone; omega)
    change header _ (pageAddr page) = _
    unfold header
    simp (disch := omega) only [readLE_writeLE_of_disjoint, readLE_writeLE_word, hzero]
    rfl
  · exact rfl
  · intro x hx
    unfold sizeofSlabZone at hx
    simp (disch := omega) only [writeLE_apply_of_disjoint]
    exact Within.fill _ _ _ _ x hx

end Init
end RtThread.Slab
