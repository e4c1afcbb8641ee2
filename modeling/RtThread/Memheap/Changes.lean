import RtThread.Memheap.Areas

/-!
# The functions of a memory heap as changes of an arena

What each function does to a sound heap, without its lists: which areas it takes back and hands out,
and when it finds no room. A block that `rt_memheap_realloc` resizes is taken back and handed out
again with its contents.
-/

namespace RtThread.Memheap
open Set
open BlockChain
open ByteMem
open List
variable {D : Nat → Prop} {s s' s'' : Heap} {bs bs' l r : List Blk} {x y : Blk} {fs : List Nat}
  {gone gone' : Set Nat} {new new' : Set (Nat × Nat)} {e k n o p q size req : Nat} {b : Nat × Nat}
  {m : ByteMem}

/-- The payloads of the used blocks. -/
def usedPayloads (e : Nat) (bs : List Blk) : List (Nat × Nat) := payloads (fun t => ¬ IsFree t) e bs

theorem usedPayloads_append :
    usedPayloads e (l ++ r) = usedPayloads (headOff r e) l ++ usedPayloads e r := by
  rw [usedPayloads, payloads, spans_append, map_append]
  rfl

theorem usedPayloads_cons_free (hx : IsFree x.tag) :
    usedPayloads e (x :: r) = usedPayloads e r := by
  rw [usedPayloads, payloads, spans_neg (P := fun t => ¬ IsFree t) (not_not.mpr hx)]
  rfl

theorem usedPayloads_free (hx : IsFree x.tag) :
    usedPayloads e (l ++ x :: r) = usedPayloads x.off l ++ usedPayloads e r := by
  rw [usedPayloads_append, usedPayloads_cons_free hx, headOff_cons]

theorem usedPayloads_used (hx : ¬ IsFree x.tag) :
    usedPayloads e (l ++ x :: r) = usedPayloads x.off l ++
      (x.off + 24, headOff r e - x.off - 24) :: usedPayloads e r := by
  rw [usedPayloads_append, headOff_cons]
  congr 1
  rw [usedPayloads, payloads, spans_pos hx, map_cons]
  rfl

theorem usedPayloads_dropFree : usedPayloads e (dropFree IsFree r) = usedPayloads e r := by
  rw [usedPayloads, payloads, spans_dropFree]
  rfl

theorem usedPayloads_plug :
    usedPayloads e (plug IsFree l ⟨o, freeTag k⟩ r) = usedPayloads o l ++ usedPayloads e r := by
  rw [usedPayloads, payloads, spans_plug (isFree_freeTag k), map_append]
  rfl

theorem usedPayloads_taken (hroom : size ≤ headOff r e - x.off - 24)
    (hgap : x.off + 24 ≤ headOff r e) :
    ∃ n, size ≤ n ∧ x.off + 24 + n ≤ headOff r e ∧ usedPayloads e (l ++ taken k e size x r) =
        usedPayloads x.off l ++ (x.off + 24, n) :: usedPayloads e r := by
  obtain ⟨t, htaken, hstop, ht⟩ := taken_cases k hroom hgap
  rw [htaken, usedPayloads_used (not_isFree_usedTag k)]
  refine ⟨headOff t e - x.off - 24, by omega, ?_, ?_⟩
  · rcases ht with rfl | rfl
    · omega
    · simp only [headOff_cons]
      omega
  · rcases ht with rfl | rfl
    · rfl
    · rw [usedPayloads_cons_free (isFree_freeTag k)]

theorem Blocks.ne_of_mem (h : Blocks s (l ++ x :: r))
    (hb : b ∈ usedPayloads x.off l ++ usedPayloads s.tail r) : b.1 ≠ x.off + 24 := by
  obtain ⟨hl, hgap, hr, -⟩ := h.around
  rcases mem_append.mp hb with hb | hb
  · obtain ⟨l1, z, r1, rfl, -, rfl⟩ := mem_payloads.mp hb
    have := hl z (by simp)
    omega
  · obtain ⟨l1, z, r1, rfl, -, rfl⟩ := mem_payloads.mp hb
    have := hr z (by simp)
    omega

theorem Blocks.mem_usedAreas (h : Blocks s bs) :
    b ∈ s.usedAreas ↔ b ∈ usedPayloads s.tail bs := h.mem_areas

theorem Blocks.exists_block (h : Blocks s bs) (hp : (p, n) ∈ s.usedAreas) :
    ∃ l x r, bs = l ++ x :: r ∧ ¬ IsFree x.tag ∧ p = x.off + 24 ∧
      n = headOff r s.tail - x.off - 24 := by
  obtain ⟨l, x, r, hbs, hx, heq⟩ := mem_payloads.mp (h.mem_usedAreas.mp hp)
  obtain ⟨rfl, rfl⟩ := Prod.mk.inj heq
  exact ⟨l, x, r, hbs, hx, rfl, rfl⟩

/-- The state of a heap between two calls, with blocks that start where `D` allows it. -/
def Heap.SoundIn (D : Nat → Prop) (s : Heap) : Prop := ∃ bs fs, Inv s bs fs ∧ ∀ x ∈ bs, D x.off

/-- The state of a heap between two calls. -/
def Heap.Sound (s : Heap) : Prop := s.SoundIn fun _ => True

theorem Heap.SoundIn.write (h : s.SoundIn D) (hp : (p, n) ∈ s.usedAreas) (hm : Within p n s.mem m) :
    ({ s with mem := m } : Heap).SoundIn D ∧
      ({ s with mem := m } : Heap).usedAreas = s.usedAreas := by
  obtain ⟨bs, fs, hinv, hD⟩ := h
  obtain ⟨l, x, r, rfl, hx, rfl, rfl⟩ := hinv.lists.blocks.exists_block hp
  have hinv' := hinv.write hm
  refine ⟨⟨_, fs, hinv', hD⟩, ?_⟩
  ext b
  exact hinv'.lists.blocks.mem_usedAreas.trans hinv.lists.blocks.mem_usedAreas.symm

/-- A function leaves a sound heap, of which it has taken back and handed out some areas. -/
structure Changes (D : Nat → Prop) (s : Heap) (gone : Set Nat) (new : Set (Nat × Nat)) (s' : Heap) :
    Prop where
  frame : SameFrame s s'
  sound : s'.SoundIn D
  change : s.arena.Change gone new s'.arena

namespace Changes

theorem of_inv (h : Blocks s bs) (hf : SameFrame s s') (hinv : Inv s' bs' fs)
    (hD : ∀ z ∈ bs', D z.off) (hused : ∀ b, b ∈ usedPayloads s.tail bs' ↔
      (b ∈ usedPayloads s.tail bs ∧ b.1 ∉ gone) ∨ b ∈ new)
    (hfresh : ∀ b ∈ new, ∀ i < b.2, b.1 + i ∈ s.arena.Idle gone)
    (hwrites : Only (s.arena.Idle gone) s.mem s'.mem) : Changes D s gone new s' where
  frame := hf
  sound := ⟨bs', fs, hinv, hD⟩
  change :=
    { owns := by
        change s'.region = s.region
        rw [Heap.region, Heap.region, hf.startAddr, hf.poolSize, hf.freeHeader]
      used := by
        ext b
        change b ∈ s'.usedAreas ↔ (b ∈ s.usedAreas ∧ b.1 ∉ gone) ∨ b ∈ new
        rw [hinv.lists.blocks.mem_usedAreas, h.mem_usedAreas, hf.tail, hused]
      fresh := hfresh
      writes := hwrites }

theorem mem_used (h : Changes D s gone new s') :
    b ∈ s'.usedAreas ↔ (b ∈ s.usedAreas ∧ b.1 ∉ gone) ∨ b ∈ new :=
  Set.ext_iff.mp h.change.used b

theorem trans (h : Changes D s gone new s') (h' : Changes D s' gone' new' s'') :
    Changes D s (gone ∪ gone') ({b ∈ new | b.1 ∉ gone'} ∪ new') s'' :=
  ⟨h.frame.trans h'.frame, h'.sound, h.change.trans h'.change⟩

theorem store (h : Changes D s gone new s') (hp : (p, n) ∈ new)
    (hm : Within p n s'.mem m) : Changes D s gone new { s' with mem := m } := by
  obtain ⟨hsound, hused⟩ := h.sound.write (h.mem_used.mpr (.inr hp)) hm
  have hstored := h.change.store hp hm
  exact ⟨h.frame.trans ⟨rfl, rfl, rfl, rfl, rfl⟩, hsound, hstored.owns, hused.trans hstored.used,
    hstored.fresh, hstored.writes⟩

end Changes

/-- `rt_memheap_alloc` can serve a request that has been rounded to `size`: there is a free block
that is large enough, and more than `size` bytes are free altogether. -/
def Heap.CanAlloc (s : Heap) (size : Nat) : Prop :=
  size < s.availableSize ∧ ∃ b ∈ s.freeAreas, size ≤ b.2

theorem starts_taken (hD : ∀ z ∈ l ++ x :: r, D z.off) (hnew : ∀ o, D o → D (o + 24 + size)) :
    ∀ z ∈ l ++ taken k e size x r, D z.off := by
  have hx := hD x (by simp)
  intro z hz
  rw [taken] at hz
  split at hz
  · simp only [mem_append, mem_cons] at hz
    rcases hz with hz | rfl | rfl | hz
    · exact hD z (by simp [hz])
    · exact hx
    · show D (x.off + size + 24)
      rw [Nat.add_right_comm]
      exact hnew x.off hx
    · exact hD z (by simp [hz])
  · simp only [mem_append, mem_cons] at hz
    rcases hz with hz | rfl | hz
    · exact hD z (by simp [hz])
    · exact hx
    · exact hD z (by simp [hz])

theorem rtMemheapAlloc_changes (h : s.SoundIn D) (req : Nat)
    (hnew : ∀ o, D o → D (o + 24 + roundSize req)) :
    (¬ s.CanAlloc (roundSize req) ∧ rtMemheapAlloc s req = some (rtNull, s)) ∨
    (s.CanAlloc (roundSize req) ∧ ∃ q n s', rtMemheapAlloc s req = some (q, s') ∧ q ≠ rtNull ∧
      roundSize req ≤ n ∧ (∀ i, (q, i) ∉ s.usedAreas) ∧ Changes D s ∅ {(q, n)} s') := by
  obtain ⟨bs, fs, hinv, hD⟩ := h
  rcases rtMemheapAlloc_cases hinv req with ⟨hnull, hsmall⟩ | ⟨l, x, r, rfl, hx, hlt, hroom, hret⟩
  · refine .inl ⟨?_, hnull⟩
    rintro ⟨havail, b, hb, hle⟩
    obtain ⟨l, x, r, hbs, hx, rfl⟩ := mem_payloads.mp (hinv.lists.blocks.mem_areas.mp hb)
    exact absurd (hsmall havail l x r hbs hx) (Nat.not_lt.mpr hle)
  · have hblocks := hinv.lists.blocks
    have hgap := hblocks.around.2.1
    obtain ⟨hf, fs', htaken⟩ := hinv.take hx (roundSize req)
    obtain ⟨n, hn, hstop, hused⟩ := usedPayloads_taken hroom hgap
    have hidle : ∀ a, x.off ≤ a → a < headOff r s.tail → a ∈ s.arena.Idle ∅ :=
      fun a => hblocks.idle_block (.inl hx)
    have hold := usedPayloads_free (e := s.tail) (l := l) (r := r) hx
    refine .inr ⟨⟨hlt, (x.off + 24, headOff r s.tail - x.off - 24), hblocks.mem_areas.mpr
      (mem_payloads.mpr ⟨l, x, r, rfl, hx, rfl⟩), hroom⟩, x.off + 24, n, _, hret,
      Nat.succ_ne_zero _, hn, fun i hmem => ?_, .of_inv hblocks hf htaken (starts_taken hD hnew)
        (fun b => ?_) ?_ ?_⟩
    · rw [hblocks.mem_usedAreas, hold] at hmem
      exact hblocks.ne_of_mem hmem rfl
    · rw [hused, hold]
      simp only [mem_append, mem_cons, mem_empty_iff_false, mem_singleton_iff]
      tauto
    · rintro b rfl i hi
      exact hidle _ (by dsimp only; omega) (by dsimp only at hi ⊢; omega)
    · refine hinv.take_only hx (roundSize req) (.idle hblocks ∅) fun hfit a hlo hhi => ?_
      exact hidle a (by omega) (by omega)

theorem rtMemheapFree_changes (h : s.SoundIn D) (hp : (p, n) ∈ s.usedAreas) :
    ∃ s', rtMemheapFree s p = some s' ∧ Changes D s {p} ∅ s' := by
  obtain ⟨bs, fs, hinv, hD⟩ := h
  obtain ⟨l, x, r, rfl, hx, rfl, rfl⟩ := hinv.lists.blocks.exists_block hp
  obtain ⟨s', fs', hret, hf, hfreed⟩ := rtMemheapFree_spec hinv hx
  refine ⟨s', hret, .of_inv hinv.lists.blocks hf hfreed (fun z hz => ?_) (fun b => ?_)
    (fun b hb => absurd hb (notMem_empty b)) ?_⟩
  · rcases mem_append.mp (plug_subset hz) with hz | hz
    · exact hD z (mem_append_left _ hz)
    · rcases mem_cons.mp hz with rfl | hz
      · exact hD x (by simp)
      · exact hD z (by simp [hz])
  · have hne := hinv.lists.blocks.ne_of_mem (b := b)
    rw [usedPayloads_plug, usedPayloads_used hx]
    simp only [mem_append, mem_cons, mem_empty_iff_false, or_false, mem_singleton_iff] at hne ⊢
    constructor
    · intro hb
      exact ⟨by tauto, hne hb⟩
    · rintro ⟨hb | rfl | hb, hstay⟩
      · exact .inl hb
      · exact absurd rfl hstay
      · exact .inr hb
  · exact rtMemheapFree_only hinv hx (.idle hinv.lists.blocks _) hret

/-- The area `(p, n)` is exchanged for one at `q` of at least `size` bytes, with as much of its
contents as fits. -/
def Moves (D : Nat → Prop) (s : Heap) (p n size q : Nat) (s' : Heap) : Prop :=
  ∃ n', size ≤ n' ∧ Changes D s {p} {(q, n')} s' ∧ ∀ i < min n size, s'.mem (q + i) = s.mem (p + i)

theorem Moves.resized (h : Blocks s (l ++ x :: r)) (hx : ¬ IsFree x.tag) (hf : SameFrame s s')
    (hinv : Inv s' bs' fs) (hD : ∀ z ∈ bs', D z.off) (hused : usedPayloads s.tail bs' =
      usedPayloads x.off l ++ (x.off + 24, n) :: usedPayloads s.tail r)
    (hle : size ≤ n) (hfresh : ∀ i < n, x.off + 24 + i ∈ s.arena.Idle {x.off + 24})
    {P : Set Nat} (honly : Only P s.mem s'.mem) (hP : P ⊆ s.arena.Idle {x.off + 24})
    (hkeep : ∀ i < min (headOff r s.tail - x.off - 24) size, x.off + 24 + i ∉ P) :
    Moves D s (x.off + 24) (headOff r s.tail - x.off - 24) size (x.off + 24) s' := by
  refine ⟨n, hle, .of_inv h hf hinv hD (fun b => ?_) ?_ (honly.mono hP), fun i hi =>
    honly _ (hkeep i hi)⟩
  · have hne := h.ne_of_mem (b := b)
    rw [hused, usedPayloads_used hx]
    simp only [mem_append, mem_cons, mem_singleton_iff] at hne ⊢
    constructor
    · rintro (hb | rfl | hb)
      · exact .inl ⟨.inl hb, hne (.inl hb)⟩
      · exact .inr rfl
      · exact .inl ⟨.inr (.inr hb), hne (.inr hb)⟩
    · rintro (⟨hb | rfl | hb, hstay⟩ | rfl)
      · exact .inl hb
      · exact absurd rfl hstay
      · exact .inr (.inr hb)
      · exact .inr (.inl rfl)
  · rintro b rfl i hi
    exact hfresh i hi

theorem moveBlock_moves (h : s.SoundIn D) (hp : (p, n) ∈ s.usedAreas) (hlt : n < size)
    (hsize : size + 7 < 2 ^ 32) (hnew : ∀ o, D o → D (o + 24 + roundSize size)) :
    (¬ s.CanAlloc (roundSize size) ∧ moveBlock s p n size = some (rtNull, s)) ∨
    (s.CanAlloc (roundSize size) ∧ ∃ q s', moveBlock s p n size = some (q, s') ∧ q ≠ rtNull ∧
      Moves D s p n size q s') := by
  unfold moveBlock
  rcases rtMemheapAlloc_changes h size hnew with ⟨hfull, hnull⟩ | ⟨hcan, q, n', s1, hret, hq, hn',
    hfresh, halloc⟩
  · refine .inl ⟨hfull, ?_⟩
    rw [hnull]
    rfl
  · refine .inr ⟨hcan, q, ?_⟩
    have hle := le_roundSize hsize
    have hcopied := halloc.store (m := s1.mem.copy q p n) (mem_singleton _) fun a ha => by
      rw [ByteMem.copy, if_neg (by omega)]
    have hstays : (p, n) ∈ ({ s1 with mem := s1.mem.copy q p n } : Heap).usedAreas :=
      hcopied.mem_used.mpr (.inl ⟨hp, notMem_empty p⟩)
    have hqp : q ≠ p := by
      rintro rfl
      exact hfresh n hp
    obtain ⟨s', hfree, hfreed⟩ := rtMemheapFree_changes hcopied.sound hstays
    refine ⟨s', ?_, hq, n', by omega, ?_, fun i hi => ?_⟩
    · rw [hret]
      simp only [Option.bind_eq_bind, Option.bind_some]
      rw [if_pos hq, if_pos hlt, hfree]
      rfl
    · have htotal := hcopied.trans hfreed
      rwa [empty_union, union_empty, show {b ∈ ({(q, n')} : Set (Nat × Nat)) | b.1 ∉
        ({p} : Set Nat)} = {(q, n')} by ext b; simp; rintro rfl; exact hqp] at htotal
    · have hmem : (q, n') ∈ ({ s1 with mem := s1.mem.copy q p n } : Heap).usedAreas :=
        hcopied.mem_used.mpr (.inr rfl)
      calc s'.mem (q + i)
          = s1.mem.copy q p n (q + i) := hfreed.change.keeps hmem hqp (by omega)
        _ = s1.mem (p + i) := by
          rw [ByteMem.copy, if_pos (by omega), Nat.add_sub_cancel_left]
        _ = s.mem (p + i) := halloc.change.keeps hp (notMem_empty p) (by omega)

/-- `rt_memheap_realloc` can serve a request that has been rounded to `size` for the area `(p, n)`:
the block is large enough, the free block behind it has what is missing, or the block can be moved
to another one. -/
def Heap.CanRealloc (s : Heap) (p n size : Nat) : Prop :=
  size ≤ n ∨ (∃ n', (p + n + 24, n') ∈ s.freeAreas ∧ size + 12 < n + n') ∨
    s.CanAlloc (roundSize size)

theorem Blocks.payload_not_idle (h : Blocks s (l ++ x :: r)) (hx : ¬ IsFree x.tag) {i : Nat}
    (hi : i < headOff r s.tail - x.off - 24) : x.off + 24 + i ∉ s.arena.Idle ∅ := by
  intro hidle
  have hmem : (x.off + 24, headOff r s.tail - x.off - 24) ∈ s.usedAreas :=
    h.mem_usedAreas.mpr (mem_payloads.mpr ⟨l, x, r, rfl, hx, rfl⟩)
  have := hidle.2 _ hmem (notMem_empty _)
  omega

theorem starts_resized {t : Tag} (hD : ∀ z ∈ l ++ x :: r, D z.off)
    (hnew : ∀ o, D o → D (o + 24 + size)) {r' : List Blk} (hsub : r' ⊆ r) :
    ∀ z ∈ l ++ x :: ⟨x.off + 24 + size, t⟩ :: r', D z.off := by
  intro z hz
  simp only [mem_append, mem_cons] at hz
  rcases hz with hz | rfl | rfl | hz
  · exact hD z (by simp [hz])
  · exact hD z (by simp)
  · exact hnew x.off (hD x (by simp))
  · exact hD z (by simp [hsub hz])

theorem shrinkBlock_moves (h : Inv s (l ++ x :: r) fs) (hD : ∀ z ∈ l ++ x :: r, D z.off)
    (hx : ¬ IsFree x.tag) (hroom : size + 36 < headOff r s.tail - x.off - 24)
    (hnew : ∀ o, D o → D (o + 24 + size)) :
    Moves D s (x.off + 24) (headOff r s.tail - x.off - 24) size (x.off + 24)
      (shrinkBlock s x.off size) := by
  have hblocks := h.lists.blocks
  have hself : ∀ a, x.off ≤ a → a < headOff r s.tail → a ∈ s.arena.Idle {x.off + 24} :=
    fun a => hblocks.idle_block (.inr rfl)
  obtain ⟨hf, fs', hshrunk⟩ := h.shrink hx size (by omega)
  -- besides the items that there are, the item of the block that is cut off is written
  have honly := h.shrink_only (P := s.arena.Idle ∅ ∪
    {a | x.off + 24 + size ≤ a ∧ a < x.off + 24 + size + 24}) hx (by omega)
    ((Covers.idle hblocks ∅).mono subset_union_left) fun a hlo hhi => .inr ⟨hlo, hhi⟩
  refine .resized hblocks hx hf hshrunk (starts_resized hD hnew dropFree_subset) ?_ le_rfl
    (fun i hi => hself _ (by omega) (by omega)) honly (union_subset ?_ fun a ha => ?_)
    fun i hi => ?_
  · rw [usedPayloads_used hx, usedPayloads_cons_free (isFree_freeTag _), usedPayloads_dropFree,
      headOff_cons]
    congr 3
    dsimp only
    omega
  · exact Arena.Change.idle_mono _ (empty_subset _)
  · have hlo := ha.1
    have hhi := ha.2
    exact hself a (by omega) (by omega)
  · rintro (hidle | hnew)
    · exact hblocks.payload_not_idle hx (by omega) hidle
    · have := hnew.1
      omega

theorem growBlock_moves (h : Inv s (l ++ x :: y :: r) fs) (hD : ∀ z ∈ l ++ x :: y :: r, D z.off)
    (hx : ¬ IsFree x.tag) (hy : IsFree y.tag) (hmore : y.off - x.off - 24 < size)
    (hroom : size + 12 < y.off - x.off - 24 + (headOff r s.tail - y.off - 24))
    (hnew : ∀ o, D o → D (o + 24 + size)) :
    Moves D s (x.off + 24) (y.off - x.off - 24) size (x.off + 24)
      (growBlock s x.off y.off (y.off - x.off - 24) size) := by
  have hblocks := h.lists.blocks
  have hyc : Blocks s ((l ++ [x]) ++ y :: r) := by simpa using hblocks
  have hgap : x.off + 24 ≤ y.off := hblocks.around.2.1
  have hempty : s.arena.Idle ∅ ⊆ s.arena.Idle {x.off + 24} :=
    Arena.Change.idle_mono _ (empty_subset _)
  have hbehind : ∀ a, y.off ≤ a → a < headOff r s.tail → a ∈ s.arena.Idle ∅ :=
    fun a => hyc.idle_block (.inl hy)
  obtain ⟨hf, fs', hgrown⟩ := h.grow hx hy hmore (by omega)
  have honly := h.grow_only hy hmore (by omega) (.idle hblocks ∅)
    fun a hlo hhi => hbehind a (by omega) (by omega)
  refine Moves.resized (r := y :: r) hblocks hx hf hgrown
    (starts_resized hD hnew (subset_cons_self y r)) ?_ le_rfl (fun i hi => ?_) honly
    hempty fun i hi => hblocks.payload_not_idle hx (lt_of_lt_of_le hi (Nat.min_le_left _ _))
  · rw [usedPayloads_used hx, usedPayloads_cons_free (isFree_freeTag _),
      usedPayloads_cons_free hy, headOff_cons]
    congr 3
    dsimp only
    omega
  · by_cases hi' : x.off + 24 + i < y.off
    · exact hblocks.idle_block (.inr rfl) (by omega) hi'
    · exact hempty (hbehind _ (by omega) (by omega))

/-- The free block behind a used one, if there is one, is where its item says. -/
theorem Blocks.next_of_free (h : Blocks s (l ++ x :: r))
    (hp : (headOff r s.tail + 24, n) ∈ s.freeAreas) :
    ∃ y r', r = y :: r' ∧ IsFree y.tag ∧ n = headOff r' s.tail - y.off - 24 := by
  obtain ⟨l', y, r', hbs, hy, heq⟩ := mem_payloads.mp (h.mem_areas.mp hp)
  obtain ⟨hoff, rfl⟩ := Prod.mk.inj heq
  have hylt := h.start_le (x := y) (hbs ▸ by simp)
  cases r with
  | nil =>
    rw [headOff_nil] at hoff
    omega
  | cons z r =>
    have hzc : Blocks s ((l ++ [x]) ++ z :: r) := by simpa using h
    rw [headOff_cons] at hoff
    obtain rfl := h.off_injective (x := z) (y := y) (by simp) (hbs ▸ by simp) (by omega)
    refine ⟨z, r, rfl, hy, ?_⟩
    rw [← hzc.next_eq, ← (hbs ▸ h : Blocks s (l' ++ z :: r')).next_eq]

theorem rtMemheapRealloc_moves (h : s.SoundIn D) (hp : (p, n) ∈ s.usedAreas) (hreq : req ≠ 0)
    (hlt : roundSize req + 12 < 2 ^ 32) (hnew : ∀ o, D o → D (o + 24 + roundSize req))
    (hmove : ∀ o, D o → D (o + 24 + roundSize (roundSize req))) :
    (¬ s.CanRealloc p n (roundSize req) ∧ rtMemheapRealloc s p req = some (rtNull, s)) ∨
    (s.CanRealloc p n (roundSize req) ∧ ∃ q s', rtMemheapRealloc s p req = some (q, s') ∧
      q ≠ rtNull ∧ Moves D s p n (roundSize req) q s') := by
  have hsound := h
  obtain ⟨bs, fs, hinv, hD⟩ := h
  have hblocks := hinv.lists.blocks
  obtain ⟨l, x, r, rfl, hx, rfl, rfl⟩ := hblocks.exists_block hp
  have hgap := hblocks.around.2.1
  have hend : x.off + 24 + (headOff r s.tail - x.off - 24) = headOff r s.tail := by omega
  have hptr : x.off + 24 ≠ rtNull := Nat.succ_ne_zero _
  have hway := rtMemheapRealloc_way hinv hreq hlt
  generalize rtMemheapRealloc s (x.off + 24) req = ret at hway
  cases hway with
  | keep hroom =>
    refine .inr ⟨.inl hroom, _, s, rfl, hptr, .resized hblocks hx (.refl s) hinv hD
      (usedPayloads_used hx) hroom (fun i hi => hblocks.idle_block (.inr rfl) (by omega)
      (by omega)) (.refl _ _) (empty_subset _) fun i _ => notMem_empty _⟩
  | shrink hroom =>
    exact .inr ⟨.inl (by omega), _, _, rfl, hptr, shrinkBlock_moves hinv hD hx hroom hnew⟩
  | @grow y r hr hy hmore hroom =>
    subst hr
    have hyc : Blocks s ((l ++ [x]) ++ y :: r) := by simpa using hblocks
    refine .inr ⟨.inr (.inl ⟨headOff r s.tail - y.off - 24, ?_, hroom⟩), _, _, rfl, hptr,
      growBlock_moves hinv hD hx hy hmore hroom hnew⟩
    rw [hend]
    exact hyc.mem_areas.mpr (mem_payloads.mpr ⟨l ++ [x], y, r, rfl, hy, rfl⟩)
  | move hmore hfull =>
    rcases moveBlock_moves hsound hp hmore (by omega) hmove with ⟨hno, hnull⟩
      | ⟨hcan, q, s', hret, hq, hmoves⟩
    · refine .inl ⟨?_, hnull⟩
      rintro (hle | ⟨n', hfree, hroom⟩ | hcan)
      · omega
      · rw [hend] at hfree
        obtain ⟨y, r', rfl, hy, rfl⟩ := hblocks.next_of_free hfree
        exact absurd (hfull y r' rfl hy) (Nat.not_le.mpr hroom)
      · exact hno hcan
    · exact .inr ⟨.inr (.inr hcan), q, s', hret, hq, hmoves⟩

end RtThread.Memheap
