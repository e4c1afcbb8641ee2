import RtThread.Memheap.Changes
import RtThread.Memheap.Init
import RtThread.Lib.Run
import Mathlib.Data.Finset.Basic

/-!
# Programs on a memory heap

A program calls the functions of one heap in any order and writes into the payloads it holds. It
hands `rt_memheap_realloc` and `rt_memheap_free` only `RT_NULL` or a pointer it holds. A step is
labelled with the call and the pointer it returned.
-/

namespace RtThread.Memheap
open Option
open List

/-- A step of a program: a call, or a store of one byte. -/
inductive Call
  | alloc (size : BitVec 32)
  | realloc (ptr : Nat) (newsize : BitVec 32)
  | free (ptr : Nat)
  | store (a : Nat) (v : BitVec 8)

/-- The heap and the pointers the program holds. -/
structure Sys where
  heap : Heap
  live : Finset Nat

/-- A pointer returned by an allocation is held unless it is `RT_NULL`. -/
def hand (p : Nat) (live : Finset Nat) : Finset Nat := if p = rtNull then live else insert p live

/-- The effect of a call, `none` if it does not return: the pointer it returns and what follows.
A failed `rt_memheap_realloc` leaves the old pointer with the program, unless it was a release. -/
def call (σ : Sys) : Call → Option (Nat × Sys)
  | .alloc size => (rtMemheapAlloc σ.heap size.toNat).map fun (p, s) => (p, ⟨s, hand p σ.live⟩)
  | .realloc ptr newsize =>
    (rtMemheapRealloc σ.heap ptr newsize.toNat).map fun (p, s) =>
      (p, ⟨s, if p = rtNull ∧ newsize ≠ 0 then σ.live else hand p (σ.live.erase ptr)⟩)
  | .free ptr => (rtMemheapFree σ.heap ptr).map fun s => (rtNull, ⟨s, σ.live.erase ptr⟩)
  | .store a v =>
    some (rtNull, ⟨{ σ.heap with mem := Function.update σ.heap.mem a v }, σ.live⟩)

def Legal (σ : Sys) : Call → Prop
  | .alloc _ => True
  | .realloc p _ | .free p => p = rtNull ∨ p ∈ σ.live
  | .store a _ => ∃ p ∈ σ.live, p ≤ a ∧ a < σ.heap.next (p - rtMemheapSize)

def StepIf (P : Call → Prop) (σ : Sys) (e : Call × Nat) (σ' : Sys) : Prop :=
  Legal σ e.1 ∧ P e.1 ∧ call σ e.1 = some (e.2, σ')

/-- `p` is the payload of a used block of the chain `bs`. -/
def IsUser (bs : List Blk) (p : Nat) : Prop := ∃ x ∈ bs, ¬ IsFree x.tag ∧ p = x.off + 24

/-- The heap is sound, and the program holds the payloads of the used blocks. -/
structure Sound (σ : Sys) (bs : List Blk) (fs : List Nat) : Prop where
  inv : Inv σ.heap bs fs
  live : ∀ p, p ∈ σ.live ↔ IsUser bs p

variable {D : Nat → Prop} {s s' : Heap} {σ σ' : Sys} {bs : List Blk} {fs : List Nat}
  {gone : Set Nat} {new : Set (Nat × Nat)} {p size req : Nat}

theorem Blocks.isUser_iff (h : Blocks s bs) : IsUser bs p ↔ ∃ n, (p, n) ∈ s.usedAreas := by
  constructor
  · rintro ⟨x, hx, hu, rfl⟩
    obtain ⟨l, r, rfl⟩ := append_of_mem hx
    exact ⟨_, h.mem_usedAreas.mpr (mem_payloads.mpr ⟨l, x, r, rfl, hu, rfl⟩)⟩
  · rintro ⟨n, hp⟩
    obtain ⟨l, x, r, rfl, hx, rfl, -⟩ := h.exists_block hp
    exact ⟨x, by simp, hx, rfl⟩

/-- The heap is sound, with blocks that start where `D` allows it, and the program holds what is
handed out. -/
structure Kept (D : Nat → Prop) (σ : Sys) : Prop where
  sound : σ.heap.SoundIn D
  live : ∀ p, p ∈ σ.live ↔ ∃ n, (p, n) ∈ σ.heap.usedAreas

theorem Sound.kept (h : Sound σ bs fs) (hD : ∀ x ∈ bs, D x.off) : Kept D σ :=
  ⟨⟨bs, fs, h.inv, hD⟩, fun p => (h.live p).trans h.inv.lists.blocks.isUser_iff⟩

@[simp] theorem hand_null (live : Finset Nat) : hand rtNull live = live := if_pos rfl

theorem hand_of_ne {live : Finset Nat} (h : p ≠ rtNull) : hand p live = insert p live := if_neg h

theorem mem_hand (p : Nat) (live : Finset Nat) : p = rtNull ∨ p ∈ hand p live := by
  by_cases h : p = rtNull
  · exact .inl h
  · rw [hand_of_ne h]
    exact .inr (Finset.mem_insert_self _ _)

namespace Kept

theorem exists_sound (h : Kept D σ) : ∃ bs fs, Sound σ bs fs ∧ ∀ x ∈ bs, D x.off := by
  obtain ⟨bs, fs, hinv, hD⟩ := h.sound
  exact ⟨bs, fs, ⟨hinv, fun p => (h.live p).trans hinv.lists.blocks.isUser_iff.symm⟩, hD⟩

theorem null_not_live (h : Kept D σ) : rtNull ∉ σ.live := by
  intro hmem
  obtain ⟨bs, fs, hsound, -⟩ := h.exists_sound
  obtain ⟨x, -, -, hp⟩ := (hsound.live rtNull).mp hmem
  exact absurd hp.symm (Nat.succ_ne_zero _)

theorem of_changes (h : Kept D σ) (hc : Changes D σ.heap gone new s') {live : Finset Nat}
    (hlive : ∀ p, p ∈ live ↔ (p ∈ σ.live ∧ p ∉ gone) ∨ ∃ n, (p, n) ∈ new) :
    Kept D ⟨s', live⟩ := by
  refine ⟨hc.sound, fun p => ?_⟩
  simp only [hlive, h.live, hc.mem_used, exists_or, exists_and_right]

theorem alloc (h : Kept D σ) (req : Nat) (hnew : ∀ o, D o → D (o + 24 + roundSize req)) :
    ∃ p s', rtMemheapAlloc σ.heap req = some (p, s') ∧ Kept D ⟨s', hand p σ.live⟩ := by
  rcases rtMemheapAlloc_changes h.sound req hnew with ⟨-, hnull⟩ | ⟨-, q, n, s', hret, hq, -, -, hc⟩
  · exact ⟨rtNull, σ.heap, hnull, by rwa [hand_null]⟩
  · refine ⟨q, s', hret, h.of_changes hc fun p => ?_⟩
    simp [hand_of_ne hq, or_comm]

theorem free (h : Kept D σ) (hp : p ∈ σ.live) :
    ∃ s', rtMemheapFree σ.heap p = some s' ∧ Kept D ⟨s', σ.live.erase p⟩ := by
  obtain ⟨n, hn⟩ := (h.live p).mp hp
  obtain ⟨s', hret, hc⟩ := rtMemheapFree_changes h.sound hn
  refine ⟨s', hret, h.of_changes hc fun q => ?_⟩
  simp [and_comm]

/-- `rt_memheap_realloc` of a pointer the program holds: the pointer stays, is exchanged for the new
one, or is released. -/
theorem realloc (h : Kept D σ) (hp : p ∈ σ.live) (hreq : req ≠ 0)
    (hlt : roundSize req + 12 < 2 ^ 32) (hnew : ∀ o, D o → D (o + 24 + roundSize req))
    (hmove : ∀ o, D o → D (o + 24 + roundSize (roundSize req))) :
    ∃ q s', rtMemheapRealloc σ.heap p req = some (q, s') ∧
      Kept D ⟨s', if q = rtNull then σ.live else insert q (σ.live.erase p)⟩ := by
  obtain ⟨n, hn⟩ := (h.live p).mp hp
  rcases rtMemheapRealloc_moves h.sound hn hreq hlt hnew hmove with ⟨-, hnull⟩
    | ⟨-, q, s', hret, hq, n', -, hc, -⟩
  · exact ⟨rtNull, σ.heap, hnull, by rwa [if_pos rfl]⟩
  · refine ⟨q, s', hret, h.of_changes hc fun w => ?_⟩
    simp [hq, or_comm, and_comm]

end Kept

/-- The room that `rt_memheap_realloc` looks for does not wrap. -/
def Fits : Call → Prop
  | .realloc _ newsize => roundSize newsize.toNat + 12 < 2 ^ 32
  | .alloc _ | .free _ | .store _ _ => True

/-- The blocks that a call may make start where `D` allows it. -/
def Starts (D : Nat → Prop) : Call → Prop
  | .alloc size => ∀ o, D o → D (o + 24 + roundSize size.toNat)
  | .realloc _ newsize => newsize ≠ 0 → ∀ o, D o → D (o + 24 + roundSize newsize.toNat) ∧
      D (o + 24 + roundSize (roundSize newsize.toNat))
  | .free _ | .store _ _ => True

/-- A call returns `RT_NULL` or a pointer that is held from then on. -/
def Answers (D : Nat → Prop) (σ : Sys) (c : Call) : Prop :=
  ∃ p σ', call σ c = some (p, σ') ∧ Kept D σ' ∧ (p = rtNull ∨ p ∈ σ'.live)

namespace Kept

theorem realloc_answers (h : Kept D σ) {newsize : BitVec 32} (hp : p = rtNull ∨ p ∈ σ.live)
    (hfits : Fits (.realloc p newsize)) (hstarts : Starts D (.realloc p newsize)) :
    Answers D σ (.realloc p newsize) := by
  have herase : σ.live.erase rtNull = σ.live := Finset.erase_eq_of_notMem h.null_not_live
  by_cases hzero : newsize = 0
  · subst hzero
    rcases hp with rfl | hp
    · refine ⟨rtNull, σ, ?_, h, .inl rfl⟩
      simp [call, rtMemheapRealloc, rtMemheapFree, herase]
    · obtain ⟨s', hfree, hkept⟩ := h.free hp
      refine ⟨rtNull, _, ?_, hkept, .inl rfl⟩
      simp [call, rtMemheapRealloc, hfree]
  · have hne : newsize.toNat ≠ 0 := fun heq => hzero (BitVec.eq_of_toNat_eq heq)
    rcases hp with rfl | hp
    · obtain ⟨q, s', hret, hkept⟩ := h.alloc (roundSize newsize.toNat)
        fun o ho => (hstarts hzero o ho).2
      refine ⟨q, _, ?_, hkept, mem_hand _ _⟩
      rw [call, rtMemheapRealloc, if_neg hne]
      rw [if_pos rfl, hret, herase, map_some]
      by_cases hq : q = rtNull <;> simp [hq]
    · obtain ⟨q, s', hret, hkept⟩ := h.realloc hp hne hfits (fun o ho => (hstarts hzero o ho).1)
        fun o ho => (hstarts hzero o ho).2
      have hcall : call σ (.realloc p newsize) = some (q, ⟨s', if q = rtNull ∧ newsize ≠ 0
          then σ.live else hand q (σ.live.erase p)⟩) := by
        rw [call, hret]
        rfl
      by_cases hq : q = rtNull
      · rw [if_pos hq] at hkept
        rw [if_pos ⟨hq, hzero⟩] at hcall
        exact ⟨q, _, hcall, hkept, .inl hq⟩
      · rw [if_neg hq] at hkept
        rw [if_neg fun hfail => hq hfail.1, hand_of_ne hq] at hcall
        exact ⟨q, _, hcall, hkept, .inr (Finset.mem_insert_self _ _)⟩

theorem answers {c : Call} (h : Kept D σ) (hlegal : Legal σ c) (hfits : Fits c)
    (hstarts : Starts D c) : Answers D σ c := by
  cases c with
  | alloc size =>
    obtain ⟨p, s', hret, hkept⟩ := h.alloc size.toNat hstarts
    exact ⟨p, _, by rw [call, hret]; rfl, hkept, mem_hand _ _⟩
  | realloc ptr newsize => exact h.realloc_answers hlegal hfits hstarts
  | free ptr =>
    rcases hlegal with rfl | hp
    · refine ⟨rtNull, σ, ?_, h, .inl rfl⟩
      rw [call, Finset.erase_eq_of_notMem h.null_not_live, rtMemheapFree, if_pos rfl]
      rfl
    · obtain ⟨s', hret, hkept⟩ := h.free hp
      exact ⟨rtNull, _, by rw [call, hret]; rfl, hkept, .inl rfl⟩
  | store a v =>
    obtain ⟨p, hp, hlo, hhi⟩ := hlegal
    obtain ⟨n, hn⟩ := (h.live p).mp hp
    obtain ⟨bs, fs, hinv, hD⟩ := h.sound
    obtain ⟨l, x, r, rfl, hx, rfl, rfl⟩ := hinv.lists.blocks.exists_block hn
    rw [rtMemheapSize_eq, Nat.add_sub_cancel, hinv.lists.blocks.next_eq] at hhi
    obtain ⟨hsound, hused⟩ := h.sound.write (m := Function.update σ.heap.mem a v) hn
      fun b hb => Function.update_of_ne (by omega) _ _
    exact ⟨rtNull, _, rfl, ⟨hsound, fun q => hused.symm ▸ h.live q⟩, .inl rfl⟩

end Kept

/-- The requests that are rounded up to a multiple of `RT_ALIGN_SIZE`: a smaller one is raised to
`RT_MEMHEAP_MINIALLOC`, which is none, and so is one that wraps when it is rounded. The room that
`rt_memheap_realloc` looks for behind a block must not wrap either. -/
def Roomy : Call → Prop
  | .alloc size => 8 < size.toNat ∧ size.toNat ≤ 2 ^ 32 - 8
  | .realloc _ newsize => newsize = 0 ∨ (8 < newsize.toNat ∧ newsize.toNat ≤ 2 ^ 32 - 16)
  | .free _ | .store _ _ => True

instance : DecidablePred Roomy := fun c => by
  cases c <;> unfold Roomy <;> infer_instance

theorem dvd_roundSize (h : 8 < req) (hle : req ≤ 2 ^ 32 - 8) :
    8 ∣ roundSize req ∧ req ≤ roundSize req ∧ roundSize req < req + 8 := by
  have heq := rtAlign_eight req
  rcases roundSize_eq req with hround | ⟨hround, -⟩
  · unfold roundSize rtMemheapMinialloc rtAlignSize at hround
    dsimp only at hround
    split at hround <;> omega
  · rw [hround, heq]
    omega

theorem Roomy.fits {c : Call} (h : Roomy c) : Fits c := by
  cases c with
  | realloc ptr newsize =>
    rcases h with rfl | ⟨hlo, hhi⟩
    · exact show roundSize 0 + 12 < 2 ^ 32 by decide
    · have := dvd_roundSize hlo (by omega)
      show roundSize newsize.toNat + 12 < 2 ^ 32
      omega
  | _ => trivial

theorem Roomy.starts {c : Call} (h : Roomy c) : Starts (8 ∣ ·) c := by
  cases c with
  | alloc size =>
    obtain ⟨hdvd, -⟩ := dvd_roundSize h.1 h.2
    intro o ho
    omega
  | realloc ptr newsize =>
    intro hne o ho
    obtain ⟨hlo, hhi⟩ := h.resolve_left hne
    obtain ⟨hdvd, hle, hlt⟩ := dvd_roundSize hlo (by omega)
    obtain ⟨hdvd', -⟩ : 8 ∣ roundSize (roundSize newsize.toNat) ∧ _ :=
      dvd_roundSize (by omega) (by omega)
    omega
  | free ptr | store a v => trivial

/-- Requests below `2 ^ 31`. -/
def Small : Call → Prop
  | .alloc size | .realloc _ size => size.toNat < 2 ^ 31
  | .free _ | .store _ _ => True

instance : DecidablePred Small := fun c => by
  cases c <;> unfold Small <;> infer_instance

theorem Small.fits {c : Call} (h : Small c) : Fits c := by
  cases c with
  | realloc ptr newsize => exact roundSize_add_lt h
  | _ => trivial

theorem starts_true (c : Call) : Starts (fun _ => True) c := by
  cases c <;> simp [Starts]

variable {m : ByteMem} {memheap startAddr : Nat}

theorem Sound.init (hroom : 48 ≤ size)
    (hfits : startAddr + size ≤ 2 ^ 32) (hheader : memheap + 68 ≤ 2 ^ 32)
    (hapart : memheap + 68 ≤ startAddr ∨ startAddr + size ≤ memheap + 44) :
    Sound ⟨rtMemheapInit m memheap startAddr size, ∅⟩ [⟨startAddr, freeTag memheap⟩]
      [startAddr] := by
  refine ⟨rtMemheapInit_spec hroom hfits hheader hapart, fun p => ⟨fun hp => ?_, ?_⟩⟩
  · exact absurd hp (Finset.notMem_empty p)
  · rintro ⟨x, hx, hused, -⟩
    rw [mem_singleton.mp hx] at hused
    exact absurd (isFree_freeTag memheap) hused

/-- In every run on a pool that can hold a block, the blocks cover the pool, linked in both
directions, no two neighbours free, the free list holds exactly the free blocks, each once, and
`available_size` is the sum of their payloads; and every legal call returns. -/
theorem sound_of_run (hroom : 2 * rtMemheapSize + rtMemheapMinialloc ≤ size)
    (hfits : startAddr + size ≤ 2 ^ 32) (hheader : memheap + 68 ≤ 2 ^ 32)
    (hapart : memheap + 68 ≤ startAddr ∨ startAddr + size ≤ memheap + 44)
    {tr : List (Call × Nat)}
    (hrun : Run (StepIf Small) ⟨rtMemheapInit m memheap startAddr size, ∅⟩ tr σ) :
    (∃ bs fs, Sound σ bs fs) ∧ ∀ c, Legal σ c → Small c → ∃ p σ', call σ c = some (p, σ') := by
  rw [rtMemheapSize_eq, rtMemheapMinialloc] at hroom
  have hkept : Kept (fun _ => True) σ := by
    refine hrun.state_invariant
      ((Sound.init (by omega) hfits hheader hapart).kept fun _ _ => trivial) ?_
    rintro σ ⟨c, q⟩ σ' h ⟨hlegal, hsmall, hcall⟩
    obtain ⟨p, σ'', hcall', hkept, -⟩ := h.answers hlegal hsmall.fits (starts_true c)
    rw [hcall] at hcall'
    cases hcall'
    exact hkept
  obtain ⟨bs, fs, hsound, -⟩ := hkept.exists_sound
  refine ⟨⟨bs, fs, hsound⟩, fun c hlegal hsmall => ?_⟩
  obtain ⟨p, σ', hcall, -⟩ := hkept.answers hlegal hsmall.fits (starts_true c)
  exact ⟨p, σ', hcall⟩

/-- `p = rt_memheap_alloc(heap, 1); p = rt_memheap_realloc(heap, p, 100); rt_memheap_free(p);`: the
block grows into the rest of the pool, and is merged with what was left of it. -/
theorem sound_of_run_released :
    ∃ σ, Run (StepIf Small) ⟨rtMemheapInit (fun _ => 0) 0x100 0x1000 256, ∅⟩
      [(.alloc 1, 0x1018), (.realloc 0x1018 100, 0x1018), (.free 0x1018, rtNull)] σ ∧
        σ.live = ∅ ∧ σ.heap.availableSize = 208 ∧ ∃ bs fs, Sound σ bs fs := by
  have hcalls : (do
      let a ← call ⟨rtMemheapInit (fun _ => 0) 0x100 0x1000 256, ∅⟩ (.alloc 1)
      let b ← call a.2 (.realloc 0x1018 100)
      let c ← call b.2 (.free 0x1018)
      return ((a.1, b.1, c.1, c.2.heap.availableSize), a.2.live, b.2.live, c.2.live)) =
        some ((0x1018, 0x1018, rtNull, 208), {0x1018}, {0x1018}, ∅) := by
    decide +kernel
  obtain ⟨⟨p, σ1⟩, halloc, hcalls⟩ := bind_eq_some_iff.mp hcalls
  obtain ⟨⟨q, σ2⟩, hrealloc, hcalls⟩ := bind_eq_some_iff.mp hcalls
  obtain ⟨⟨w, σ3⟩, hfree, hcalls⟩ := bind_eq_some_iff.mp hcalls
  simp only [Option.pure_def, Option.some.injEq, Prod.mk.injEq] at hcalls
  obtain ⟨⟨rfl, rfl, rfl, havail⟩, hlive1, hlive2, hlive3⟩ := hcalls
  have h1 : StepIf Small _ (.alloc 1, 0x1018) σ1 := ⟨trivial, by decide, halloc⟩
  have h2 : StepIf Small σ1 (.realloc 0x1018 100, 0x1018) σ2 :=
    ⟨.inr (by rw [hlive1]; decide), by decide, hrealloc⟩
  have h3 : StepIf Small σ2 (.free 0x1018, rtNull) σ3 :=
    ⟨.inr (by rw [hlive2]; decide), trivial, hfree⟩
  have hrun := ((Run.nil.snoc h1).snoc h2).snoc h3
  exact ⟨σ3, hrun, hlive3, havail,
    (sound_of_run (by decide) (by decide) (by decide) (by decide) hrun).1⟩

/-- If every request is one that is rounded to a multiple of `RT_ALIGN_SIZE`, every pointer that is
returned is one as well. -/
theorem aligned_of_run (hroom : 2 * rtMemheapSize ≤ size)
    (hfits : startAddr + size ≤ 2 ^ 32) (hheader : memheap + 68 ≤ 2 ^ 32)
    (hapart : memheap + 68 ≤ startAddr ∨ startAddr + size ≤ memheap + 44)
    (hstart : rtAlignSize ∣ startAddr) {tr : List (Call × Nat)}
    (hrun : Run (StepIf Roomy) ⟨rtMemheapInit m memheap startAddr size, ∅⟩ tr σ) :
    ∀ e ∈ tr, e.2 ≠ rtNull → rtAlignSize ∣ e.2 := by
  rw [rtMemheapSize_eq] at hroom
  have hinv : (∀ e ∈ tr, e.2 ≠ rtNull → rtAlignSize ∣ e.2) ∧ Kept (8 ∣ ·) σ := by
    refine hrun.invariant ⟨nofun, Sound.kept (.init (by omega) hfits hheader hapart) fun x hx => ?_⟩
      ?_
    · rw [mem_singleton.mp hx]
      exact hstart
    rintro tr σ ⟨c, q⟩ σ' ⟨hold, h⟩ ⟨hlegal, hroomy, hcall⟩
    obtain ⟨p, σ'', hcall', hkept, hp⟩ := h.answers hlegal hroomy.fits hroomy.starts
    rw [hcall] at hcall'
    cases hcall'
    refine ⟨fun e he hne => ?_, hkept⟩
    rcases mem_append.mp he with he | he
    · exact hold e he hne
    · obtain rfl := mem_singleton.mp he
      obtain ⟨bs, fs, hsound, hD⟩ := hkept.exists_sound
      obtain ⟨x, hx, -, hq⟩ := (hsound.live q).mp (hp.resolve_left hne)
      rw [hq]
      exact Nat.dvd_add (hD x hx) (by decide)
  exact hinv.1

theorem run_two {P : Call → Prop} (σ : Sys) (size : BitVec 32) (p q : Nat) (hP : P (.alloc size))
    (hcalls : (do
      let a ← call σ (.alloc size)
      let b ← call a.2 (.alloc size)
      return (a.1, b.1)) = some (p, q)) :
    ∃ σ', Run (StepIf P) σ [(.alloc size, p), (.alloc size, q)] σ' := by
  obtain ⟨⟨p', σ1⟩, hfirst, hcalls⟩ := bind_eq_some_iff.mp hcalls
  obtain ⟨⟨q', σ2⟩, hsecond, hcalls⟩ := bind_eq_some_iff.mp hcalls
  obtain ⟨rfl, rfl⟩ : p' = p ∧ q' = q := by simpa using hcalls
  exact ⟨σ2, (Run.nil.snoc ⟨trivial, hP, hfirst⟩).snoc ⟨trivial, hP, hsecond⟩⟩

/-- `rt_memheap_alloc(heap, 20);` twice. -/
theorem aligned_of_run_twice :
    ∃ σ, Run (StepIf Roomy) ⟨rtMemheapInit (fun _ => 0) 0x100 0x1000 256, ∅⟩
      [(.alloc 20, 0x1018), (.alloc 20, 0x1048)] σ ∧ rtAlignSize ∣ 0x1048 := by
  obtain ⟨σ2, hrun⟩ := run_two (P := Roomy) ⟨rtMemheapInit (fun _ => 0) 0x100 0x1000 256, ∅⟩ 20
    0x1018 0x1048 (by decide) (by decide +kernel)
  have haligned := aligned_of_run (by decide) (by decide) (by decide) (by decide) (by decide) hrun
  exact ⟨σ2, hrun, haligned (.alloc 20, 0x1048) (by simp) (by decide)⟩

/-- `rt_memheap_alloc(heap, 1);` twice on an aligned pool: a request of one byte is raised to
twelve, and the block behind it is not aligned. -/
theorem second_alloc_misaligned :
    ∃ σ, Run (StepIf fun _ => True) ⟨rtMemheapInit (fun _ => 0) 0x100 0x1000 256, ∅⟩
      [(.alloc 1, 0x1018), (.alloc 1, 0x103C)] σ ∧
        rtAlignSize ∣ 0x1000 ∧ (0x103C : Nat) ≠ rtNull ∧ ¬ rtAlignSize ∣ 0x103C := by
  obtain ⟨σ2, hrun⟩ := run_two (P := fun _ => True)
    ⟨rtMemheapInit (fun _ => 0) 0x100 0x1000 256, ∅⟩ 1 0x1018 0x103C trivial (by decide +kernel)
  exact ⟨σ2, hrun, by decide, by decide, by decide⟩

end RtThread.Memheap
