import RtThread.Kernel.ThreadRun
import Mathlib.Data.List.Rotate

/-!
# The scheduling decision

`rt_schedule` takes the first thread of the list that the lowest bit of
`rt_thread_ready_priority_group` stands for. If the ready set is consistent, that is the list of the
most urgent ready priority. `rt_thread_yield` moves the running thread to its end, so threads that
only yield take turns.
-/

namespace RtThread
open Nat
open List
open BitVec

/-- `i` is the lowest bit of `v`. -/
structure IsLowestBit {w : ℕ} (v : BitVec w) (i : ℕ) : Prop where
  isSet : v.getLsbD i = true
  below : ∀ j < i, v.getLsbD j = false

theorem lowestBitBitmap_isLowestBit : ∀ b : BitVec 8, b ≠ 0#8 →
    IsLowestBit b (lowestBitBitmap.getD b.toNat 0) := by
  have htable : ∀ b : BitVec 8, b ≠ 0#8 → b.getLsbD (lowestBitBitmap.getD b.toNat 0) = true ∧
      ∀ j < lowestBitBitmap.getD b.toNat 0, b.getLsbD j = false := by
    decide +kernel
  intro b hb
  exact ⟨(htable b hb).1, (htable b hb).2⟩

variable {s : ℕ} {v : BitVec 32}

theorem getLsbD_byteMask {i : ℕ} (hs : s + 8 ≤ 32) :
    (0xff#32 <<< s).getLsbD i = decide (s ≤ i ∧ i < s + 8) := by
  have h255 : ∀ j, (255 : ℕ).testBit j = decide (j < 8) := fun j =>
    testBit_two_pow_sub_one 8 j
  rw [getLsbD_shiftLeft, getLsbD_ofNat, h255]
  by_cases hi : s ≤ i <;> by_cases hi' : i < s + 8 <;> simp [hi, hi'] <;> omega

theorem byte_eq_extract (v : BitVec 32) (hs : s + 8 ≤ 32) :
    ((v &&& (0xff#32 <<< s)) >>> s).toNat = (v.extractLsb' s 8).toNat := by
  have hbyte : (v &&& (0xff#32 <<< s)) >>> s = (v.extractLsb' s 8).setWidth 32 := by
    refine eq_of_getLsbD_eq fun i hi => ?_
    rw [getLsbD_ushiftRight, getLsbD_and, getLsbD_byteMask hs,
      getLsbD_setWidth, getLsbD_extractLsb']
    by_cases hi' : i < 8 <;> simp [hi, hi']
  rw [hbyte, toNat_setWidth, mod_eq_of_lt]
  exact lt_trans (v.extractLsb' s 8).isLt (by decide)

theorem isLowestBit_of_byte (hbyte : v &&& (0xff#32 <<< s) ≠ 0#32)
    (hlow : ∀ j < s, v.getLsbD j = false) (hs : s + 8 ≤ 32 := by decide) :
    IsLowestBit v (lowestBitBitmap.getD ((v &&& (0xff#32 <<< s)) >>> s).toNat 0 + s) := by
  rw [byte_eq_extract v hs]
  have hne : v.extractLsb' s 8 ≠ 0#8 := by
    intro hzero
    refine hbyte (eq_of_getLsbD_eq fun i hi => ?_)
    have hbit := congrArg (BitVec.getLsbD · (i - s)) hzero
    simp only [getLsbD_extractLsb', getLsbD_zero] at hbit
    rw [getLsbD_and, getLsbD_byteMask hs, getLsbD_zero]
    by_cases hin : s ≤ i ∧ i < s + 8
    · rw [Nat.add_sub_cancel' hin.1] at hbit
      have : i - s < 8 := by omega
      simpa [this, hin] using hbit
    · simp [hin]
  obtain ⟨hset, hbelow⟩ := lowestBitBitmap_isLowestBit _ hne
  simp only [getLsbD_extractLsb', Bool.and_eq_true] at hset hbelow
  refine ⟨by rw [Nat.add_comm]; exact hset.2, fun j hj => ?_⟩
  by_cases hjs : j < s
  · exact hlow j hjs
  · have hb := hbelow (j - s) (by omega)
    have hlt : j - s < 8 := by
      have hin : lowestBitBitmap.getD (v.extractLsb' s 8).toNat 0 < 8 := of_decide_eq_true hset.1
      omega
    rw [Nat.add_sub_cancel' (Nat.le_of_not_lt hjs)] at hb
    simpa [hlt] using hb

theorem getLsbD_of_byte_eq_zero (hbyte : v &&& (0xff#32 <<< s) = 0#32)
    (hlow : ∀ j < s, v.getLsbD j = false) (hs : s + 8 ≤ 32 := by decide) :
    ∀ j < s + 8, v.getLsbD j = false := by
  intro j hj
  by_cases hjs : j < s
  · exact hlow j hjs
  · have hbit := congrArg (BitVec.getLsbD · j) hbyte
    simpa [getLsbD_byteMask hs, Nat.le_of_not_lt hjs, hj] using hbit

theorem rtFfs_eq (v : BitVec 32) : rtFfs v =
      let entry (s : ℕ) := lowestBitBitmap.getD ((v &&& (0xff#32 <<< s)) >>> s).toNat 0 + s + 1
      if v = 0#32 then 0
      else if v &&& (0xff#32 <<< 0) ≠ 0#32 then entry 0
      else if v &&& (0xff#32 <<< 8) ≠ 0#32 then entry 8
      else if v &&& (0xff#32 <<< 16) ≠ 0#32 then entry 16
      else entry 24 := rfl

theorem rtFfs_isLowestBit (hv : v ≠ 0#32) : ∃ i, rtFfs v = i + 1 ∧ IsLowestBit v i := by
  rw [rtFfs_eq]
  rw [if_neg hv]
  have hlow0 : ∀ j < 0, v.getLsbD j = false := fun j hj => absurd hj (not_lt_zero j)
  by_cases h0 : v &&& (0xff#32 <<< 0) = 0#32
  · have hlow8 := getLsbD_of_byte_eq_zero h0 hlow0
    rw [if_neg (not_not.mpr h0)]
    by_cases h8 : v &&& (0xff#32 <<< 8) = 0#32
    · have hlow16 := getLsbD_of_byte_eq_zero h8 hlow8
      rw [if_neg (not_not.mpr h8)]
      by_cases h16 : v &&& (0xff#32 <<< 16) = 0#32
      · have hlow24 := getLsbD_of_byte_eq_zero h16 hlow16
        rw [if_neg (not_not.mpr h16)]
        refine ⟨_, rfl, isLowestBit_of_byte (fun h24 => hv ?_) hlow24⟩
        have hall := getLsbD_of_byte_eq_zero h24 hlow24
        exact eq_of_getLsbD_eq fun j hj => by rw [hall j hj, getLsbD_zero]
      · rw [if_pos h16]
        exact ⟨_, rfl, isLowestBit_of_byte h16 hlow16⟩
    · rw [if_pos h8]
      exact ⟨_, rfl, isLowestBit_of_byte h8 hlow8⟩
  · rw [if_pos h0]
    exact ⟨_, rfl, isLowestBit_of_byte h0 hlow0⟩

namespace Kernel
variable {τ ι : Type*} {k : Kernel τ ι} {p : Fin 32} {t : τ}

/-- `p` is the numerically smallest priority of a ready thread. -/
structure MostUrgent (k : Kernel τ ι) (p : Fin 32) : Prop where
  attained : ∃ t, (k.thread t).stat = .ready ∧ (k.thread t).currentPriority = p
  least : ∀ t, (k.thread t).stat = .ready → p ≤ (k.thread t).currentPriority

theorem MostUrgent.unique {q : Fin 32} (hp : MostUrgent k p) (hq : MostUrgent k q) : p = q := by
  obtain ⟨t, ht, rfl⟩ := hp.attained
  obtain ⟨u, hu, rfl⟩ := hq.attained
  exact Fin.le_antisymm (hp.least u hu) (hq.least t ht)

theorem ReadyOk.rtFfs_mostUrgent (h : ReadyOk k) (ht : (k.thread t).stat = .ready) :
    ∃ p : Fin 32, rtFfs k.readyPriorityGroup = p.val + 1 ∧ MostUrgent k p := by
  have hbit : ∀ u, (k.thread u).stat = .ready →
      k.readyPriorityGroup.getLsbD (k.thread u).currentPriority = true := fun u hu =>
    (h.bit _).mpr (ne_nil_of_mem (((h.own u).mem _).mpr ⟨hu, rfl⟩))
  have hgroup : k.readyPriorityGroup ≠ 0#32 := by
    intro hzero
    have hset := hbit t ht
    rw [hzero, getLsbD_zero] at hset
    exact Bool.false_ne_true hset
  obtain ⟨i, hffs, hi⟩ := rtFfs_isLowestBit hgroup
  have hlt : i < 32 := lt_of_getLsbD hi.isSet
  obtain ⟨u, hu⟩ := exists_mem_of_ne_nil _ ((h.bit ⟨i, hlt⟩).mp hi.isSet)
  refine ⟨⟨i, hlt⟩, hffs, ⟨u, ((h.own u).mem _).mp hu⟩, fun v hv =>
    Nat.le_of_not_lt fun hbelow => ?_⟩
  have hset := hbit v hv
  rw [hi.below _ hbelow] at hset
  exact Bool.false_ne_true hset

theorem ReadyOk.toThread_of_mostUrgent (h : ReadyOk k) (hp : MostUrgent k p) :
    k.toThread = (k.list (.ready p)).head? := by
  obtain ⟨t, ht, -⟩ := hp.attained
  obtain ⟨q, hffs, hq⟩ := h.rtFfs_mostUrgent ht
  have hfin : Fin.ofNat 32 (rtFfs k.readyPriorityGroup - 1) = p := by
    rw [hp.unique hq, hffs]
    exact Fin.ext (mod_eq_of_lt q.isLt)
  rw [toThread, if_neg (by rw [hffs]; exact succ_ne_zero _), hfin]

/-- The running thread is the first of several that are ready at the most urgent priority, and
`ts` is their list. -/
structure Turn (k : Kernel τ ι) (p : Fin 32) (ts : List τ) : Prop where
  ready : ReadyOk k
  unlocked : k.schedulerLockNest = 0
  urgent : MostUrgent k p
  list : k.list (.ready p) = ts
  current : k.currentThread = ts.head?

theorem ReadyOk.turn_rtSchedule (h : ReadyOk k) (hlock : k.schedulerLockNest = 0)
    (hp : MostUrgent k p) : Turn k.rtSchedule p (k.list (.ready p)) := by
  have hschedule : k.rtSchedule = { k with currentThread := k.toThread } := by
    rw [Kernel.rtSchedule, if_pos hlock]
  refine ⟨h.rtSchedule, ?_, ?_, ?_, ?_⟩
  · rw [hschedule]
    exact hlock
  · rw [hschedule]
    exact ⟨hp.attained, hp.least⟩
  · rw [hschedule]
  · rw [hschedule]
    exact h.toThread_of_mostUrgent hp

variable [DecidableEq τ] [DecidableEq ι] {ts : List τ}

theorem Turn.yield (h : Turn k p ts) (hts : 2 ≤ ts.length) :
    Turn (k.apply .yield) p (ts.rotate 1) := by
  obtain ⟨t, us, rfl⟩ : ∃ t us, ts = t :: us := by
    cases ts with
    | nil => simp at hts
    | cons t us => exact ⟨t, us, rfl⟩
  have hmem : t ∈ k.list (.ready p) := by simp [h.list]
  obtain ⟨hstat, rfl⟩ := ((h.ready.own t).mem p).mp hmem
  have hyield : k.apply .yield = k.rtThreadYield t := by
    rw [Kernel.apply, onCurrent, h.current]
    rfl
  have hready := h.ready.rtThreadYield (t := t)
  have hcond : (k.thread t).stat = .ready ∧
      1 < (k.list (.ready (k.thread t).currentPriority)).length ∧
      t ∈ k.list (.ready (k.thread t).currentPriority) := ⟨hstat, by rw [h.list]; exact hts, hmem⟩
  rw [rtThreadYield, if_pos hcond] at hyield hready
  -- before `rt_schedule` the list is rotated already, and nothing else has changed
  have hmoved : ReadyOk ((k.rtListRemove t).rtListInsertBefore t
      (.ready (k.thread t).currentPriority)) :=
    hready.congr (rtSchedule_list _).symm (rtSchedule_group _).symm fun u => by
      rw [rtSchedule_thread]
      exact ⟨rfl, rfl, rfl⟩
  have hturn := hmoved.turn_rtSchedule h.unlocked ⟨h.urgent.attained, h.urgent.least⟩
  have hlist : ((k.rtListRemove t).rtListInsertBefore t
      (.ready (k.thread t).currentPriority)).list (.ready (k.thread t).currentPriority) =
      (t :: us).rotate 1 := by
    simp [h.list]
  rw [hlist] at hturn
  rw [hyield]
  exact hturn

theorem Turn.yields (h : Turn k p ts) (hts : 2 ≤ ts.length) (n : ℕ) :
    Turn ((fun k => k.apply .yield)^[n] k) p (ts.rotate n) := by
  induction n with
  | zero => simpa using h
  | succ n ih =>
    rw [Function.iterate_succ_apply', ← rotate_rotate]
    exact ih.yield (by rw [length_rotate]; exact hts)

end Kernel
end RtThread
