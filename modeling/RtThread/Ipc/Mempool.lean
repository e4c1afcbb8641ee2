import Mathlib.Algebra.Group.Nat.Even
import Mathlib.Data.Fintype.Basic
import RtThread.Ipc.Wait

/-!
# Memory pools

`rt_mp_alloc` and `rt_mp_free` of `mempool.c`, in steps that are the sections with interrupts
disabled. The count of waiting threads goes down in `rt_mp_free` only: it is right as long as
threads leave the list in no other way, and wrong from the first timeout on.
-/

namespace RtThread
open BitVec
open Kernel
open Function
open List

/-- The fields of `struct rt_mempool` (`rtdef.h:712-727`) that change. `blockList` holds the unused
blocks in the order of their links; the threads of `suspend_thread` are in the kernel. -/
structure Mempool (β : Type*) where
  blockList : List β
  blockFreeCount : BitVec 32
  suspendThreadCount : BitVec 32

inductive MpPc (ι : Type*)
  | idle
  /-- behind `rt_schedule`, with the local variables `mp`, `time` and `before_sleep` -/
  | waiting (p : ι) (time beforeSleep : BitVec 32)
  /-- at the test of the loop again -/
  | again (p : ι) (time beforeSleep : BitVec 32)

namespace MpPc
variable {ι : Type*}

def isIdle : MpPc ι → Bool
  | .idle => true
  | .waiting _ _ _ | .again _ _ _ => false

def isWaiting : MpPc ι → Bool
  | .waiting _ _ _ => true
  | .idle | .again _ _ _ => false

def isAgain : MpPc ι → Bool
  | .again _ _ _ => true
  | .idle | .waiting _ _ _ => false

end MpPc

/-- The threads, the pools, the pool that the word in front of a used block points to, and where
each thread is. -/
structure MpSys (τ ι β : Type*) where
  k : Kernel τ ι
  pool : ι → Mempool β
  owner : β → Option ι
  pc : τ → MpPc ι

inductive MpResult (β : Type*)
  /-- the call goes on, or returns nothing -/
  | void
  /-- `rt_mp_alloc` returns the block -/
  | block (b : β)
  /-- `rt_mp_alloc` returns `RT_NULL` -/
  | null
  /-- `rt_mp_alloc` takes a block from an empty list -/
  | noBlock
  /-- `rt_mp_free` takes the head of the suspend list for a thread -/
  | noThread
  deriving DecidableEq

/-- The steps of a run. `tick` is what `rt_tick_get` returns. -/
inductive MpOp (τ ι β : Type*)
  /-- `rt_mp_alloc(p, time)`, called by the thread `t` -/
  | alloc (t : τ) (p : ι) (time tick : BitVec 32)
  /-- `rt_mp_alloc(p, 0)` in an interrupt -/
  | allocIsr (p : ι)
  /-- the thread runs again, behind `rt_schedule` -/
  | wakeup (t : τ) (tick : BitVec 32)
  /-- the next round of the loop -/
  | again (t : τ) (tick : BitVec 32)
  /-- `rt_mp_free(b)` -/
  | free (b : β)
  /-- the timer of `t` expires -/
  | timeout (t : τ)
  | delete (t : τ)
  | detach (t : τ)

namespace Kernel
variable {τ ι : Type*} [DecidableEq τ] [DecidableEq ι] (k : Kernel τ ι) (i : ι) (t : τ)

/-- What `rt_mp_alloc` does with the thread before `rt_schedule` (`mempool.c:352-371`): the last one
that comes is the first of the list. -/
def mpWait (time : BitVec 32) : Kernel τ ι :=
  let k := k.setThread t fun x => { x with error := .eok }
  let k := (k.rtThreadSuspend t).2
  let k := k.rtListInsertAfter t (.wait i)
  if 0 < time.toInt then k.rtTimerStart t time else k

/-- What `rt_mp_free` does with the first thread of the list (`:440-448`). -/
def mpResume : Kernel τ ι :=
  match k.list (.wait i) with
  | [] => k
  | t :: _ => ((k.setThread t fun x => { x with error := .eok }).rtThreadResume t).2

variable {k i t} {j : ι} {time : BitVec 32}

theorem WaitOk.mpWait (h : WaitOk k) (hs : (k.thread t).stat = .ready) :
    WaitOk (k.mpWait i t time) := by
  have hk := h.setError (t := t) .eok
  have hready : ((k.setThread t fun x => { x with error := .eok }).thread t).stat = .ready := by
    simpa using hs
  have hlisted := hk.suspendInto (i := i) hready (List.Perm.refl _)
  rw [Kernel.mpWait]
  split
  · exact hlisted.rtTimerStart (by simp [rtThreadSuspend_thread hready]) time
  · exact hlisted

theorem WaitOk.mpWait_list (h : WaitOk k) (hs : (k.thread t).stat = .ready) :
    (k.mpWait i t time).list (.wait j) =
      if j = i then t :: k.list (.wait i) else k.list (.wait j) := by
  have hready : ((k.setThread t fun x => { x with error := .eok }).thread t).stat = .ready := by
    simpa using hs
  have hsame : ∀ j, ((k.setThread t fun x => { x with error := .eok }).rtThreadSuspend t).2.list
      (.wait j) = k.list (.wait j) := by
    intro j
    rw [rtThreadSuspend_list hready]
    exact erase_of_not_mem (h.toReadyOk.not_mem_wait hs)
  have hlist : (k.mpWait i t time).list (.wait j) =
      update (((k.setThread t fun x => { x with error := .eok }).rtThreadSuspend t).2.list)
        (.wait i)
        (t :: ((k.setThread t fun x => { x with error := .eok }).rtThreadSuspend t).2.list
          (.wait i))
        (.wait j) := by
    rw [Kernel.mpWait]
    split <;> rfl
  rw [hlist, hsame]
  by_cases hj : j = i
  · simp [hj]
  · simp [hj, hsame]

theorem mpResume_of_cons {ts : List τ} (hlist : k.list (.wait i) = t :: ts) :
    k.mpResume i = (k.setThread t fun x => { x with error := .eok }).rtIpcListResume i := by
  have hlist' : (k.setThread t fun x => { x with error := .eok }).list (.wait i) = t :: ts := hlist
  rw [mpResume, hlist, rtIpcListResume_cons hlist']

theorem WaitOk.mpResume (h : WaitOk k) : WaitOk (k.mpResume i) := by
  cases hlist : k.list (.wait i) with
  | nil => simpa [Kernel.mpResume, hlist] using h
  | cons t ts =>
    rw [mpResume_of_cons hlist]
    exact (h.setError .eok).rtIpcListResume

theorem WaitOk.mpResume_list (h : WaitOk k) {ts : List τ} (hlist : k.list (.wait i) = t :: ts) :
    (k.mpResume i).list (.wait j) = if j = i then ts else k.list (.wait j) := by
  rw [mpResume_of_cons hlist]
  exact (h.setError .eok).rtIpcListResume_wait hlist j

attribute [local simp] rtTimerDetach

theorem rtThreadDelete_wait : (k.rtThreadDelete t).list (.wait j) = (k.list (.wait j)).erase t := by
  simp [rtThreadDelete]

theorem rtThreadDetach_wait : (k.rtThreadDetach t).list (.wait j) = (k.list (.wait j)).erase t := by
  rw [rtThreadDetach]
  split <;> simp [rtObjectDetach]

theorem WaitOk.rtThreadDelete (h : WaitOk k) (hs : (k.thread t).stat = .suspend) :
    WaitOk (k.rtThreadDelete t) := by
  have hsafe : RemoveSafe k t := ((h.own t).mask (.inr hs)).removeSafe
  refine h.closed (h.toReadyOk.rtThreadDelete hsafe) (fun _ => rtThreadDelete_wait)
    (fun u hu => ?_) ?_
  · simp [Kernel.rtThreadDelete, hu]
  · simp [Kernel.rtThreadDelete]

theorem WaitOk.rtThreadDetach (h : WaitOk k) (hs : (k.thread t).stat = .suspend) :
    WaitOk (k.rtThreadDetach t) := by
  have hsafe : RemoveSafe k t := ((h.own t).mask (.inr hs)).removeSafe
  refine h.closed (h.toReadyOk.rtThreadDetach hsafe) (fun _ => rtThreadDetach_wait)
    (fun u hu => ?_) ?_
  · rw [Kernel.rtThreadDetach]
    split <;> simp [rtObjectDetach, hu]
  · rw [Kernel.rtThreadDetach]
    split <;> simp [rtObjectDetach]

end Kernel

namespace MpSys
variable {τ ι β : Type*}

section Functions
variable [DecidableEq τ] [DecidableEq ι] [DecidableEq β] (s : MpSys τ ι β) (t : τ) (p : ι)

@[simps -fullyApplied] def setPool (f : Mempool β → Mempool β) : MpSys τ ι β :=
  { s with pool := update s.pool p (f (s.pool p)) }

/-- The block of `rt_mp_alloc` (`:391-401`). -/
def takeBlock : MpResult β × MpSys τ ι β :=
  match (s.pool p).blockList with
  | [] => (.noBlock, s)
  | b :: bs =>
    (.block b, { s.setPool p fun x =>
      { x with blockFreeCount := x.blockFreeCount - 1, blockList := bs } with
        owner := update s.owner b (some p) })

/-- `rt_mp_alloc` (`:321-407`) from the test of the loop up to `rt_schedule`. -/
def rtMpAlloc (time beforeSleep tick : BitVec 32) : MpResult β × MpSys τ ι β :=
  if (s.pool p).blockFreeCount = 0 then
    if time = 0 then
      -- rt_set_errno
      let k := s.k.setThread t fun x => { x with error := .etimeout }
      (.null, { s with k, pc := update s.pc t .idle })
    else
      let s := { s with k := s.k.mpWait p t time }
      let s := s.setPool p fun x => { x with suspendThreadCount := x.suspendThreadCount + 1 }
      let beforeSleep := if 0 < time.toInt then tick else beforeSleep
      (.void, { s with pc := update s.pc t (.waiting p time beforeSleep) })
  else { s with pc := update s.pc t .idle }.takeBlock p

/-- `rt_mp_alloc(p, 0)` in an interrupt, where `rt_set_errno` leaves the threads alone. -/
def rtMpAllocIsr : MpResult β × MpSys τ ι β :=
  if (s.pool p).blockFreeCount = 0 then (.null, s) else s.takeBlock p

/-- What `rt_mp_alloc` does behind `rt_schedule` (`:379-387`). -/
def rtMpAllocWakeup (time beforeSleep tick : BitVec 32) : MpResult β × MpSys τ ι β :=
  if (s.k.thread t).error ≠ .eok then (.null, { s with pc := update s.pc t .idle })
  else
    let time :=
      if 0 < time.toInt then
        let time := time - (tick - beforeSleep)
        if time.toInt < 0 then 0 else time
      else time
    (.void, { s with pc := update s.pc t (.again p time beforeSleep) })

/-- The block of `rt_mp_free` (`:430-435`). -/
def putBlock (b : β) : MpSys τ ι β :=
  { s.setPool p fun x =>
      { x with blockFreeCount := x.blockFreeCount + 1, blockList := b :: x.blockList } with
    owner := update s.owner b none }

/-- `rt_mp_free` (`:415-465`) of a block of the pool `p`. What is in front of the head of
the suspend list is not a thread, and what `rt_thread_resume` does to it is not told. -/
def rtMpFree (b : β) : MpResult β × MpSys τ ι β :=
  let s := s.putBlock p b
  if 0 < (s.pool p).suspendThreadCount then
    let found := if s.k.list (.wait p) = [] then .noThread else .void
    let s := { s with k := s.k.mpResume p }
    (found, s.setPool p fun x => { x with suspendThreadCount := x.suspendThreadCount - 1 })
  else (.void, s)

def Enabled : MpOp τ ι β → Prop
  | .alloc t _ _ _ => (s.k.thread t).stat = .ready ∧ (s.pc t).isIdle = true
  | .allocIsr _ => True
  | .wakeup t _ => (s.k.thread t).stat = .ready ∧ (s.pc t).isWaiting = true
  | .again t _ => (s.k.thread t).stat = .ready ∧ (s.pc t).isAgain = true
  | .free b => (s.owner b).isSome = true
  | .timeout t => (s.k.thread t).timerActivated = true
  | .delete t | .detach t => (s.k.thread t).stat = .suspend

def apply : MpOp τ ι β → MpResult β × MpSys τ ι β
  | .alloc t p time tick => s.rtMpAlloc t p time 0 tick
  | .allocIsr p => s.rtMpAllocIsr p
  | .wakeup t tick =>
    match s.pc t with
    | .waiting p time beforeSleep => s.rtMpAllocWakeup t p time beforeSleep tick
    | .idle | .again _ _ _ => (.void, s)
  | .again t tick =>
    match s.pc t with
    | .again p time beforeSleep => s.rtMpAlloc t p time beforeSleep tick
    | .idle | .waiting _ _ _ => (.void, s)
  | .free b =>
    match s.owner b with
    | some p => s.rtMpFree p b
    | none => (.void, s)
  | .timeout t => (.void, { s with k := s.k.rtTimerCheck t })
  | .delete t => (.void, { s with k := s.k.rtThreadDelete t })
  | .detach t => (.void, { s with k := s.k.rtThreadDetach t })

def machine : Machine (MpSys τ ι β) (MpOp τ ι β) (MpResult β) := ⟨Enabled, apply⟩

def Step (s : MpSys τ ι β) (e : MpOp τ ι β × MpResult β) (s' : MpSys τ ι β) : Prop :=
  machine.Step s e s'

def StepIf (P : MpSys τ ι β → MpOp τ ι β → Prop) (s : MpSys τ ι β) (e : MpOp τ ι β × MpResult β)
    (s' : MpSys τ ι β) : Prop :=
  machine.StepIf P s e s'

instance (s : MpSys τ ι β) (op : MpOp τ ι β) : Decidable (machine.Enabled s op) :=
  match op with
  | .alloc .. | .wakeup .. | .again .. => instDecidableAnd
  | .allocIsr _ => .isTrue trivial
  | .free _ | .timeout _ => inferInstanceAs (Decidable (_ = true))
  | .delete _ | .detach _ => decEq _ _

end Functions

/-- No thread that waits in a pool times out, or is deleted or detached. -/
def CountSafe (s : MpSys τ ι β) : MpOp τ ι β → Prop
  | .timeout t | .delete t | .detach t => ∀ p, t ∉ s.k.list (.wait p)
  | .alloc _ _ _ _ | .allocIsr _ | .wakeup _ _ | .again _ _ | .free _ => True

/-- The threads are in order, and the pools count those that wait. -/
structure Ok (s : MpSys τ ι β) : Prop where
  k : s.k.WaitOk
  count : ∀ p, (s.pool p).suspendThreadCount = BitVec.ofNat 32 (s.k.list (.wait p)).length

variable {s : MpSys τ ι β} {t : τ} {p : ι}

theorem Ok.of_lists (h : Ok s) {k : Kernel τ ι} (hk : k.WaitOk)
    (hlist : ∀ p, k.list (.wait p) = s.k.list (.wait p)) : Ok { s with k := k } :=
  ⟨hk, fun p => by rw [hlist]; exact h.count p⟩

variable [DecidableEq ι] [DecidableEq β]

theorem Ok.takeBlock (h : Ok s) : Ok (s.takeBlock p).2 := by
  rw [MpSys.takeBlock]
  split
  · exact h
  · refine ⟨h.k, fun q => ?_⟩
    by_cases hq : q = p
    · simpa [hq] using h.count p
    · simpa [hq] using h.count q

theorem Ok.putBlock (h : Ok s) (b : β) : Ok (s.putBlock p b) := by
  refine ⟨h.k, fun q => ?_⟩
  by_cases hq : q = p
  · simpa [MpSys.putBlock, hq] using h.count p
  · simpa [MpSys.putBlock, hq] using h.count q

variable [DecidableEq τ]

omit [DecidableEq β] in
theorem Ok.resume (h : Ok s) {ts : List τ} (hlist : s.k.list (.wait p) = t :: ts) :
    Ok ({ s with k := s.k.mpResume p }.setPool p fun x =>
      { x with suspendThreadCount := x.suspendThreadCount - 1 }) := by
  refine ⟨h.k.mpResume, fun q => ?_⟩
  simp only [setPool_k, setPool_pool, h.k.mpResume_list hlist]
  by_cases hq : q = p
  · simp only [hq, update_self, h.count, hlist, length_cons, if_true]
    rw [ofNat_add]
    exact add_sub_cancel _ _
  · simp [hq, h.count]

theorem Ok.rtMpAlloc (h : Ok s) (hs : (s.k.thread t).stat = .ready)
    (time beforeSleep tick : BitVec 32) : Ok (s.rtMpAlloc t p time beforeSleep tick).2 := by
  have hidle : Ok { s with pc := update s.pc t .idle } := ⟨h.k, h.count⟩
  rw [MpSys.rtMpAlloc]
  split
  · split
    · exact ⟨h.k.setError .etimeout, h.count⟩
    · refine ⟨h.k.mpWait hs, fun q => ?_⟩
      simp only [setPool_k, setPool_pool, h.k.mpWait_list hs]
      by_cases hq : q = p
      · simp [hq, h.count, ofNat_add]
      · simp [hq, h.count]
  · exact hidle.takeBlock

theorem Ok.rtMpFree (h : Ok s) (b : β) : Ok (s.rtMpFree p b).2 ∧ (s.rtMpFree p b).1 = .void := by
  have hput := h.putBlock (p := p) b
  rw [MpSys.rtMpFree]
  split
  · rename_i hpos
    obtain ⟨t, ts, hlist⟩ : ∃ t ts, (s.putBlock p b).k.list (.wait p) = t :: ts := by
      refine exists_cons_of_ne_nil fun hempty => ?_
      simp [hput.count, hempty] at hpos
    exact ⟨hput.resume hlist, by simp [hlist]⟩
  · exact ⟨hput, rfl⟩

theorem Ok.step {s' : MpSys τ ι β} {e : MpOp τ ι β × MpResult β} (h : Ok s)
    (hstep : StepIf CountSafe s e s') : Ok s' := by
  obtain ⟨op, r⟩ := e
  obtain ⟨⟨henabled, happly⟩, hsafe⟩ := hstep
  obtain rfl : s' = (s.apply op).2 := (congrArg Prod.snd happly).symm
  cases op with
  | alloc t p time tick => exact h.rtMpAlloc henabled.1 time 0 tick
  | allocIsr p =>
    rw [apply, rtMpAllocIsr]
    split
    · exact h
    · exact h.takeBlock
  | wakeup t tick =>
    rw [apply]
    split
    · rw [rtMpAllocWakeup]
      split <;> exact ⟨h.k, h.count⟩
    · exact h
    · exact h
  | again t tick =>
    rw [apply]
    split
    · exact h.rtMpAlloc henabled.1 _ _ tick
    · exact h
    · exact h
  | free b =>
    rw [apply]
    split
    · exact (h.rtMpFree b).1
    · exact h
  | timeout t =>
    refine h.of_lists (h.k.rtTimerCheck (h.k.timer t henabled)) fun p => ?_
    rw [rtTimerCheck_wait, erase_of_not_mem (hsafe p)]
  | delete t =>
    refine h.of_lists (h.k.rtThreadDelete henabled) fun p => ?_
    rw [rtThreadDelete_wait, erase_of_not_mem (hsafe p)]
  | detach t =>
    refine h.of_lists (h.k.rtThreadDetach henabled) fun p => ?_
    rw [rtThreadDetach_wait, erase_of_not_mem (hsafe p)]

/-- A scheduler in order, and pools for which nobody waits. -/
structure Start (s : MpSys τ ι β) : Prop where
  k : s.k.WaitOk
  empty : ∀ p, s.k.list (.wait p) = []
  count : ∀ p, (s.pool p).suspendThreadCount = 0

/-- In a run in which no waiting thread times out or is deleted or detached, `suspend_thread_count`
is the length of the suspend list (modulo `2^32`, the width of the field), and `rt_mp_free` never
takes the head of the list for a thread. -/
theorem suspend_count_of_safe_run {s₀ : MpSys τ ι β} {tr : List (MpOp τ ι β × MpResult β)}
    (hstart : Start s₀) (hrun : Run (StepIf CountSafe) s₀ tr s) :
    (∀ p, (s.pool p).suspendThreadCount = BitVec.ofNat 32 (s.k.list (.wait p)).length) ∧
    (∀ p, (s.k.list (.wait p)).length < 2 ^ 32 →
      (s.pool p).suspendThreadCount.toNat = (s.k.list (.wait p)).length) ∧
    ∀ p b, (s.rtMpFree p b).1 ≠ .noThread := by
  have hok : Ok s := by
    refine hrun.state_invariant ⟨hstart.k, fun p => ?_⟩ fun s e s' h hstep => h.step hstep
    simp [hstart.count, hstart.empty]
  refine ⟨hok.count, fun p hlen => ?_, fun p b => ?_⟩
  · rw [hok.count, toNat_ofNat, Nat.mod_eq_of_lt hlen]
  · rw [(hok.rtMpFree b).2]
    simp

instance [Fintype ι] (s : MpSys τ ι β) (op : MpOp τ ι β) : Decidable (s.CountSafe op) :=
  match op with
  | .timeout t | .delete t | .detach t =>
    inferInstanceAs (Decidable (∀ p, t ∉ s.k.list (.wait p)))
  | .alloc .. | .allocIsr _ | .wakeup .. | .again .. | .free _ =>
    .isTrue trivial

def onePool : MpSys Bool Unit Unit where
  k := boot twoPriorities [false, true]
  pool _ := ⟨[()], 1, 0⟩
  owner _ := none
  pc _ := .idle

theorem onePool_start : onePool.Start where
  k := boot_waitOk twoPriorities [false, true]
  empty _ := rfl
  count _ := rfl

/-- One thread has the block, and the other one waits for it. -/
theorem suspend_count_of_safe_run_two :
    ∃ tr s, Run (StepIf CountSafe) onePool tr s ∧ s.k.list (.wait ()) = [true] ∧
      (s.pool ()).suspendThreadCount.toNat = 1 ∧ (s.rtMpFree () ()).1 ≠ .noThread := by
  have hrun := machine.run_exec CountSafe onePool [.alloc false () 0 0, .alloc true () 10 0]
  have hcount := (suspend_count_of_safe_run onePool_start hrun).2
  refine ⟨_, _, hrun, by decide +kernel, (hcount.1 () ?_).trans ?_, hcount.2 () ()⟩ <;>
    decide +kernel

/-- The thread that waits times out. The count stays, and `rt_mp_free` takes the head of the empty
list for a thread. -/
theorem timeout_keeps_count :
    ∃ tr s s', onePool.Start ∧ Run Step onePool tr s ∧ s.k.list (.wait ()) = [] ∧
      (s.pool ()).suspendThreadCount = 1 ∧ Step s (.free (), .noThread) s' := by
  have hrun := machine.run_steps onePool [.alloc false () 0 0, .alloc true () 10 0, .timeout true]
  refine ⟨_, _, _, onePool_start, hrun, ?_, ?_, ?_, Prod.ext ?_ rfl⟩
  · decide +kernel
  · decide +kernel
  · change Option.isSome _ = true
    decide +kernel
  · decide +kernel

end MpSys
end RtThread
