import RtThread.Ipc.WaitView

/-!
# Mutexes

`rt_mutex_take` and `rt_mutex_release`, in steps that are the sections with interrupts disabled. A
call that has to wait ends its first section suspended, and returns in a second one when the thread
runs again. Any ready thread may run next.
-/

namespace RtThread
open Function

/-- The fields of `struct rt_mutex` (`rtdef.h:580-590`). -/
structure Mutex (τ : Type*) where
  flag : IpcFlag
  value : BitVec 16
  /-- `none` is `0xff` -/
  originalPriority : Option (Fin 32)
  hold : BitVec 8
  owner : Option τ

/-- `rt_mutex_init` (`ipc.c:525-544`). -/
def rtMutexInit {τ : Type*} (flag : IpcFlag) : Mutex τ where
  flag := flag
  value := 1
  originalPriority := none
  hold := 0
  owner := none

/-- The threads, the mutexes with their suspend lists, and for each thread the mutex for which it
waits in `rt_mutex_take`. -/
structure MutexSys (τ μ : Type*) where
  k : Kernel τ μ
  mutex : μ → Mutex τ
  taking : τ → Option μ

inductive MutexOp (τ μ : Type*)
  /-- the first section of `rt_mutex_take(m, time)`, called by `t` -/
  | take (t : τ) (m : μ) (time : BitVec 32)
  /-- what `rt_mutex_take` does behind `rt_schedule` -/
  | takeEnd (t : τ) (m : μ)
  /-- `rt_mutex_release(m)`, called by `t` -/
  | release (t : τ) (m : μ)
  /-- the timer of `t` expires -/
  | timeout (t : τ)

namespace MutexSys
variable {τ μ : Type*} [DecidableEq τ] [DecidableEq μ] (s : MutexSys τ μ) (t : τ) (m : μ)

@[simps -fullyApplied] def setMutex (f : Mutex τ → Mutex τ) : MutexSys τ μ :=
  { s with mutex := update s.mutex m (f (s.mutex m)) }

@[simps -fullyApplied] def setError (e : RtErr) : MutexSys τ μ :=
  { s with k := s.k.setThread t fun x => { x with error := e } }

/-- `rt_thread_control(mutex->owner, RT_THREAD_CTRL_CHANGE_PRIORITY, &thread->current_priority)` if
the thread is more urgent than the owner (`:708-714`). -/
def raiseOwner (k : Kernel τ μ) (owner : Option τ) : Kernel τ μ :=
  match owner with
  | none => k
  | some o =>
    if (k.thread t).currentPriority < (k.thread o).currentPriority then
      k.rtThreadChangePriority o (k.thread t).currentPriority
    else k

section RaiseOwner
variable {t} {k : Kernel τ μ} {owner : Option τ}

theorem raiseOwner_ok (h : k.WaitOk) (owner : Option τ) : (raiseOwner t k owner).WaitOk := by
  unfold raiseOwner
  split
  · exact h
  · split
    · exact h.rtThreadChangePriority _
    · exact h

theorem raiseOwner_thread : (raiseOwner t k owner).thread t = k.thread t := by
  unfold raiseOwner
  split
  · rfl
  · rename_i o
    split
    · rename_i hlt
      have hne : t ≠ o := by
        rintro rfl
        exact Nat.lt_irrefl _ hlt
      rw [Kernel.rtThreadChangePriority_thread, update_of_ne hne]
    · rfl

end RaiseOwner

/-- `rt_mutex_take` (`:642-761`) up to `rt_schedule`; the result is there unless the thread has
to wait. -/
def rtMutexTake (time : BitVec 32) : Option RtErr × MutexSys τ μ :=
  -- reset thread error
  let s := s.setError t .eok
  if (s.mutex m).owner = some t then
    -- it's the same thread
    (some .eok, s.setMutex m fun x => { x with hold := x.hold + 1 })
  else if 0 < (s.mutex m).value then
    -- mutex is available
    (some .eok, s.setMutex m fun x =>
      { x with
        value := x.value - 1
        owner := some t
        originalPriority := some (s.k.thread t).currentPriority
        hold := x.hold + 1 })
  else if time = 0 then
    -- no waiting, return with timeout
    (some .etimeout, s.setError t .etimeout)
  else
    let k := raiseOwner t s.k (s.mutex m).owner
    (none, { s with
      k := k.ipcWait m t (s.mutex m).flag time
      taking := update s.taking t (some m) })

/-- `rt_mutex_take` behind `rt_schedule`. -/
def rtMutexTakeEnd : RtErr × MutexSys τ μ :=
  let s' := { s with taking := update s.taking t none }
  if (s.k.thread t).error ≠ .eok then ((s.k.thread t).error, s') else (.eok, s')

/-- The owner gets its original priority back (`:809-814`). -/
def restorePriority (k : Kernel τ μ) (original : Option (Fin 32)) : Kernel τ μ :=
  match original with
  | none => k
  | some p => if p ≠ (k.thread t).currentPriority then k.rtThreadChangePriority t p else k

/-- `rt_mutex_release` (`:772-859`). -/
def rtMutexRelease : RtErr × MutexSys τ μ :=
  -- mutex only can be released by owner
  if (s.mutex m).owner ≠ some t then (.error, s.setError t .error)
  else
    let s := s.setMutex m fun x => { x with hold := x.hold - 1 }
    if (s.mutex m).hold = 0 then
      let k := restorePriority t s.k (s.mutex m).originalPriority
      match k.list (.wait m) with
      | w :: _ =>
        -- set new owner and priority
        let s := s.setMutex m fun x =>
          { x with
            owner := some w
            originalPriority := some (k.thread w).currentPriority
            hold := x.hold + 1 }
        (.eok, { s with k := k.rtIpcListResume m })
      | [] =>
        let s := s.setMutex m fun x =>
          { x with value := x.value + 1, owner := none, originalPriority := none }
        (.eok, { s with k := k })
    else (.eok, s)

/-- The thread is ready and not inside a call. -/
def Idle : Prop := (s.k.thread t).stat = .ready ∧ s.taking t = none

def Enabled : MutexOp τ μ → Prop
  | .take t _ _ | .release t _ => s.Idle t
  | .takeEnd t m => (s.k.thread t).stat = .ready ∧ s.taking t = some m
  | .timeout t => (s.k.thread t).timerActivated = true

def apply : MutexOp τ μ → Option RtErr × MutexSys τ μ
  | .take t m time => s.rtMutexTake t m time
  | .takeEnd t _ => (some (s.rtMutexTakeEnd t).1, (s.rtMutexTakeEnd t).2)
  | .release t m => (some (s.rtMutexRelease t m).1, (s.rtMutexRelease t m).2)
  | .timeout t => (none, { s with k := s.k.rtTimerCheck t })

/-- The mutexes as a machine. The result of a step is what the call that ends in it returns. -/
def machine : Machine (MutexSys τ μ) (MutexOp τ μ) (Option RtErr) := ⟨Enabled, apply⟩

def Step (s : MutexSys τ μ) (e : MutexOp τ μ × Option RtErr) (s' : MutexSys τ μ) : Prop :=
  machine.Step s e s'

def StepIf (P : MutexSys τ μ → MutexOp τ μ → Prop) (s : MutexSys τ μ)
    (e : MutexOp τ μ × Option RtErr) (s' : MutexSys τ μ) : Prop :=
  machine.StepIf P s e s'

instance (s : MutexSys τ μ) (op : MutexOp τ μ) : Decidable (machine.Enabled s op) :=
  match op with
  | .take .. | .release .. | .takeEnd .. => instDecidableAnd
  | .timeout _ => decEq _ _

/-- Initialised mutexes and a scheduler in order; no thread is in a suspend list. -/
structure Start (s : MutexSys τ μ) : Prop where
  k : s.k.WaitOk
  empty : ∀ m, s.k.list (.wait m) = []
  mutex : ∀ m, ∃ flag, s.mutex m = rtMutexInit flag
  idle : ∀ t, s.taking t = none

end MutexSys
end RtThread
