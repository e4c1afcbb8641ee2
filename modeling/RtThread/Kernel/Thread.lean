import RtThread.Kernel.Scheduler

/-!
# Thread operations

`thread.c`. `RT_ASSERT` is empty in this configuration (`RT_DEBUG` is not defined), so what a
function does to a thread in an unexpected state is part of the model. A function that schedules in
the middle is cut there: what follows is done when the thread runs again.
-/

namespace RtThread

namespace Kernel
section
variable {τ ι : Type*} [DecidableEq τ] (k : Kernel τ ι) (t : τ)

/-- `rt_thread_suspend` (`thread.c:585-617`). -/
def rtThreadSuspend : RtErr × Kernel τ ι :=
  if (k.thread t).stat ≠ .ready then (.error, k)
  else
    let k := k.setThread t fun x => { x with stat := .suspend }
    let k := k.rtScheduleRemoveThread t
    (.eok, k.rtTimerStop t)

variable {k t}

theorem rtThreadSuspend_of_ready (h : (k.thread t).stat = .ready) :
    k.rtThreadSuspend t = (.eok, ((k.setThread t fun x =>
      { x with stat := .suspend }).rtScheduleRemoveThread t).rtTimerStop t) := by
  rw [rtThreadSuspend, if_neg (not_not.mpr h)]

end

variable {τ ι : Type*} [DecidableEq τ] [DecidableEq ι] (k : Kernel τ ι) (t : τ)

/-- `rt_thread_resume` (`:627-660`). -/
def rtThreadResume : RtErr × Kernel τ ι :=
  if (k.thread t).stat ≠ .suspend then (.error, k)
  else
    let k := k.rtListRemove t
    let k := k.rtTimerStop t
    (.eok, k.rtScheduleInsertThread t)

variable {k t}

theorem rtThreadResume_of_suspend (h : (k.thread t).stat = .suspend) :
    k.rtThreadResume t = (.eok, ((k.rtTimerStop t).rtListRemove t).rtScheduleInsertThread t) := by
  rw [rtThreadResume, if_neg (not_not.mpr h)]
  rfl

theorem rtThreadResume_of_not_suspend (h : (k.thread t).stat ≠ .suspend) :
    k.rtThreadResume t = (.error, k) := by
  rw [rtThreadResume, if_pos h]

variable (k t)

/-- `rt_thread_startup` (`:234-265`). -/
def rtThreadStartup : Kernel τ ι :=
  let k := k.setThread t fun x =>
    { x with
      currentPriority := x.initPriority
      numberMask := priorityMask x.initPriority
      stat := .suspend }
  let k := (k.rtThreadResume t).2
  if k.currentThread.isSome then k.rtSchedule else k

/-- `rt_thread_control` with `RT_THREAD_CTRL_CHANGE_PRIORITY` (`:516-558`). -/
def rtThreadChangePriority (p : Fin 32) : Kernel τ ι :=
  let change := fun x : Thread => { x with currentPriority := p, numberMask := priorityMask p }
  if (k.thread t).stat = .ready then
    let k := k.rtScheduleRemoveThread t
    let k := k.setThread t change
    k.rtScheduleInsertThread t
  else k.setThread t change

/-- `rt_thread_timeout` (`:669-690`). -/
def rtThreadTimeout : Kernel τ ι :=
  let k := k.setThread t fun x => { x with error := .etimeout }
  let k := k.rtListRemove t
  let k := k.rtScheduleInsertThread t
  k.rtSchedule

/-- `rt_thread_yield` (`:408-442`) of the thread `t`. Its node has different neighbours
exactly if its list holds another thread. -/
def rtThreadYield : Kernel τ ι :=
  if (k.thread t).stat = .ready ∧
      1 < (k.list (.ready (k.thread t).currentPriority)).length ∧
      t ∈ k.list (.ready (k.thread t).currentPriority) then
    let k := k.rtListRemove t
    let k := k.rtListInsertBefore t (.ready (k.thread t).currentPriority)
    k.rtSchedule
  else k

/-- `rt_thread_sleep` (`:452-480`) of the thread `t`, up to `rt_schedule`. -/
def rtThreadSleep (tick : BitVec 32) : Kernel τ ι :=
  let k := (k.rtThreadSuspend t).2
  let k := k.rtTimerStart t tick
  k.rtSchedule

/-- The end of `rt_thread_sleep` (`:475-477`), when the thread `t` runs again. -/
def rtThreadSleepEnd : Kernel τ ι :=
  if (k.thread t).error = .etimeout then k.setThread t fun x => { x with error := .eok } else k

/-- `rt_thread_exit` (`:78-113`) of the thread `t`. -/
def rtThreadExit : Kernel τ ι :=
  let k := k.rtScheduleRemoveThread t
  let k := k.setThread t fun x => { x with stat := .close }
  let k := k.rtTimerDetach t
  let k :=
    if (k.thread t).isStatic ∧ ¬ (k.thread t).cleanup then k.rtObjectDetach t
    else k.rtListInsertAfter t .defunct
  k.rtSchedule

/-- `rt_thread_detach` (`:276-308`). -/
def rtThreadDetach : Kernel τ ι :=
  let k := k.rtScheduleRemoveThread t
  let k := k.rtTimerDetach t
  let k := k.setThread t fun x => { x with stat := .close }
  let k := k.rtObjectDetach t
  if (k.thread t).cleanup then k.rtListInsertAfter t .defunct else k

/-- `rt_thread_delete` (`:371-397`). -/
def rtThreadDelete : Kernel τ ι :=
  let k := k.rtScheduleRemoveThread t
  let k := k.rtTimerDetach t
  let k := k.setThread t fun x => { x with stat := .close }
  k.rtListInsertAfter t .defunct

end Kernel
end RtThread
