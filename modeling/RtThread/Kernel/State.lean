import Mathlib.Data.List.Nodup

/-!
# Threads and the lists they are linked into

The part of `struct rt_thread` that the scheduler, `thread.c` and `ipc.c` read and write, and the
lists a thread can be linked into by its `tlist` node. Threads are of an arbitrary type `τ`, suspend
lists are named by an arbitrary type `ι`. `RT_THREAD_PRIORITY_MAX` is 32, and a priority is a number
below it, as `_rt_thread_init` asserts.

A list is the list of its threads, in the order of `next`. A `tlist` node is linked into one list at
a time, so `rt_list_remove` takes the thread out of whichever list holds it.
-/

namespace RtThread
open Function

/-- `rt_err_t` (`rtdef.h:254-262`); all but `eok` stand for the negated code. -/
inductive RtErr
  | eok | error | etimeout | efull | eempty | enomem | enosys | ebusy | eio
  deriving DecidableEq

/-- `thread->stat` (`rtdef.h:463-468`). -/
inductive ThreadStat
  | init | ready | suspend | close
  deriving DecidableEq

/-- The fields of `struct rt_thread` (`rtdef.h:481-530`) and of its built-in timer. -/
structure Thread where
  error : RtErr
  stat : ThreadStat
  currentPriority : Fin 32
  initPriority : Fin 32
  numberMask : BitVec 32
  /-- `thread_timer` is in the timer list. `RT_TIMER_FLAG_ACTIVATED` says the same as long as the
  timer is not detached; `rt_timer_detach` unlinks the timer and leaves the flag. -/
  timerActivated : Bool
  /-- `thread_timer.init_tick` -/
  timerInitTick : BitVec 32
  /-- `rt_object_is_systemobject(thread)`: the `RT_Object_Class_Static` bit of `type` -/
  isStatic : Bool
  /-- `thread->cleanup != RT_NULL` -/
  cleanup : Bool
  /-- linked into the list of thread objects by `thread->list` -/
  attached : Bool

/-- The heads of the lists that link threads. -/
inductive ListHead (ι : Type*)
  | ready (p : Fin 32)
  | defunct
  | wait (i : ι)
  deriving DecidableEq

/-- The state of the scheduler (`scheduler.c:43-60`) and of all threads. -/
structure Kernel (τ ι : Type*) where
  thread : τ → Thread
  list : ListHead ι → List τ
  readyPriorityGroup : BitVec 32
  currentThread : Option τ
  schedulerLockNest : BitVec 16

theorem field_update {α β γ : Type*} [DecidableEq α] (g : β → γ) {f : α → β} {a : α} {x : β}
    (b : α) (h : g x = g (f a) := by rfl) : g (update f a x b) = g (f b) := by
  by_cases hb : b = a
  · subst hb
    rw [update_self, h]
  · rw [update_of_ne hb]

namespace Kernel
variable {τ ι : Type*} [DecidableEq τ] [DecidableEq ι] (k : Kernel τ ι) (t : τ)

@[simps] def setThread (f : Thread → Thread) : Kernel τ ι :=
  { k with thread := update k.thread t (f (k.thread t)) }

/-- `rt_list_insert_before(head, &thread->tlist)` (`rtservice.h:77-84`): at the end. -/
@[simps] def rtListInsertBefore (h : ListHead ι) : Kernel τ ι :=
  { k with list := update k.list h (k.list h ++ [t]) }

/-- `rt_list_insert_after(head, &thread->tlist)` (`rtservice.h:62-69`): at the front. -/
@[simps] def rtListInsertAfter (h : ListHead ι) : Kernel τ ι :=
  { k with list := update k.list h (t :: k.list h) }

/-- `rt_list_remove(&thread->tlist)` (`rtservice.h:90-96`). -/
@[simps] def rtListRemove : Kernel τ ι :=
  { k with list := fun h => (k.list h).erase t }

/-- `rt_timer_stop(&thread->thread_timer)`. -/
def rtTimerStop : Kernel τ ι := k.setThread t fun x => { x with timerActivated := false }

/-- `rt_timer_control(&thread->thread_timer, RT_TIMER_CTRL_SET_TIME, &tick)` and then
`rt_timer_start(&thread->thread_timer)`, which `thread.c` and `ipc.c` always do together. -/
def rtTimerStart (tick : BitVec 32) : Kernel τ ι :=
  k.setThread t fun x => { x with timerActivated := true, timerInitTick := tick }

/-- `rt_timer_detach(&thread->thread_timer)`. -/
def rtTimerDetach : Kernel τ ι := k.setThread t fun x => { x with timerActivated := false }

/-- `rt_object_detach((rt_object_t)thread)` (`object.c:246-263`). -/
def rtObjectDetach : Kernel τ ι := k.setThread t fun x => { x with attached := false }

end Kernel
end RtThread
