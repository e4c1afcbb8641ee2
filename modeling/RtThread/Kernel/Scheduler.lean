import RtThread.Kernel.State

/-!
# The scheduler

`scheduler.c` for `RT_THREAD_PRIORITY_MAX = 32`: one bit of `rt_thread_ready_priority_group` for
each priority, one ready list for each bit. The bit of a thread is cached in its `number_mask`.
-/

namespace RtThread

/-- `__lowest_bit_bitmap` (`kservice.c:1213-1231`). -/
def lowestBitBitmap : List Nat :=
  let row (n : Nat) := [n, 0, 1, 0, 2, 0, 1, 0, 3, 0, 1, 0, 2, 0, 1, 0]
  row 0 ++ row 4 ++ row 5 ++ row 4 ++ row 6 ++ row 4 ++ row 5 ++ row 4 ++
  row 7 ++ row 4 ++ row 5 ++ row 4 ++ row 6 ++ row 4 ++ row 5 ++ row 4

/-- `__rt_ffs` (`kservice.c:1243-1257`). -/
def rtFfs (value : BitVec 32) : Nat :=
  if value = 0 then 0
  else if value &&& 0xff ≠ 0 then lowestBitBitmap.getD (value &&& 0xff).toNat 0 + 1
  else if value &&& 0xff00 ≠ 0 then lowestBitBitmap.getD ((value &&& 0xff00) >>> 8).toNat 0 + 9
  else if value &&& 0xff0000 ≠ 0 then
    lowestBitBitmap.getD ((value &&& 0xff0000) >>> 16).toNat 0 + 17
  else lowestBitBitmap.getD ((value &&& 0xff000000) >>> 24).toNat 0 + 25

def priorityMask (p : Fin 32) : BitVec 32 := 1 <<< p.val

namespace Kernel
section
variable {τ ι : Type*} (k : Kernel τ ι)

/-- The thread that `rt_schedule` and `rt_system_scheduler_start` switch to: the first of the
highest ready priority. Without a ready thread they read outside `rt_thread_priority_table`. -/
def toThread : Option τ :=
  if rtFfs k.readyPriorityGroup = 0 then none
  else (k.list (.ready (Fin.ofNat 32 (rtFfs k.readyPriorityGroup - 1)))).head?

/-- `rt_system_scheduler_start` (`scheduler.c:156-181`). -/
def rtSystemSchedulerStart : Kernel τ ι := { k with currentThread := k.toThread }

/-- `rt_schedule` (`:193-260`). -/
def rtSchedule : Kernel τ ι :=
  if k.schedulerLockNest = 0 then { k with currentThread := k.toThread } else k

/-- `rt_system_scheduler_init` (`:122-149`); the threads and the suspend lists are not
its business. -/
def rtSystemSchedulerInit : Kernel τ ι :=
  { k with
    schedulerLockNest := 0
    list := fun
      | .ready _ | .defunct => []
      | .wait i => k.list (.wait i)
    currentThread := none
    readyPriorityGroup := 0 }

@[simp] theorem rtSchedule_thread : k.rtSchedule.thread = k.thread := by
  rw [rtSchedule]; split <;> rfl

@[simp] theorem rtSchedule_list : k.rtSchedule.list = k.list := by
  rw [rtSchedule]; split <;> rfl

@[simp] theorem rtSchedule_group : k.rtSchedule.readyPriorityGroup = k.readyPriorityGroup := by
  rw [rtSchedule]; split <;> rfl

theorem rtSchedule_currentThread :
    k.rtSchedule.currentThread = k.currentThread ∨
      k.rtSchedule.currentThread = k.rtSchedule.toThread := by
  rw [rtSchedule]
  split
  · exact .inr rfl
  · exact .inl rfl

variable [DecidableEq τ] (t : τ)

/-- `rt_schedule_remove_thread` (`:315-355`). -/
def rtScheduleRemoveThread : Kernel τ ι :=
  let k := k.rtListRemove t
  if k.list (.ready (k.thread t).currentPriority) = [] then
    { k with readyPriorityGroup := k.readyPriorityGroup &&& ~~~(k.thread t).numberMask }
  else k

@[simp] theorem rtScheduleRemoveThread_thread : (k.rtScheduleRemoveThread t).thread = k.thread := by
  simp only [rtScheduleRemoveThread]
  split <;> rfl

@[simp] theorem rtScheduleRemoveThread_list (h : ListHead ι) :
    (k.rtScheduleRemoveThread t).list h = (k.list h).erase t := by
  simp only [rtScheduleRemoveThread]
  split <;> rfl

theorem rtScheduleRemoveThread_group : (k.rtScheduleRemoveThread t).readyPriorityGroup =
      if (k.list (.ready (k.thread t).currentPriority)).erase t = [] then
        k.readyPriorityGroup &&& ~~~(k.thread t).numberMask
      else k.readyPriorityGroup := by
  simp only [rtScheduleRemoveThread, rtListRemove_list, rtListRemove_thread]
  split <;> rfl

@[simp] theorem rtScheduleRemoveThread_currentThread :
    (k.rtScheduleRemoveThread t).currentThread = k.currentThread := by
  simp only [rtScheduleRemoveThread]
  split <;> rfl

end

variable {τ ι : Type*} [DecidableEq τ] [DecidableEq ι] (k : Kernel τ ι) (t : τ)

/-- `rt_schedule_insert_thread` (`:269-306`). -/
def rtScheduleInsertThread : Kernel τ ι :=
  -- change stat
  let k := k.setThread t fun x => { x with stat := .ready }
  -- insert thread to ready list
  let k := k.rtListInsertBefore t (.ready (k.thread t).currentPriority)
  -- set priority mask
  { k with readyPriorityGroup := k.readyPriorityGroup ||| (k.thread t).numberMask }

@[simp] theorem rtScheduleInsertThread_thread : (k.rtScheduleInsertThread t).thread =
      Function.update k.thread t { k.thread t with stat := .ready } := rfl

theorem rtScheduleInsertThread_list (h : ListHead ι) : (k.rtScheduleInsertThread t).list h =
      if h = .ready (k.thread t).currentPriority then k.list h ++ [t] else k.list h := by
  simp only [rtScheduleInsertThread, rtListInsertBefore, setThread, Function.update_self,
    Function.update_apply]
  split
  · rename_i heq
    rw [heq]
  · rfl

@[simp] theorem rtScheduleInsertThread_group : (k.rtScheduleInsertThread t).readyPriorityGroup =
      k.readyPriorityGroup ||| (k.thread t).numberMask := by
  simp [rtScheduleInsertThread]

end Kernel

theorem getLsbD_priorityMask (p q : Fin 32) : (priorityMask p).getLsbD q = decide (q = p) := by
  revert p q
  decide

end RtThread
