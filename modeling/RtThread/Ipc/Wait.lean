import RtThread.Kernel.ThreadRun

/-!
# Waiting in a suspend list

The list helpers of `ipc.c`. A thread that has to wait is suspended, linked into the suspend list of
the object, and its timer is started. It leaves the list when the object resumes it, or when the
timer expires; `thread->error` tells which.
-/

namespace RtThread
open Function
open List

/-- `RT_IPC_FLAG_FIFO` and `RT_IPC_FLAG_PRIO` (`rtdef.h:543-544`). -/
inductive IpcFlag
  | fifo | prio
  deriving DecidableEq

/-- What is left of `timeout` after waiting, as `rt_mb_send_wait`, `rt_mb_recv` and `rt_mq_recv`
compute it, with the new `tick_delta`. -/
def recalculate (timeout tickDelta tick : BitVec 32) : BitVec 32 × BitVec 32 :=
  if 0 < timeout.toInt then
    let tickDelta := tick - tickDelta
    let timeout := timeout - tickDelta
    (if timeout.toInt < 0 then 0 else timeout, tickDelta)
  else (timeout, tickDelta)

section Insert
variable {τ : Type*} (priority : τ → Fin 32) (t : τ)

/-- The loop of `rt_ipc_list_suspend` for `RT_IPC_FLAG_PRIO`: in front of the first thread that is
less urgent, or at the end. -/
def insertPrio : List τ → List τ
  | [] => [t]
  | u :: us => if priority t < priority u then t :: u :: us else u :: insertPrio us

variable (flag : IpcFlag) (ts : List τ)

/-- The list after the `switch` of `rt_ipc_list_suspend`. -/
def waitInsert : List τ :=
  match flag with
  | .fifo => ts ++ [t]
  | .prio => insertPrio priority t ts

theorem insertPrio_perm : (insertPrio priority t ts).Perm (t :: ts) := by
  induction ts with
  | nil => exact .refl _
  | cons u us ih =>
    rw [insertPrio]
    split
    · exact .refl _
    · exact (ih.cons u).trans (.swap t u us)

theorem waitInsert_perm : (waitInsert priority t flag ts).Perm (t :: ts) := by
  cases flag with
  | fifo => exact perm_append_singleton t ts
  | prio => exact insertPrio_perm priority t ts

@[simp] theorem mem_waitInsert {flag : IpcFlag} {ts : List τ} {u : τ} :
    u ∈ waitInsert priority t flag ts ↔ u = t ∨ u ∈ ts := by
  rw [(waitInsert_perm priority t flag ts).mem_iff, mem_cons]

end Insert

namespace Kernel
section
variable {τ ι : Type*} {k k' : Kernel τ ι} {i : ι} {t : τ}

/-- Threads in suspend lists are suspended, and timers run for suspended threads only. -/
structure WaitOk (k : Kernel τ ι) : Prop extends ReadyOk k where
  waiting : ∀ {t i}, t ∈ k.list (.wait i) → (k.thread t).stat = .suspend
  timer : ∀ t, (k.thread t).timerActivated = true → (k.thread t).stat = .suspend

theorem ReadyOk.not_mem_wait (h : ReadyOk k) (hs : (k.thread t).stat = .ready) :
    t ∉ k.list (.wait i) := by
  intro hmem
  have hready := ((h.own t).mem _).mpr ⟨hs, rfl⟩
  simpa using h.unique hmem hready

theorem WaitOk.of_same (h : WaitOk k) (hready : ReadyOk k')
    (hwait : ∀ j, k'.list (.wait j) = k.list (.wait j))
    (hsame : ∀ u, (k'.thread u).stat = (k.thread u).stat ∧
      (k'.thread u).timerActivated = (k.thread u).timerActivated) : WaitOk k' := by
  refine ⟨hready, fun hmem => ?_, fun u hu => ?_⟩
  · rw [hwait] at hmem
    rw [(hsame _).1]
    exact h.waiting hmem
  · rw [(hsame u).2] at hu
    rw [(hsame u).1]
    exact h.timer u hu

variable [DecidableEq τ]

attribute [local simp] rtTimerStop

theorem rtThreadSuspend_thread (hs : (k.thread t).stat = .ready) : (k.rtThreadSuspend t).2.thread =
      update k.thread t { k.thread t with stat := .suspend, timerActivated := false } := by
  rw [rtThreadSuspend_of_ready hs]
  funext u
  by_cases hu : u = t
  · subst hu
    simp
  · simp [hu]

theorem rtThreadSuspend_list (hs : (k.thread t).stat = .ready) (l : ListHead ι) :
    (k.rtThreadSuspend t).2.list l = (k.list l).erase t := by
  rw [rtThreadSuspend_of_ready hs]
  simp

/-- The thread has left the suspend lists, and the other threads are as they were. -/
theorem WaitOk.closed (h : WaitOk k) (hready : ReadyOk k')
    (hlist : ∀ j, k'.list (.wait j) = (k.list (.wait j)).erase t)
    (hthread : ∀ u, u ≠ t → k'.thread u = k.thread u)
    (htimer : (k'.thread t).timerActivated = true → (k'.thread t).stat = .suspend) : WaitOk k' := by
  refine ⟨hready, fun {u j} hu => ?_, fun u hu => ?_⟩
  · rw [hlist, h.mem_erase] at hu
    rw [hthread u hu.1]
    exact h.waiting hu.2
  · by_cases hut : u = t
    · exact hut ▸ htimer (hut ▸ hu)
    · rw [hthread u hut] at hu ⊢
      exact h.timer u hu

theorem ReadyOk.rtTimerStart (h : ReadyOk k) (tick : BitVec 32) : ReadyOk (k.rtTimerStart t tick) :=
  h.congr rfl rfl fun u => ⟨field_update Thread.stat u,
    field_update Thread.currentPriority u, field_update Thread.numberMask u⟩

theorem WaitOk.rtTimerStart (h : WaitOk k) (hs : (k.thread t).stat = .suspend) (tick : BitVec 32) :
    WaitOk (k.rtTimerStart t tick) := by
  have hstat : ∀ u, ((k.rtTimerStart t tick).thread u).stat = (k.thread u).stat :=
    fun u => field_update Thread.stat u
  refine ⟨h.toReadyOk.rtTimerStart tick, fun hmem => ?_, fun u hu => ?_⟩
  · rw [hstat]
    exact h.waiting hmem
  · rw [hstat]
    by_cases hut : u = t
    · exact hut ▸ hs
    · exact h.timer u (by simpa [Kernel.rtTimerStart, hut] using hu)

theorem WaitOk.setError (h : WaitOk k) (e : RtErr) :
    WaitOk (k.setThread t fun x => { x with error := e }) := by
  refine h.of_same (h.toReadyOk.congr rfl rfl fun u => ?_) (fun j => rfl) fun u => ?_
  all_goals
    by_cases hu : u = t
    · subst hu
      simp
    · simp [hu]

theorem rtThreadSleep_thread (hs : (k.thread t).stat = .ready) (tick : BitVec 32) :
    (k.rtThreadSleep t tick).thread = update k.thread t
      { k.thread t with stat := .suspend, timerActivated := true, timerInitTick := tick } := by
  funext u
  by_cases hu : u = t
  · subst hu
    simp [rtThreadSleep, rtTimerStart, rtThreadSuspend_thread hs]
  · simp [rtThreadSleep, rtTimerStart, rtThreadSuspend_thread hs, hu]

theorem WaitOk.rtThreadSleep (h : WaitOk k) (hs : (k.thread t).stat = .ready) (tick : BitVec 32) :
    WaitOk (k.rtThreadSleep t tick) := by
  refine h.closed (t := t) (h.toReadyOk.rtThreadSleep tick) (fun i => ?_) (fun u hu => ?_) ?_
  · simp [Kernel.rtThreadSleep, Kernel.rtTimerStart, rtThreadSuspend_list hs]
  · simp [rtThreadSleep_thread hs, hu]
  · simp [rtThreadSleep_thread hs]

end

variable {τ ι : Type*} [DecidableEq τ] [DecidableEq ι] (k : Kernel τ ι) (i : ι) (t : τ)

/-- `rt_ipc_list_suspend` (`ipc.c:92-134`). The result of `rt_thread_suspend` is ignored. -/
def rtIpcListSuspend (flag : IpcFlag) : Kernel τ ι :=
  let k := (k.rtThreadSuspend t).2
  k.setList (.wait i) (waitInsert (fun u => (k.thread u).currentPriority) t flag (k.list (.wait i)))

/-- `rt_ipc_list_resume` (`:146-159`); it is called for lists that are not empty. -/
def rtIpcListResume : Kernel τ ι :=
  match k.list (.wait i) with
  | [] => k
  | t :: _ => (k.rtThreadResume t).2

/-- The loop of `rt_ipc_list_resume_all`, at most `n` times. -/
def resumeAllLoop : Nat → Kernel τ ι → Kernel τ ι
  | 0, k => k
  | n + 1, k =>
    match k.list (.wait i) with
    | [] => k
    | t :: _ =>
      resumeAllLoop n ((k.setThread t fun x => { x with error := .error }).rtThreadResume t).2

/-- `rt_ipc_list_resume_all` (`:169-196`). A thread leaves the list in each round. -/
def rtIpcListResumeAll : Kernel τ ι := resumeAllLoop i (k.list (.wait i)).length k

/-- What the blocking functions of `ipc.c` do before `rt_schedule`: suspend the thread, and start
its timer if there is a waiting time. -/
def ipcWait (flag : IpcFlag) (time : BitVec 32) : Kernel τ ι :=
  let k := k.rtIpcListSuspend i t flag
  if 0 < time.toInt then k.rtTimerStart t time else k

/-- What `rt_completion_wait` (`completion.c:68-88`), `rt_data_queue_push` (`dataqueue.c:93-107`)
and `rt_data_queue_pop` (`dataqueue.c:183-197`) do before `rt_schedule`. -/
def listWait (timeout : BitVec 32) : Kernel τ ι :=
  let k := k.setThread t fun x => { x with error := .eok }
  let k := (k.rtThreadSuspend t).2
  let k := k.rtListInsertBefore t (.wait i)
  if 0 < timeout.toInt then k.rtTimerStart t timeout else k

/-- The round of `rt_timer_check` (`timer.c:501-540`) in which the timer of the thread `t` has
expired. -/
def rtTimerCheck : Kernel τ ι := (k.rtThreadTimeout t).rtTimerStop t

variable {k i t} {j : ι} {u : τ} {flag : IpcFlag} {time : BitVec 32}

attribute [local simp] rtTimerStop

theorem rtIpcListSuspend_thread (hs : (k.thread t).stat = .ready) :
    (k.rtIpcListSuspend i t flag).thread =
      update k.thread t { k.thread t with stat := .suspend, timerActivated := false } :=
  rtThreadSuspend_thread hs

theorem ReadyOk.rtIpcListSuspend_wait (h : ReadyOk k) (hs : (k.thread t).stat = .ready) (j : ι) :
    (k.rtIpcListSuspend i t flag).list (.wait j) =
      if j = i then
        waitInsert (fun u => (k.thread u).currentPriority) t flag (k.list (.wait i))
      else k.list (.wait j) := by
  have hprio : (fun u => ((k.rtThreadSuspend t).2.thread u).currentPriority) =
      fun u => (k.thread u).currentPriority := by
    funext u
    rw [rtThreadSuspend_thread hs]
    exact field_update Thread.currentPriority u
  by_cases hj : j = i
  · subst hj
    simp [rtIpcListSuspend, hprio, rtThreadSuspend_list hs, erase_of_not_mem (h.not_mem_wait hs)]
  · simp [rtIpcListSuspend, hj, rtThreadSuspend_list hs, erase_of_not_mem (h.not_mem_wait hs)]

variable {ts : List τ}

theorem ReadyOk.suspendInto (h : ReadyOk k) (hs : (k.thread t).stat = .ready)
    (hperm : ts.Perm (t :: (k.rtThreadSuspend t).2.list (.wait i))) :
    ReadyOk ((k.rtThreadSuspend t).2.setList (.wait i) ts) := by
  have hstat : ((k.rtThreadSuspend t).2.thread t).stat = .suspend := by
    simp [rtThreadSuspend_thread hs]
  refine h.rtThreadSuspend.link (fun l => ?_) (by simp) hperm (by simp [hstat]) (by simp [hstat])
  rw [rtThreadSuspend_list hs, h.mem_erase]
  simp

theorem WaitOk.suspendInto (h : WaitOk k) (hs : (k.thread t).stat = .ready)
    (hperm : ts.Perm (t :: (k.rtThreadSuspend t).2.list (.wait i))) :
    WaitOk ((k.rtThreadSuspend t).2.setList (.wait i) ts) where
  toReadyOk := h.toReadyOk.suspendInto hs hperm
  waiting := by
    intro u j hu
    rw [mem_setList_of_perm hperm] at hu
    by_cases hut : u = t
    · subst hut
      simp [rtThreadSuspend_thread hs]
    · have hmem : u ∈ k.list (.wait j) := by
        have hlisted := hu.resolve_right fun hnew => hut hnew.1
        rw [rtThreadSuspend_list hs] at hlisted
        exact mem_of_mem_erase hlisted
      simpa [rtThreadSuspend_thread hs, hut] using h.waiting hmem
  timer u hu := by
    by_cases hut : u = t
    · subst hut
      simp [rtThreadSuspend_thread hs]
    · simp only [setList_thread, rtThreadSuspend_thread hs, update_of_ne hut] at hu ⊢
      exact h.timer u hu

theorem ipcWait_list (l : ListHead ι) :
    (k.ipcWait i t flag time).list l = (k.rtIpcListSuspend i t flag).list l := by
  rw [ipcWait]
  split <;> rfl

theorem ReadyOk.ipcWait_wait (h : ReadyOk k) (hs : (k.thread t).stat = .ready) (j : ι) :
    (k.ipcWait i t flag time).list (.wait j) =
      if j = i then
        waitInsert (fun u => (k.thread u).currentPriority) t flag (k.list (.wait i))
      else k.list (.wait j) := by
  rw [ipcWait_list, h.rtIpcListSuspend_wait hs]

theorem ipcWait_thread (hs : (k.thread t).stat = .ready) :
    (k.ipcWait i t flag time).thread = update k.thread t { k.thread t with
        stat := .suspend
        timerActivated := decide (0 < time.toInt)
        timerInitTick := if 0 < time.toInt then time else (k.thread t).timerInitTick } := by
  rw [ipcWait]
  split
  · rename_i htime
    funext u
    by_cases hu : u = t
    · subst hu
      simp [rtTimerStart, rtIpcListSuspend_thread hs, htime]
    · simp [rtTimerStart, rtIpcListSuspend_thread hs, hu]
  · rename_i htime
    simp [rtIpcListSuspend_thread hs, htime]

theorem ReadyOk.ipcWait (h : ReadyOk k) (hs : (k.thread t).stat = .ready) :
    ReadyOk (k.ipcWait i t flag time) := by
  have hlisted : ReadyOk (k.rtIpcListSuspend i t flag) :=
    h.suspendInto hs (waitInsert_perm _ t flag _)
  rw [Kernel.ipcWait]
  split
  · exact hlisted.rtTimerStart time
  · exact hlisted

theorem WaitOk.ipcWait (h : WaitOk k) (hs : (k.thread t).stat = .ready) :
    WaitOk (k.ipcWait i t flag time) := by
  have hlisted : WaitOk (k.rtIpcListSuspend i t flag) :=
    h.suspendInto hs (waitInsert_perm _ t flag _)
  rw [Kernel.ipcWait]
  split
  · exact hlisted.rtTimerStart (by simp [rtIpcListSuspend_thread hs]) time
  · exact hlisted

/-- This is the waiting of `ipc.c` in the order of arrival, after `thread->error` was reset. -/
theorem listWait_eq : k.listWait i t time =
    (k.setThread t fun x => { x with error := .eok }).ipcWait i t .fifo time := rfl

theorem rtThreadResume_thread (hs : (k.thread t).stat = .suspend) : (k.rtThreadResume t).2.thread =
      update k.thread t { k.thread t with stat := .ready, timerActivated := false } := by
  rw [rtThreadResume_of_suspend hs]
  funext u
  by_cases hu : u = t
  · subst hu
    simp
  · simp [hu]

theorem rtThreadResume_wait (hs : (k.thread t).stat = .suspend) (j : ι) :
    (k.rtThreadResume t).2.list (.wait j) = (k.list (.wait j)).erase t := by
  rw [rtThreadResume_of_suspend hs, rtScheduleInsertThread_list]
  simp

theorem rtThreadResume_wait_sublist (j : ι) :
    ((k.rtThreadResume t).2.list (.wait j)).Sublist (k.list (.wait j)) := by
  by_cases hs : (k.thread t).stat = .suspend
  · rw [rtThreadResume_wait hs]
    exact erase_sublist
  · rw [rtThreadResume_of_not_suspend hs]

theorem resumeAllLoop_wait_sublist (n : Nat) (j : ι) :
    ((resumeAllLoop i n k).list (.wait j)).Sublist (k.list (.wait j)) := by
  induction n generalizing k with
  | zero => exact List.Sublist.refl _
  | succ n ih =>
    rw [resumeAllLoop]
    split
    · exact List.Sublist.refl _
    · exact ih.trans (rtThreadResume_wait_sublist j)

theorem rtIpcListResume_cons (hlist : k.list (.wait i) = t :: ts) :
    k.rtIpcListResume i = (k.rtThreadResume t).2 := by
  rw [rtIpcListResume, hlist]

theorem WaitOk.rtIpcListResume_wait (h : WaitOk k) (hlist : k.list (.wait i) = t :: ts) (j : ι) :
    (k.rtIpcListResume i).list (.wait j) = if j = i then ts else k.list (.wait j) := by
  have hmem : t ∈ k.list (.wait i) := by simp [hlist]
  rw [rtIpcListResume_cons hlist, rtThreadResume_wait (h.waiting hmem)]
  split
  · rename_i hj
    simp [hj, hlist]
  · rename_i hj
    refine erase_of_not_mem fun hmem' => hj ?_
    simpa using h.unique hmem' hmem

theorem WaitOk.rtIpcListResume_thread (h : WaitOk k) (hlist : k.list (.wait i) = t :: ts) :
    (k.rtIpcListResume i).thread =
      update k.thread t { k.thread t with stat := .ready, timerActivated := false } := by
  have hmem : t ∈ k.list (.wait i) := by simp [hlist]
  rw [rtIpcListResume_cons hlist, rtThreadResume_thread (h.waiting hmem)]

theorem WaitOk.rtThreadResume (h : WaitOk k) (hs : (k.thread t).stat = .suspend) :
    WaitOk (k.rtThreadResume t).2 := by
  refine h.closed h.toReadyOk.rtThreadResume (rtThreadResume_wait hs) (fun u hu => ?_) ?_
  · simp [rtThreadResume_thread hs, hu]
  · simp [rtThreadResume_thread hs]

theorem WaitOk.rtIpcListResume (h : WaitOk k) : WaitOk (k.rtIpcListResume i) := by
  cases hlist : k.list (.wait i) with
  | nil => simpa [Kernel.rtIpcListResume, hlist] using h
  | cons t ts =>
    have hmem : t ∈ k.list (.wait i) := by simp [hlist]
    rw [rtIpcListResume_cons hlist]
    exact h.rtThreadResume (h.waiting hmem)

theorem rtTimerCheck_thread : (k.rtTimerCheck t).thread = update k.thread t
      { k.thread t with error := .etimeout, stat := .ready, timerActivated := false } := by
  funext u
  by_cases hu : u = t
  · subst hu
    simp [rtTimerCheck, rtThreadTimeout]
  · simp [rtTimerCheck, rtThreadTimeout, hu]

theorem rtTimerCheck_wait (j : ι) :
    (k.rtTimerCheck t).list (.wait j) = (k.list (.wait j)).erase t := by
  simp [rtTimerCheck, rtThreadTimeout, rtScheduleInsertThread_list]

theorem WaitOk.rtTimerCheck (h : WaitOk k) (hs : (k.thread t).stat = .suspend) :
    WaitOk (k.rtTimerCheck t) := by
  refine h.closed ?_ rtTimerCheck_wait (fun u hu => ?_) ?_
  · refine (h.toReadyOk.rtThreadTimeout (.inr hs)).congr rfl rfl fun u => ?_
    by_cases hu : u = t
    · subst hu
      simp [Kernel.rtTimerCheck]
    · simp [Kernel.rtTimerCheck, hu]
  · simp [rtTimerCheck_thread, hu]
  · simp [rtTimerCheck_thread]

theorem WaitOk.resumeAllLoop (h : WaitOk k) {n : Nat} (hn : (k.list (.wait i)).length ≤ n) :
    WaitOk (resumeAllLoop i n k) ∧ (resumeAllLoop i n k).list (.wait i) = [] := by
  induction n generalizing k with
  | zero => exact ⟨h, length_eq_zero_iff.mp (Nat.le_zero.mp hn)⟩
  | succ n ih =>
    rw [Kernel.resumeAllLoop]
    split
    · rename_i hempty
      exact ⟨h, hempty⟩
    · rename_i t ts hlist
      have hk := h.setError (t := t) .error
      have hlist' : (k.setThread t fun x => { x with error := .error }).list (.wait i) = t :: ts :=
        hlist
      rw [← rtIpcListResume_cons hlist']
      refine ih hk.rtIpcListResume ?_
      rw [hk.rtIpcListResume_wait hlist', if_pos rfl]
      rw [hlist, length_cons] at hn
      omega

theorem WaitOk.rtIpcListResumeAll (h : WaitOk k) :
    WaitOk (k.rtIpcListResumeAll i) ∧ (k.rtIpcListResumeAll i).list (.wait i) = [] :=
  h.resumeAllLoop (Nat.le_refl _)

theorem rtThreadChangePriority_thread (p : Fin 32) :
    (k.rtThreadChangePriority t p).thread = update k.thread t
      { k.thread t with currentPriority := p, numberMask := priorityMask p } := by
  rw [rtThreadChangePriority]
  split
  · rename_i hs
    funext u
    by_cases hu : u = t
    · subst hu
      simp [hs]
    · simp [hu]
  · rfl

theorem ReadyOk.rtThreadChangePriority_wait (h : ReadyOk k) (p : Fin 32) (j : ι) :
    (k.rtThreadChangePriority t p).list (.wait j) = k.list (.wait j) := by
  rw [Kernel.rtThreadChangePriority]
  split
  · rename_i hs
    rw [rtScheduleInsertThread_list, if_neg (by simp)]
    simp [erase_of_not_mem (h.not_mem_wait hs)]
  · rfl

theorem WaitOk.rtThreadChangePriority (h : WaitOk k) (p : Fin 32) :
    WaitOk (k.rtThreadChangePriority t p) := by
  refine h.of_same (h.toReadyOk.rtThreadChangePriority p) (h.rtThreadChangePriority_wait p)
    fun u => ?_
  rw [rtThreadChangePriority_thread]
  by_cases hu : u = t
  · subst hu
    simp
  · simp [hu]

theorem WaitOk.rtThreadStartup (h : WaitOk k) (hsafe : StartupSafe k t) :
    WaitOk (k.rtThreadStartup t) := by
  refine h.closed (t := t) (h.toReadyOk.rtThreadStartup hsafe) (fun i => ?_) (fun u hu => ?_) ?_
  · dsimp only [Kernel.rtThreadStartup]
    split <;> simp [rtThreadResume_of_suspend, rtScheduleInsertThread_list]
  · simp [rtThreadStartup_thread, hu]
  · simp [rtThreadStartup_thread]

theorem WaitOk.startups (h : WaitOk k) (ts : List τ)
    (hprio : ∀ t, (k.thread t).currentPriority = (k.thread t).initPriority) :
    WaitOk (ts.foldl (fun k t => k.rtThreadStartup t) k) := by
  induction ts generalizing k with
  | nil => exact h
  | cons t ts ih =>
    refine ih (h.rtThreadStartup fun _ => .inl (hprio t)) fun u => ?_
    rw [rtThreadStartup_thread]
    by_cases hu : u = t
    · subst hu
      simp
    · simpa [hu] using hprio u

theorem boot_waitOk (priority : τ → Fin 32) (ts : List τ) :
    WaitOk (boot priority ts : Kernel τ ι) := by
  refine WaitOk.startups ⟨?_, fun hmem => ?_, nofun⟩ ts fun _ => rfl
  · exact (RunOk.init (fun _ => rfl) fun _ => rfl).ready
  · cases hmem

/-- The threads of the runs on fixed inputs. -/
inductive Quartet
  | a | b | c | d
  deriving DecidableEq

/-- `d` is more urgent than `c`. -/
def Quartet.priority (t : Quartet) : Fin 32 :=
  if t = .a then ⟨12, by decide⟩ else if t = .b then ⟨20, by decide⟩
  else if t = .c then ⟨30, by decide⟩ else ⟨25, by decide⟩

def quartet {ι : Type*} [DecidableEq ι] : Kernel Quartet ι :=
  boot Quartet.priority [.a, .b, .c, .d]

theorem quartet_waitOk {ι : Type*} [DecidableEq ι] : WaitOk (quartet : Kernel Quartet ι) :=
  boot_waitOk _ _

theorem twoPriorities_waitOk {ι : Type*} [DecidableEq ι] :
    ((boot twoPriorities [false, true] : Kernel Bool ι).rtThreadSleep true 10).WaitOk :=
  (boot_waitOk twoPriorities [false, true]).rtThreadSleep rfl 10

end Kernel
end RtThread
