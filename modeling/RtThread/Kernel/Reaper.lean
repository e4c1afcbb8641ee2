import RtThread.Ipc.Wait

/-!
# Ending threads

A thread ends by `rt_thread_exit`, `rt_thread_detach` or `rt_thread_delete` (`thread.c`). The rest
is done by the idle thread: `rt_thread_idle_excute` (`idle.c`) takes the threads off
`rt_thread_defunct`, calls their `cleanup`, and frees the stack and the control block of those that
were created. A round of its loop frees outside the lock, so that other threads may run in between.
`RT_USING_MODULE` is not defined.
-/

namespace RtThread
open Function
open List

/-- The kernel, the list of timer objects, and the calls that end a thread, the last one first. -/
structure Reaper (τ ι : Type*) where
  kernel : Kernel τ ι
  /-- `thread_timer` is linked into the list of timer objects -/
  timerAttached : τ → Bool
  /-- the calls of `thread->cleanup` -/
  cleanups : List τ
  /-- the calls of `rt_free` for `stack_addr` -/
  stackFrees : List τ
  /-- the calls of `rt_free` for the thread object -/
  objectFrees : List τ
  /-- the thread that `rt_thread_idle_excute` has unlinked and not freed yet -/
  dead : Option τ

inductive ReaperOp (τ ι : Type*)
  /-- a call of `thread.c` or of the scheduler -/
  | thread (op : ThreadOp τ)
  /-- a thread has to wait for an IPC object -/
  | ipcWait (i : ι) (t : τ) (flag : IpcFlag) (time : BitVec 32)
  /-- `rt_timer_check` takes the timer of `t` off the timer list; its `rt_thread_timeout` follows -/
  | timerStop (t : τ)
  /-- an assignment to `thread->cleanup` -/
  | setCleanup (t : τ) (cleanup : Bool)
  | enterCritical
  | exitCritical
  /-- the part of a round of `rt_thread_idle_excute` under the lock -/
  | idleTake
  /-- the part behind it -/
  | idleFree

namespace Kernel
variable {τ ι : Type*} [DecidableEq τ] [DecidableEq ι]
variable (k : Kernel τ ι)

/-- `rt_enter_critical` (`scheduler.c:360-375`). -/
def rtEnterCritical : Kernel τ ι :=
  { k with schedulerLockNest := k.schedulerLockNest + 1 }

/-- `rt_exit_critical` (`scheduler.c:381-403`). -/
def rtExitCritical : Kernel τ ι :=
  let k := { k with schedulerLockNest := k.schedulerLockNest - 1 }
  if k.schedulerLockNest.toInt ≤ 0 then { k with schedulerLockNest := 0 }.rtSchedule else k

def ended : ThreadOp τ → Option τ
  | .detach t | .delete t => some t
  | .exit => k.currentThread
  | _ => none

instance (k : Kernel τ ι) (op : ThreadOp τ) : Decidable (k.Legal op) :=
  match op with
  | .startup _ | .suspend _ | .resume _ | .timeout _ | .changePriority _ _ | .detach _ | .delete _
  | .sleepEnd _ => instDecidableNot
  | .exit | .yield | .sleep _ =>
    decidable_of_iff (k.currentThread.any fun t => decide ((k.thread t).stat ≠ .close)) (by
      simp [Legal, Option.any_eq_true])
  | .schedule | .schedulerStart => .isTrue trivial

end Kernel

namespace Reaper
variable {τ ι : Type*} [DecidableEq τ] [DecidableEq ι]
variable (s : Reaper τ ι)

/-- A call of `thread.c`. To end a thread includes `rt_timer_detach` (`timer.c:204-222`), which
takes the timer out of the list of timer objects as well. -/
def threadOp (op : ThreadOp τ) : Reaper τ ι :=
  { s with
    kernel := s.kernel.apply op
    timerAttached := fun u =>
      if s.kernel.ended op = some u then false else s.timerAttached u }

/-- `rt_thread_idle_excute` (`idle.c:84-176`), the part of a round under the lock: the first defunct
thread is unlinked and its `cleanup` is called. A system object is not deleted. -/
def idleTake : Reaper τ ι :=
  match s.kernel.list .defunct with
  | [] => s
  | t :: _ =>
    { s with
      kernel := s.kernel.rtListRemove t
      cleanups := if (s.kernel.thread t).cleanup then t :: s.cleanups else s.cleanups
      dead := if (s.kernel.thread t).isStatic then none else some t }

/-- The part of the round behind it: the stack is freed, and `rt_object_delete` (`object.c`) unlinks
and frees the thread object. -/
def idleFree : Reaper τ ι :=
  match s.dead with
  | none => s
  | some t =>
    { s with
      kernel := s.kernel.rtObjectDetach t
      stackFrees := t :: s.stackFrees
      objectFrees := t :: s.objectFrees
      dead := none }

/-- The loop of `rt_thread_idle_excute`, at most `n` rounds. A system object ends it. -/
def idleLoop : ℕ → Reaper τ ι → Reaper τ ι
  | 0, s => s
  | n + 1, s =>
    match s.kernel.list .defunct with
    | [] => s
    | t :: _ =>
      if (s.kernel.thread t).isStatic then s.idleTake else idleLoop n s.idleTake.idleFree

/-- `rt_thread_idle_excute` without an interruption. A thread leaves the list in each round. -/
def rtThreadIdleExcute : Reaper τ ι :=
  idleLoop (s.kernel.list .defunct).length s

/-- When a step can be taken: calls are made on threads that are not closed, a thread that has to
wait is ready, only a timer in the list expires, and the idle thread runs the two parts of its loop
in turn. -/
def Enabled : ReaperOp τ ι → Prop
  | .thread op => s.kernel.Legal op
  | .ipcWait _ t _ _ => (s.kernel.thread t).stat = .ready
  | .setCleanup t _ => (s.kernel.thread t).stat ≠ .close
  | .timerStop t => (s.kernel.thread t).timerActivated = true
  | .idleTake => s.dead = none
  | .enterCritical | .exitCritical | .idleFree => True

def apply : ReaperOp τ ι → Reaper τ ι
  | .thread op => s.threadOp op
  | .ipcWait i t flag time => { s with kernel := s.kernel.ipcWait i t flag time }
  | .timerStop t => { s with kernel := s.kernel.rtTimerStop t }
  | .setCleanup t cleanup =>
    { s with kernel := s.kernel.setThread t fun x => { x with cleanup := cleanup } }
  | .enterCritical => { s with kernel := s.kernel.rtEnterCritical }
  | .exitCritical => { s with kernel := s.kernel.rtExitCritical }
  | .idleTake => s.idleTake
  | .idleFree => s.idleFree

def machine : Machine (Reaper τ ι) (ReaperOp τ ι) Unit := ⟨Enabled, fun s op => ((), s.apply op)⟩

def StepIf (P : Reaper τ ι → ReaperOp τ ι → Prop) (s : Reaper τ ι) (e : ReaperOp τ ι × Unit)
    (s' : Reaper τ ι) : Prop :=
  machine.StepIf P s e s'

instance (s : Reaper τ ι) (op : ReaperOp τ ι) : Decidable (machine.Enabled s op) :=
  match op with
  | .thread op => inferInstanceAs (Decidable (s.kernel.Legal op))
  | .ipcWait .. | .timerStop _ | .idleTake => decEq _ _
  | .setCleanup .. => instDecidableNot
  | .enterCritical | .exitCritical | .idleFree => .isTrue trivial

theorem StepIf.eq_apply {P : Reaper τ ι → ReaperOp τ ι → Prop} {s s' : Reaper τ ι}
    {e : ReaperOp τ ι × Unit} (h : StepIf P s e s') :
    s.Enabled e.1 ∧ P s e.1 ∧ s' = s.apply e.1 :=
  ⟨h.1.1, h.2, (congrArg Prod.snd h.1.2).symm⟩

end Reaper

namespace Kernel
variable {τ ι : Type*} {k k' : Kernel τ ι} {t u : τ}

/-- A thread is linked at most once, and `rt_thread_defunct` links the closed threads. -/
structure Placed (k : Kernel τ ι) : Prop where
  nodup : ∀ l, (k.list l).Nodup
  unique : ∀ {t l l'}, t ∈ k.list l → t ∈ k.list l' → l = l'
  closed : ∀ {t l}, t ∈ k.list l → ((k.thread t).stat = .close ↔ l = .defunct)

theorem Placed.not_mem_defunct (hk : Placed k) (hlive : (k.thread t).stat ≠ .close) :
    t ∉ k.list .defunct := fun hmem => hlive ((hk.closed hmem).mpr rfl)

/-- What the calls that do not end the thread `t` do: it stays alive and attached, and only it moves
between the lists. -/
structure Moves (t : τ) (k k' : Kernel τ ι) : Prop where
  thread : ∀ u, u ≠ t → k'.thread u = k.thread u
  live : (k'.thread t).stat ≠ .close
  attached : (k'.thread t).attached = (k.thread t).attached
  placed : Placed k'
  defunct : ∀ u, u ∈ k'.list .defunct ↔ u ∈ k.list .defunct

namespace Moves

theorem refl (hk : Placed k) (hlive : (k.thread t).stat ≠ .close) : Moves t k k :=
  ⟨fun _ _ => rfl, hlive, rfl, hk, fun _ => Iff.rfl⟩

theorem trans {k'' : Kernel τ ι} (h : Moves t k k') (h' : Moves t k' k'') : Moves t k k'' where
  thread u hu := (h'.thread u hu).trans (h.thread u hu)
  live := h'.live
  attached := h'.attached.trans h.attached
  placed := h'.placed
  defunct u := (h'.defunct u).trans (h.defunct u)

theorem of_eq {k'' : Kernel τ ι} (h : Moves t k k') (hthread : k''.thread = k'.thread)
    (hlist : k''.list = k'.list) : Moves t k k'' where
  thread u hu := by rw [hthread]; exact h.thread u hu
  live := by rw [hthread]; exact h.live
  attached := by rw [hthread]; exact h.attached
  placed := by
    refine ⟨?_, ?_, ?_⟩
    · rw [hlist]; exact h.placed.nodup
    · rw [hlist]; exact h.placed.unique
    · rw [hlist, hthread]; exact h.placed.closed
  defunct u := by rw [hlist]; exact h.defunct u

theorem schedule (h : Moves t k k') : Moves t k k'.rtSchedule :=
  h.of_eq (rtSchedule_thread k') (rtSchedule_list k')

end Moves

variable [DecidableEq τ]

/-- The thread `t` is taken out of its list and put into `dest`, if there is one; nothing happens to
other threads. -/
structure Relinked (t : τ) (dest : Option (ListHead ι)) (k k' : Kernel τ ι) : Prop where
  thread : ∀ u, u ≠ t → k'.thread u = k.thread u
  into : ∀ l, some l = dest → (k'.list l).Perm (t :: (k.list l).erase t)
  others : ∀ l, some l ≠ dest → k'.list l = (k.list l).erase t

section Relinked
variable {dest : Option (ListHead ι)}

section
variable (h : Relinked t dest k k')
include h

theorem Relinked.mem (hk : Placed k) {l : ListHead ι} :
    u ∈ k'.list l ↔ (u ≠ t ∧ u ∈ k.list l) ∨ (u = t ∧ some l = dest) := by
  by_cases hl : some l = dest
  · rw [(h.into l hl).mem_iff, mem_cons, (hk.nodup l).mem_erase_iff]
    simp only [hl, and_true]
    exact or_comm
  · rw [h.others l hl, (hk.nodup l).mem_erase_iff]
    simp [hl]

/-- The lists are in order if the list the thread is put into fits its state. -/
theorem Relinked.placed (hk : Placed k)
    (hdest : ∀ l, some l = dest → ((k'.thread t).stat = .close ↔ l = .defunct)) : Placed k' where
  nodup l := by
    by_cases hl : some l = dest
    · rw [(h.into l hl).nodup_iff, nodup_cons, (hk.nodup l).mem_erase_iff]
      exact ⟨fun hmem => hmem.1 rfl, (hk.nodup l).erase t⟩
    · rw [h.others l hl]
      exact (hk.nodup l).erase t
  unique := by
    intro u l l' hx hy
    rw [h.mem hk] at hx hy
    rcases hx with ⟨hne, hx⟩ | ⟨rfl, hl⟩ <;> rcases hy with ⟨hne', hy⟩ | ⟨heq, hl'⟩
    · exact hk.unique hx hy
    · exact absurd heq hne
    · exact absurd rfl hne'
    · exact Option.some.inj (hl.trans hl'.symm)
  closed := by
    intro u l hu
    rcases (h.mem hk).mp hu with ⟨hne, hu⟩ | ⟨rfl, hl⟩
    · rw [h.thread u hne]
      exact hk.closed hu
    · exact hdest l hl

theorem Relinked.schedule : Relinked t dest k k'.rtSchedule := by
  refine ⟨?_, ?_, ?_⟩
  · rw [rtSchedule_thread]
    exact h.thread
  · rw [rtSchedule_list]
    exact h.into
  · rw [rtSchedule_list]
    exact h.others

theorem Relinked.setThread (f : Thread → Thread) : Relinked t dest k (k'.setThread t f) :=
  ⟨fun u hu => by simpa [hu] using h.thread u hu, h.into, h.others⟩

end

theorem Relinked.remove (k : Kernel τ ι) (t : τ) :
    Relinked t none k (k.rtScheduleRemoveThread t) := by
  refine ⟨fun u _ => ?_, fun l hl => ?_, fun l _ => ?_⟩
  · rw [rtScheduleRemoveThread_thread]
  · cases hl
  · rw [rtScheduleRemoveThread_list]

theorem Relinked.defunct [DecidableEq ι] (h : Relinked t none k k') :
    Relinked t (some .defunct) k (k'.rtListInsertAfter t .defunct) := by
  refine ⟨h.thread, fun l hl => ?_, fun l hl => ?_⟩
  · cases hl
    rw [rtListInsertAfter_list, update_self, h.others .defunct (by simp)]
  · have hne : l ≠ .defunct := fun heq => hl (congrArg some heq)
    rw [rtListInsertAfter_list, update_of_ne hne, h.others l (by simp)]

end Relinked

namespace Moves

theorem of_relinked {dest : Option (ListHead ι)} (h : Relinked t dest k k') (hk : Placed k)
    (hlive : (k.thread t).stat ≠ .close) (hdest : dest ≠ some .defunct)
    (hlive' : (k'.thread t).stat ≠ .close)
    (hattached : (k'.thread t).attached = (k.thread t).attached) : Moves t k k' where
  thread := h.thread
  live := hlive'
  attached := hattached
  placed := h.placed hk fun l hl => iff_of_false hlive' fun heq => hdest (heq ▸ hl.symm)
  defunct u := by
    rw [h.mem hk]
    by_cases hu : u = t
    · subst hu
      simp [hdest.symm, hk.not_mem_defunct hlive]
    · simp [hu]

theorem setThread (h : Moves t k k') (f : Thread → Thread) (hlive : (f (k'.thread t)).stat ≠ .close)
    (hattached : (f (k'.thread t)).attached = (k'.thread t).attached) :
    Moves t k (k'.setThread t f) where
  thread u hu := by simpa [hu] using h.thread u hu
  live := by simpa using hlive
  attached := by simpa [hattached] using h.attached
  placed := by
    refine ⟨h.placed.nodup, h.placed.unique, fun {u l} hu => ?_⟩
    by_cases hut : u = t
    · subst hut
      have hclosed := h.placed.closed hu
      simp only [setThread_thread, update_self, hlive, false_iff]
      exact fun heq => h.live (hclosed.mpr heq)
    · simpa [hut] using h.placed.closed hu
  defunct := h.defunct

theorem remove (h : Moves t k k') : Moves t k (k'.rtScheduleRemoveThread t) := by
  refine h.trans (of_relinked (.remove k' t) h.placed h.live (by simp) ?_ ?_)
  · rw [rtScheduleRemoveThread_thread]
    exact h.live
  · rw [rtScheduleRemoveThread_thread]

theorem suspend (h : Moves t k k') : Moves t k (k'.rtThreadSuspend t).2 := by
  rw [rtThreadSuspend]
  split
  · exact h
  · have hremoved := (h.setThread (fun x => { x with stat := .suspend }) (by simp) rfl).remove
    exact hremoved.setThread (fun x => { x with timerActivated := false }) hremoved.live rfl

variable [DecidableEq ι]

section
variable (h : Moves t k k')
include h

theorem relist : Moves t k ((k'.rtListRemove t).rtScheduleInsertThread t) := by
  have hrelinked : Relinked t (some (.ready (k'.thread t).currentPriority)) k'
      ((k'.rtListRemove t).rtScheduleInsertThread t) := by
    refine ⟨fun u hu => ?_, fun l hl => ?_, fun l hl => ?_⟩
    · simp [hu]
    · cases hl
      rw [rtScheduleInsertThread_list, rtListRemove_list, rtListRemove_thread, if_pos rfl]
      exact perm_append_singleton t _
    · rw [rtScheduleInsertThread_list, rtListRemove_list, rtListRemove_thread,
        if_neg fun heq => hl (congrArg some heq)]
  exact h.trans (of_relinked hrelinked h.placed h.live (by simp) (by simp) (by simp))

theorem resume : Moves t k (k'.rtThreadResume t).2 := by
  by_cases hs : (k'.thread t).stat = .suspend
  · rw [rtThreadResume_of_suspend hs]
    exact (h.setThread (fun x => { x with timerActivated := false }) h.live rfl).relist
  · rw [rtThreadResume_of_not_suspend hs]
    exact h

theorem link {l : ListHead ι} {ts : List τ} (hfree : ∀ l, t ∉ k'.list l)
    (hl : l ≠ .defunct) (hperm : ts.Perm (t :: k'.list l)) : Moves t k (k'.setList l ts) := by
  have hrelinked : Relinked t (some l) k' (k'.setList l ts) := by
    refine ⟨fun u _ => rfl, fun l' hl' => ?_, fun l' hl' => ?_⟩
    · cases hl'
      rw [erase_of_not_mem (hfree l)]
      simpa using hperm
    · have hne : l' ≠ l := fun heq => hl' (congrArg some heq)
      rw [erase_of_not_mem (hfree l')]
      simp [hne]
  exact h.trans (of_relinked hrelinked h.placed h.live (fun heq => hl (Option.some.inj heq))
    h.live rfl)

theorem startup : Moves t k (k'.rtThreadStartup t) := by
  have hresumed := (h.setThread (fun x =>
    { x with
      currentPriority := x.initPriority
      numberMask := priorityMask x.initPriority
      stat := .suspend }) (by simp) rfl).resume
  rw [rtThreadStartup]
  split
  · exact hresumed.schedule
  · exact hresumed

theorem changePriority (p : Fin 32) : Moves t k (k'.rtThreadChangePriority t p) := by
  rw [rtThreadChangePriority]
  split
  · have hremoved := h.remove.setThread (fun x =>
      { x with currentPriority := p, numberMask := priorityMask p }) h.remove.live rfl
    have hfree : ∀ l, t ∉ (k'.rtScheduleRemoveThread t).list l := by
      intro l
      rw [rtScheduleRemoveThread_list, (h.placed.nodup l).mem_erase_iff]
      simp
    -- the thread is unlinked already, so that inserting it is relisting it
    have hrelist := hremoved.relist
    rwa [rtListRemove_of_unlinked (by simpa using hfree)] at hrelist
  · exact h.setThread _ h.live rfl

theorem yield : Moves t k (k'.rtThreadYield t) := by
  rw [rtThreadYield]
  split
  · have hrelinked : Relinked t (some (.ready (k'.thread t).currentPriority)) k'
        ((k'.rtListRemove t).rtListInsertBefore t (.ready (k'.thread t).currentPriority)) := by
      refine ⟨fun u _ => rfl, fun l hl => ?_, fun l hl => ?_⟩
      · cases hl
        simp only [rtListInsertBefore_list, update_self, rtListRemove_list]
        exact perm_append_singleton t _
      · have hne : l ≠ .ready (k'.thread t).currentPriority := fun heq => hl (congrArg some heq)
        simp [hne]
    exact schedule (h.trans (of_relinked hrelinked h.placed h.live (by simp) h.live rfl))
  · exact h

theorem ipcWait (hs : (k'.thread t).stat = .ready) (i : ι) (flag : IpcFlag)
    (time : BitVec 32) : Moves t k (k'.ipcWait i t flag time) := by
  have hfree : ∀ l, t ∉ (k'.rtThreadSuspend t).2.list l := by
    intro l
    rw [rtThreadSuspend_list hs, (h.placed.nodup l).mem_erase_iff]
    simp
  have hlinked : Moves t k (k'.rtIpcListSuspend i t flag) :=
    h.suspend.link hfree (by simp) (waitInsert_perm _ t flag _)
  rw [Kernel.ipcWait]
  split
  · exact hlinked.setThread _ hlinked.live rfl
  · exact hlinked

end
end Moves

section Ends
variable [DecidableEq ι] (k : Kernel τ ι) (t : τ)

attribute [local simp] rtTimerDetach

theorem relinked_rtThreadExit :
    Relinked t (if (k.thread t).isStatic = true ∧ (k.thread t).cleanup = false then none
      else some .defunct) k (k.rtThreadExit t) := by
  have hclosed := ((Relinked.remove k t).setThread fun x => { x with stat := .close }).setThread
    fun x => { x with timerActivated := false }
  rw [rtThreadExit]
  refine Relinked.schedule ?_
  by_cases hcond : (k.thread t).isStatic = true ∧ (k.thread t).cleanup = false
  · rw [if_pos hcond, if_pos (by simpa using hcond)]
    exact hclosed.setThread _
  · rw [if_neg hcond, if_neg (by simpa using hcond)]
    exact hclosed.defunct

theorem rtThreadExit_thread : (k.rtThreadExit t).thread t = { k.thread t with
        stat := .close
        timerActivated := false
        attached := if (k.thread t).isStatic = true ∧ (k.thread t).cleanup = false then false
          else (k.thread t).attached } := by
  rw [rtThreadExit, rtSchedule_thread]
  by_cases hcond : (k.thread t).isStatic = true ∧ (k.thread t).cleanup = false
  · rw [if_pos hcond, if_pos (by simpa using hcond)]
    simp [rtObjectDetach]
  · rw [if_neg hcond, if_neg (by simpa using hcond)]
    simp

theorem relinked_rtThreadDetach :
    Relinked t (if (k.thread t).cleanup = true then some .defunct else none) k
      (k.rtThreadDetach t) := by
  have hclosed := (((Relinked.remove k t).setThread fun x =>
    { x with timerActivated := false }).setThread fun x => { x with stat := .close }).setThread
    fun x => { x with attached := false }
  rw [rtThreadDetach]
  by_cases hcond : (k.thread t).cleanup = true
  · rw [if_pos hcond, if_pos (by simpa [rtObjectDetach] using hcond)]
    exact hclosed.defunct
  · rw [if_neg hcond, if_neg (by simpa [rtObjectDetach] using hcond)]
    exact hclosed

theorem relinked_rtThreadDelete : Relinked t (some .defunct) k (k.rtThreadDelete t) :=
  (((Relinked.remove k t).setThread fun x => { x with timerActivated := false }).setThread
    fun x => { x with stat := .close }).defunct

end Ends
end Kernel
end RtThread
