import RtThread.Kernel.ReadySet

/-!
# Runs of thread operations

What every run of the operations of `thread.c` keeps, from `rt_system_scheduler_init` on.
-/

namespace RtThread
open List

/-- The calls of a run. The last five act on the current thread or on none: `sleepEnd` is the part
of `rt_thread_sleep` behind its `rt_schedule`. -/
inductive ThreadOp (τ : Type*)
  | startup (t : τ)
  | suspend (t : τ)
  | resume (t : τ)
  | timeout (t : τ)
  | changePriority (t : τ) (p : Fin 32)
  | detach (t : τ)
  | delete (t : τ)
  | sleepEnd (t : τ)
  | exit
  | yield
  | sleep (tick : BitVec 32)
  | schedule
  | schedulerStart

namespace Kernel
variable {τ ι : Type*} {k k' : Kernel τ ι} {t u : τ}

theorem Queues.group_and_mask (h : Queues k) {p : Fin 32} (hp : k.list (.ready p) = []) :
    k.readyPriorityGroup &&& priorityMask p = 0 := by
  refine BitVec.eq_of_getLsbD_eq fun i hi => ?_
  have hi' := getLsbD_priorityMask p ⟨i, hi⟩
  have hbit := h.bit p
  simp only [hp, ne_eq, not_true_eq_false, iff_false, Bool.not_eq_true] at hbit
  by_cases heq : (⟨i, hi⟩ : Fin 32) = p
  · subst heq
    simp [hbit]
  · simp only [heq, decide_false] at hi'
    simp [hi']

theorem mem_of_toThread (h : k.toThread = some t) : ∃ p, t ∈ k.list (.ready p) := by
  rw [toThread] at h
  split at h
  · simp at h
  · exact ⟨_, mem_of_head? h⟩

/-- What a function does with `rt_current_thread`. -/
def onCurrent (k : Kernel τ ι) (f : τ → Kernel τ ι) : Kernel τ ι :=
  match k.currentThread with
  | some t => f t
  | none => k

@[elab_as_elim]
theorem onCurrent_of {motive : Kernel τ ι → Prop} {f : τ → Kernel τ ι} (hnone : motive k)
    (hsome : ∀ t, motive (f t)) : motive (k.onCurrent f) := by
  rw [onCurrent]
  split
  · exact hsome _
  · exact hnone

/-- The ready set is consistent, and the current thread was started. -/
structure Dispatching (k : Kernel τ ι) : Prop where
  ready : ReadyOk k
  current : ∀ t, k.currentThread = some t → (k.thread t).stat ≠ .init

theorem Dispatching.step (h : Dispatching k) (hready : ReadyOk k')
    (hinit : ∀ u, (k'.thread u).stat = .init → (k.thread u).stat = .init)
    (hcurrent : k'.currentThread = k.currentThread ∨ k'.currentThread = k'.toThread) :
    Dispatching k' := by
  refine ⟨hready, fun t ht hstat => ?_⟩
  rcases hcurrent with heq | heq
  · exact h.current t (heq ▸ ht) (hinit t hstat)
  · obtain ⟨p, hp⟩ := mem_of_toThread (heq ▸ ht)
    exact (hready.own t).fresh hstat _ hp

theorem Dispatching.of_empty (hlist : ∀ l, k.list l = []) (hgroup : k.readyPriorityGroup = 0)
    (hinit : ∀ t, (k.thread t).stat = .init) (hcurrent : k.currentThread = none) :
    Dispatching k := by
  refine ⟨⟨⟨fun p => ?_, fun l => ?_, fun hmem => ?_⟩, fun t => ?_⟩, fun t ht => ?_⟩
  · simp [hgroup, hlist]
  · simp [hlist]
  · simp [hlist] at hmem
  · exact .of_unlinked (by simp [hlist]) (by simp [hinit]) (by simp [hinit])
  · simp [hcurrent] at ht

/-- The invariant, and the threads that were started. -/
structure RunOk (tr : List (ThreadOp τ)) (k : Kernel τ ι) : Prop extends Dispatching k where
  mask : ∀ t, .startup t ∈ tr → MaskOk k t

theorem RunOk.init (hinit : ∀ t, (k.thread t).stat = .init) (hwait : ∀ i, k.list (.wait i) = []) :
    RunOk [] k.rtSystemSchedulerInit := by
  refine ⟨.of_empty (fun l => ?_) rfl hinit rfl, fun t ht => by simp at ht⟩
  cases l with
  | ready p => rfl
  | defunct => rfl
  | wait i => exact hwait i

/-- Threads do not become uninitialised, masks are not spoiled, and `rt_current_thread` is only ever
set to the thread that is to run. -/
structure Progress (k k' : Kernel τ ι) : Prop where
  init : ∀ u, (k'.thread u).stat = .init → (k.thread u).stat = .init
  mask : ∀ u, MaskOk k u → MaskOk k' u
  current : k'.currentThread = k.currentThread ∨ k'.currentThread = k'.toThread

namespace Progress

theorem refl : Progress k k := ⟨fun _ => id, fun _ => id, .inl rfl⟩

theorem schedule : Progress k k.rtSchedule where
  init u hu := by rwa [rtSchedule_thread] at hu
  mask u hu := by rwa [MaskOk, rtSchedule_thread]
  current := rtSchedule_currentThread k

/-! A step in front of others. -/

theorem of_eq {k₁ : Kernel τ ι} (h : Progress k₁ k') (hthread : k₁.thread = k.thread)
    (hcurrent : k₁.currentThread = k.currentThread) : Progress k k' where
  init u hu := hthread ▸ h.init u hu
  mask u hu := h.mask u (by rwa [MaskOk, hthread])
  current := hcurrent ▸ h.current

theorem defunct [DecidableEq ι] (h : Progress (k.rtListInsertAfter t .defunct) k') :
    Progress k k' := h.of_eq rfl rfl

variable [DecidableEq τ]

theorem setThread {f : Thread → Thread} (h : Progress (k.setThread t f) k')
    (hstat : (f (k.thread t)).stat = .init → (k.thread t).stat = .init) (hmask : MaskOk k t →
      (f (k.thread t)).numberMask = priorityMask (f (k.thread t)).currentPriority) :
    Progress k k' where
  init u hu := by
    have hinit := h.init u hu
    by_cases hut : u = t
    · subst hut
      exact hstat (by simpa using hinit)
    · simpa [hut] using hinit
  mask u hu := by
    refine h.mask u ?_
    by_cases hut : u = t
    · subst hut
      simpa [MaskOk] using hmask hu
    · simpa [MaskOk, hut] using hu
  current := h.current

theorem remove (h : Progress (k.rtScheduleRemoveThread t) k') : Progress k k' :=
  h.of_eq (rtScheduleRemoveThread_thread k t) (rtScheduleRemoveThread_currentThread k t)

theorem timerStop (h : Progress (k.rtTimerStop t) k') : Progress k k' := setThread h id id

theorem timerDetach (h : Progress (k.rtTimerDetach t) k') : Progress k k' := setThread h id id

theorem objectDetach (h : Progress (k.rtObjectDetach t) k') : Progress k k' := setThread h id id

theorem close (h : Progress (k.setThread t fun x => { x with stat := .close }) k') :
    Progress k k' :=
  h.setThread (by simp) id

theorem suspend (h : Progress (k.rtThreadSuspend t).2 k') : Progress k k' := by
  rw [rtThreadSuspend] at h
  split at h
  · exact h
  · exact setThread (remove (timerStop h)) (by simp) id

variable [DecidableEq ι]

theorem insert (h : Progress (k.rtScheduleInsertThread t) k') : Progress k k' :=
  setThread (f := fun x => { x with stat := .ready }) (h.of_eq rfl rfl) (by simp) id

theorem resume (h : Progress (k.rtThreadResume t).2 k') : Progress k k' := by
  rw [rtThreadResume] at h
  split at h
  · exact h
  · exact (timerStop (insert h)).of_eq rfl rfl

end Progress

variable [DecidableEq τ]

/-- The `number_mask` of a thread that was never started is whatever its memory held; closing it
clears those bits if no thread is ready at its priority. -/
def CloseSafe (k : Kernel τ ι) (t : τ) : Prop :=
  (k.thread t).stat = .init → k.list (.ready (k.thread t).currentPriority) = [] →
    k.readyPriorityGroup &&& (k.thread t).numberMask = 0

theorem ReadyOk.removeSafe (h : ReadyOk k) (hstat : (k.thread t).stat ≠ .close)
    (hsafe : CloseSafe k t) : RemoveSafe k t := by
  cases hs : (k.thread t).stat with
  | init =>
    intro hempty
    rw [erase_of_not_mem ((h.own t).fresh hs _)] at hempty
    rw [hsafe hs hempty, h.group_and_mask hempty]
  | ready => exact ((h.own t).mask (.inl hs)).removeSafe
  | suspend => exact ((h.own t).mask (.inr hs)).removeSafe
  | close => exact absurd hs hstat

variable [DecidableEq ι]

def apply (k : Kernel τ ι) : ThreadOp τ → Kernel τ ι
  | .startup t => k.rtThreadStartup t
  | .suspend t => (k.rtThreadSuspend t).2
  | .resume t => (k.rtThreadResume t).2
  | .timeout t => k.rtThreadTimeout t
  | .changePriority t p => k.rtThreadChangePriority t p
  | .detach t => k.rtThreadDetach t
  | .delete t => k.rtThreadDelete t
  | .sleepEnd t => k.rtThreadSleepEnd t
  | .exit => k.onCurrent k.rtThreadExit
  | .yield => k.onCurrent k.rtThreadYield
  | .sleep tick => k.onCurrent fun t => k.rtThreadSleep t tick
  | .schedule => k.rtSchedule
  | .schedulerStart => k.rtSystemSchedulerStart

/-- Calls are made on threads that are initialised and not closed. -/
def Legal (k : Kernel τ ι) : ThreadOp τ → Prop
  | .startup t | .suspend t | .resume t | .timeout t | .changePriority t _ | .detach t | .delete t
  | .sleepEnd t => (k.thread t).stat ≠ .close
  | .exit | .yield | .sleep _ => ∃ t, k.currentThread = some t ∧ (k.thread t).stat ≠ .close
  | .schedule | .schedulerStart => True

/-- The calls that keep the ready set consistent. -/
def Safe (k : Kernel τ ι) : ThreadOp τ → Prop
  | .startup t => StartupSafe k t
  | .timeout t => (k.thread t).stat ≠ .init
  | .detach t | .delete t => CloseSafe k t
  | _ => True

theorem Progress.apply (op : ThreadOp τ) : Progress k (k.apply op) := by
  cases op with
  | startup t =>
    rw [Kernel.apply, rtThreadStartup]
    split
    · exact setThread (.resume .schedule) (by simp) fun _ => rfl
    · exact setThread (.resume .refl) (by simp) fun _ => rfl
  | suspend t => exact .suspend .refl
  | resume t => exact .resume .refl
  | timeout t =>
    exact setThread (f := fun x => { x with error := .etimeout })
      ((insert schedule).of_eq rfl rfl) id id
  | changePriority t p =>
    rw [Kernel.apply, rtThreadChangePriority]
    split
    · exact .remove (.setThread (.insert .refl) id fun _ => rfl)
    · exact .setThread .refl id fun _ => rfl
  | detach t =>
    rw [Kernel.apply, rtThreadDetach]
    split
    · exact .remove (.timerDetach (.close (.objectDetach (.defunct .refl))))
    · exact .remove (.timerDetach (.close (.objectDetach .refl)))
  | delete t => exact .remove (.timerDetach (.close (.defunct .refl)))
  | sleepEnd t =>
    rw [Kernel.apply, rtThreadSleepEnd]
    split
    · exact .setThread .refl id id
    · exact .refl
  | exit =>
    rw [Kernel.apply]
    refine onCurrent_of .refl fun t => ?_
    dsimp only [rtThreadExit]
    split
    · exact .remove (.close (.timerDetach (.objectDetach .schedule)))
    · exact .remove (.close (.timerDetach (.defunct .schedule)))
  | yield =>
    rw [Kernel.apply]
    refine onCurrent_of .refl fun t => ?_
    rw [rtThreadYield]
    split
    · exact of_eq schedule rfl rfl
    · exact .refl
  | sleep tick =>
    rw [Kernel.apply]
    exact onCurrent_of .refl fun t => .suspend (.setThread .schedule id id)
  | schedule => exact .schedule
  | schedulerStart => exact ⟨fun _ => id, fun _ => id, .inr rfl⟩

def SafeStep (k : Kernel τ ι) (op : ThreadOp τ) (k' : Kernel τ ι) : Prop :=
  k.Legal op ∧ k.Safe op ∧ k' = k.apply op

theorem ReadyOk.apply (h : ReadyOk k) (op : ThreadOp τ) (hlegal : k.Legal op) (hsafe : k.Safe op)
    (hcurrent : ∀ t, k.currentThread = some t → (k.thread t).stat ≠ .init) :
    ReadyOk (k.apply op) := by
  have hsched : ReadyOk k.rtSystemSchedulerStart := h.congr rfl rfl fun u => ⟨rfl, rfl, rfl⟩
  cases op with
  | startup t => exact h.rtThreadStartup hsafe
  | suspend t => exact h.rtThreadSuspend
  | resume t => exact h.rtThreadResume
  | timeout t =>
    refine h.rtThreadTimeout ?_
    have hclose : (k.thread t).stat ≠ .close := hlegal
    have hinit : (k.thread t).stat ≠ .init := hsafe
    cases hs : (k.thread t).stat <;> simp_all
  | changePriority t p => exact h.rtThreadChangePriority p
  | detach t => exact h.rtThreadDetach (h.removeSafe hlegal hsafe)
  | delete t => exact h.rtThreadDelete (h.removeSafe hlegal hsafe)
  | sleepEnd t =>
    rw [Kernel.apply, rtThreadSleepEnd]
    split
    · refine h.congr rfl rfl fun u => ?_
      by_cases hu : u = t
      · subst hu
        simp
      · simp [hu]
    · exact h
  | exit =>
    obtain ⟨t, ht, hclose⟩ := hlegal
    have hremove := h.removeSafe hclose fun hinit => absurd hinit (hcurrent t ht)
    simpa [Kernel.apply, onCurrent, ht] using h.rtThreadExit hremove
  | yield =>
    rw [Kernel.apply]
    exact onCurrent_of h fun t => h.rtThreadYield
  | sleep tick =>
    rw [Kernel.apply]
    exact onCurrent_of h fun t => h.rtThreadSleep tick
  | schedule => exact h.rtSchedule
  | schedulerStart => exact hsched

theorem Dispatching.apply (h : Dispatching k) (op : ThreadOp τ) (hlegal : k.Legal op)
    (hsafe : k.Safe op) : Dispatching (k.apply op) :=
  h.step (h.ready.apply op hlegal hsafe h.current) (Progress.apply op).init
    (Progress.apply op).current

attribute [local simp] rtThreadResume_of_suspend

theorem RunOk.step {tr : List (ThreadOp τ)} (h : RunOk tr k) (op : ThreadOp τ)
    (hstep : SafeStep k op k') : RunOk (tr ++ [op]) k' := by
  obtain ⟨hlegal, hsafe, rfl⟩ := hstep
  have hnew := h.toDispatching.apply op hlegal hsafe
  refine ⟨hnew, fun t ht => ?_⟩
  rcases mem_append.mp ht with ht | ht
  · exact (Progress.apply op).mask t (h.mask t ht)
  · obtain rfl := mem_singleton.mp ht
    exact (hnew.ready.own t).mask
      (.inl (by rw [apply, rtThreadStartup]; split <;> simp))

/-- A thread that was initialised with priority `p` in memory that held `mask`. -/
def freshThread (p : Fin 32) (mask : BitVec 32) : Thread where
  error := .eok
  stat := .init
  currentPriority := p
  initPriority := p
  numberMask := mask
  timerActivated := false
  timerInitTick := 0
  isStatic := false
  cleanup := false
  attached := true

variable (priority : τ → Fin 32) (ts : List τ)

/-- `rt_system_scheduler_init` with threads of the given priorities. -/
def initialised : Kernel τ ι :=
  rtSystemSchedulerInit
    { thread := fun t => freshThread (priority t) 0
      list := fun _ => []
      readyPriorityGroup := 0
      currentThread := none
      schedulerLockNest := 0 }

/-- The threads `ts` are started. -/
def boot : Kernel τ ι :=
  ts.foldl (fun k t => k.rtThreadStartup t) (initialised priority)

theorem rtThreadStartup_thread (k : Kernel τ ι) (t : τ) :
    (k.rtThreadStartup t).thread = Function.update k.thread t
      { k.thread t with
        currentPriority := (k.thread t).initPriority
        numberMask := priorityMask (k.thread t).initPriority
        stat := .ready
        timerActivated := false } := by
  funext u
  rw [rtThreadStartup]
  by_cases hu : u = t
  · subst hu
    split <;> simp [rtTimerStop]
  · split <;> simp [rtTimerStop, hu]

/-- In every state of a run of safe calls the bits follow the ready lists; a started thread is in
the ready list of a priority exactly if it is ready at that priority, it is linked at most once, and
its mask is the bit of its priority. -/
theorem ready_set_of_safe_run {k₀ : Kernel τ ι} {tr : List (ThreadOp τ)}
    (hinit : ∀ t, (k₀.thread t).stat = .init) (hwait : ∀ i, k₀.list (.wait i) = [])
    (hrun : Run SafeStep k₀.rtSystemSchedulerInit tr k) :
    (∀ p : Fin 32, k.readyPriorityGroup.getLsbD p = true ↔ k.list (.ready p) ≠ []) ∧
      ∀ t, .startup t ∈ tr →
        (∀ p, t ∈ k.list (.ready p) ↔
          (k.thread t).stat = .ready ∧ (k.thread t).currentPriority = p) ∧
        (∀ h, (k.list h).count t ≤ 1) ∧
        (∀ h h', t ∈ k.list h → t ∈ k.list h' → h = h') ∧
        (k.thread t).numberMask = priorityMask (k.thread t).currentPriority := by
  have hok : RunOk tr k := by
    refine hrun.invariant (RunOk.init hinit hwait) fun tr k op k' h hstep => ?_
    exact h.step op hstep
  refine ⟨hok.ready.bit, fun t ht => ⟨(hok.ready.own t).mem, fun h => ?_, fun h h' => ?_, ?_⟩⟩
  · exact nodup_iff_count_le_one.mp (hok.ready.nodup h) t
  · exact hok.ready.unique
  · exact hok.mask t ht

def twoPriorities (t : Bool) : Fin 32 := if t then ⟨5, by decide⟩ else ⟨10, by decide⟩

/-- Two threads. The less urgent one lies where a thread of priority 5 was. -/
def twoThreads : Kernel Bool Empty where
  thread t := freshThread (twoPriorities t) (if t then 0 else priorityMask (twoPriorities true))
  list _ := []
  readyPriorityGroup := 0
  currentThread := none
  schedulerLockNest := 0

theorem ready_set_of_safe_run_two :
    ∃ k, Run SafeStep twoThreads.rtSystemSchedulerInit
        [.startup false, .schedulerStart, .startup true, .sleep 20, .delete false] k ∧
      (k.thread false).numberMask = priorityMask (k.thread false).currentPriority := by
  let k1 := (twoThreads.rtSystemSchedulerInit.apply (.startup false)).apply .schedulerStart
  let k2 := (k1.apply (.startup true)).apply (.sleep 20)
  have hrun : Run SafeStep twoThreads.rtSystemSchedulerInit
      [.startup false, .schedulerStart, .startup true, .sleep 20, .delete false]
      (k2.apply (.delete false)) := by
    refine .snoc (.snoc (.snoc (.snoc (.snoc .nil ⟨?_, ?_, rfl⟩) ⟨trivial, trivial, rfl⟩)
      ⟨?_, ?_, rfl⟩) ⟨⟨true, by decide, by decide⟩, trivial, rfl⟩) ⟨?_, ?_, rfl⟩
    all_goals exact fun h => absurd h (by decide)
  refine ⟨_, hrun, ?_⟩
  have hall := ready_set_of_safe_run (fun t => by cases t <;> rfl) (fun i => i.elim) hrun
  exact (hall.2 false (by simp)).2.2.2

def LegalStep (k : Kernel τ ι) (op : ThreadOp τ) (k' : Kernel τ ι) : Prop :=
  k.Legal op ∧ k' = k.apply op

/-- Deleting a thread that was never started clears the bit of a priority that has nothing to do
with it, while a thread of that priority is ready. -/
theorem delete_fresh_clears_bit :
    (∀ t, (twoThreads.thread t).stat = .init) ∧
    ∃ k, Run LegalStep twoThreads.rtSystemSchedulerInit [.startup true, .delete false] k ∧
      k.readyPriorityGroup.getLsbD 5 = false ∧ k.list (.ready 5) = [true] := by
  let k1 := twoThreads.rtSystemSchedulerInit.apply (.startup true)
  refine ⟨by decide, k1.apply (.delete false), .snoc (.snoc .nil ⟨?_, rfl⟩) ⟨?_, rfl⟩, by decide,
    by decide⟩
  all_goals exact fun h => absurd h (by decide)

end Kernel
end RtThread
