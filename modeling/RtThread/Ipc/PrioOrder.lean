import Mathlib.Order.Fin.Basic
import RtThread.Ipc.Mutex

/-!
# The order of suspend lists

What the IPC functions do to suspend lists, for any kind of object: a thread blocks, which may raise
the owner of a mutex, threads are resumed or time out, and priorities change. With
`RT_IPC_FLAG_PRIO` threads are inserted by priority, behind those with the same priority. The list
is not sorted again when the priority of a thread in it changes.
-/

namespace RtThread
open Kernel
open Function
open List

/-- The threads, the flags of the objects, and when each thread was suspended, as the number of
suspensions before. -/
structure IpcSys (τ ι : Type*) where
  k : Kernel τ ι
  flag : ι → IpcFlag
  suspensions : Nat
  suspendedAt : τ → Nat

/-- The steps of a run, each without an interrupt. -/
inductive IpcOp (τ ι : Type*)
  /-- `t` has to wait for the object `i`; `owner` is `mutex->owner` in `rt_mutex_take` -/
  | block (t : τ) (i : ι) (time : BitVec 32) (owner : Option τ)
  /-- `rt_ipc_list_resume` -/
  | wake (i : ι)
  /-- `rt_ipc_list_resume_all`, when an object is detached -/
  | wakeAll (i : ι)
  /-- `rt_thread_resume`, as in `rt_event_send` -/
  | resume (t : τ)
  /-- the timer of `t` expires -/
  | timeout (t : τ)
  /-- `rt_thread_control` with `RT_THREAD_CTRL_CHANGE_PRIORITY` -/
  | changePriority (t : τ) (p : Fin 32)
  /-- an assignment to `thread->error` -/
  | setError (t : τ) (e : RtErr)

theorem insertPrio_pairwise {τ : Type*} {priority : τ → Fin 32} {R : τ → τ → Prop} {t : τ}
    {ts : List τ} (hmono : ∀ {u v}, R u v → priority u ≤ priority v)
    (hfront : ∀ u, priority t < priority u → R t u)
    (hback : ∀ u ∈ ts, priority u ≤ priority t → R u t) (hts : ts.Pairwise R) :
    (insertPrio priority t ts).Pairwise R := by
  induction ts with
  | nil => exact pairwise_singleton R t
  | cons u us ih =>
    rw [insertPrio]
    by_cases hlt : priority t < priority u
    · rw [if_pos hlt]
      refine pairwise_cons.mpr ⟨fun v hv => hfront v ?_, hts⟩
      rcases mem_cons.mp hv with rfl | hv
      · exact hlt
      · exact hlt.trans_le (hmono (rel_of_pairwise_cons hts hv))
    · rw [if_neg hlt]
      refine pairwise_cons.mpr ⟨fun v hv => ?_, ?_⟩
      · rw [(insertPrio_perm priority t us).mem_iff] at hv
        rcases mem_cons.mp hv with rfl | hv
        · exact hback u mem_cons_self (not_lt.mp hlt)
        · exact rel_of_pairwise_cons hts hv
      · exact ih (fun v hv => hback v (mem_cons_of_mem u hv)) hts.of_cons

namespace IpcSys
variable {τ ι : Type*}

section
variable [DecidableEq τ] [DecidableEq ι]

def Enabled (s : IpcSys τ ι) : IpcOp τ ι → Prop
  | .block t _ _ _ => (s.k.thread t).stat = .ready
  | .timeout t => (s.k.thread t).timerActivated = true
  | .wake _ | .wakeAll _ | .resume _ | .changePriority _ _ | .setError _ _ => True

def apply (s : IpcSys τ ι) : IpcOp τ ι → IpcSys τ ι
  | .block t i time owner =>
    let k := MutexSys.raiseOwner t (s.k.setThread t fun x => { x with error := .eok }) owner
    { s with
      k := k.ipcWait i t (s.flag i) time
      suspensions := s.suspensions + 1
      suspendedAt := update s.suspendedAt t s.suspensions }
  | .wake i => { s with k := s.k.rtIpcListResume i }
  | .wakeAll i => { s with k := s.k.rtIpcListResumeAll i }
  | .resume t => { s with k := (s.k.rtThreadResume t).2 }
  | .timeout t => { s with k := s.k.rtTimerCheck t }
  | .changePriority t p => { s with k := s.k.rtThreadChangePriority t p }
  | .setError t e => { s with k := s.k.setThread t fun x => { x with error := e } }

def machine : Machine (IpcSys τ ι) (IpcOp τ ι) Unit := ⟨Enabled, fun s op => ((), s.apply op)⟩

def StepIf (P : IpcSys τ ι → IpcOp τ ι → Prop) (s : IpcSys τ ι) (e : IpcOp τ ι × Unit)
    (s' : IpcSys τ ι) : Prop :=
  machine.StepIf P s e s'

def Step (s : IpcSys τ ι) (e : IpcOp τ ι × Unit) (s' : IpcSys τ ι) : Prop := machine.Step s e s'

instance (s : IpcSys τ ι) (op : IpcOp τ ι) : Decidable (machine.Enabled s op) :=
  match op with
  | .block .. | .timeout _ => decEq _ _
  | .wake _ | .wakeAll _ | .resume _ | .changePriority .. | .setError .. =>
    .isTrue trivial

end

/-- `a` is more urgent than `b`, or as urgent and was suspended before. -/
def Before (s : IpcSys τ ι) (a b : τ) : Prop :=
  (s.k.thread a).currentPriority < (s.k.thread b).currentPriority ∨
    (s.k.thread a).currentPriority = (s.k.thread b).currentPriority ∧
      s.suspendedAt a < s.suspendedAt b

/-- With the priority `p` the thread `t` belongs where it stands among those that wait with it for
an object with `RT_IPC_FLAG_PRIO`. -/
def KeepsPlace (s : IpcSys τ ι) (t : τ) (p : Fin 32) : Prop :=
  ∀ i, s.flag i = .prio → t ∈ s.k.list (.wait i) → ∀ u ∈ s.k.list (.wait i),
    let q := (s.k.thread u).currentPriority
    (s.Before u t → q < p ∨ q = p ∧ s.suspendedAt u < s.suspendedAt t) ∧
      (s.Before t u → p < q ∨ p = q ∧ s.suspendedAt t < s.suspendedAt u)

/-- No priority changes so that a thread should wait at another place, neither by
`rt_thread_control` nor because a more urgent thread has to wait for a mutex it owns. -/
def Steady (s : IpcSys τ ι) : IpcOp τ ι → Prop
  | .block t _ _ owner => ∀ o ∈ owner,
      (s.k.thread t).currentPriority < (s.k.thread o).currentPriority →
        s.KeepsPlace o (s.k.thread t).currentPriority
  | .changePriority t p => s.KeepsPlace t p
  | .wake _ | .wakeAll _ | .resume _ | .timeout _ | .setError _ _ => True

/-- The suspend lists of the objects with `RT_IPC_FLAG_PRIO` are in order. -/
structure Ordered (s : IpcSys τ ι) : Prop where
  k : s.k.WaitOk
  past : ∀ {i t}, t ∈ s.k.list (.wait i) → s.suspendedAt t < s.suspensions
  order : ∀ i, s.flag i = .prio → (s.k.list (.wait i)).Pairwise s.Before

/-- The scheduler is in order, and no thread waits. -/
structure Start (s : IpcSys τ ι) : Prop where
  k : s.k.WaitOk
  empty : ∀ i, s.k.list (.wait i) = []

variable {s s₀ s' : IpcSys τ ι} {t u : τ} {i : ι} {k : Kernel τ ι}

theorem Start.ordered (h : Start s) : s.Ordered := by
  refine ⟨h.k, fun {i t} ht => ?_, fun i _ => ?_⟩
  · rw [h.empty i] at ht
    cases ht
  · rw [h.empty i]
    exact List.Pairwise.nil

section
variable (h : s.Ordered)
include h

theorem Ordered.of_before (hk : k.WaitOk)
    (hsub : ∀ i, (k.list (.wait i)).Sublist (s.k.list (.wait i)))
    (hbefore : ∀ i, s.flag i = .prio → ∀ a ∈ s.k.list (.wait i), ∀ b ∈ s.k.list (.wait i),
      s.Before a b → Before { s with k := k } a b) : Ordered { s with k := k } where
  k := hk
  past ht := h.past ((hsub _).subset ht)
  order i hi := ((h.order i hi).sublist (hsub i)).imp_of_mem fun {a b} ha hb =>
    hbefore i hi a ((hsub i).subset ha) b ((hsub i).subset hb)

theorem Ordered.sublist (hk : k.WaitOk)
    (hsub : ∀ i, (k.list (.wait i)).Sublist (s.k.list (.wait i)))
    (hprio : ∀ t, (k.thread t).currentPriority = (s.k.thread t).currentPriority) :
    Ordered { s with k := k } := by
  refine h.of_before hk hsub fun i _ a _ b _ hab => ?_
  simpa only [Before, hprio] using hab

variable [DecidableEq τ]

theorem Ordered.setError (t : τ) (e : RtErr) :
    Ordered { s with k := s.k.setThread t fun x => { x with error := e } } := by
  refine h.sublist (h.k.setError e) (fun i => List.Sublist.refl _) fun u => ?_
  exact field_update Thread.currentPriority u

variable [DecidableEq ι]

theorem Ordered.resume (t : τ) : Ordered { s with k := (s.k.rtThreadResume t).2 } := by
  by_cases hs : (s.k.thread t).stat = .suspend
  · refine h.sublist (h.k.rtThreadResume hs) rtThreadResume_wait_sublist fun u => ?_
    rw [rtThreadResume_thread hs]
    exact field_update Thread.currentPriority u
  · rw [rtThreadResume_of_not_suspend hs]
    exact h

theorem Ordered.wake (i : ι) : Ordered { s with k := s.k.rtIpcListResume i } := by
  cases hlist : s.k.list (.wait i) with
  | nil =>
    simp only [rtIpcListResume, hlist]
    exact h
  | cons t ts =>
    rw [rtIpcListResume_cons hlist]
    exact h.resume t

theorem Ordered.resumeAllLoop (i : ι) (n : Nat) :
    Ordered { s with k := resumeAllLoop i n s.k } := by
  induction n generalizing s with
  | zero => exact h
  | succ n ih =>
    cases hlist : s.k.list (.wait i) with
    | nil =>
      simp only [resumeAllLoop, hlist]
      exact h
    | cons t ts =>
      simp only [resumeAllLoop, hlist]
      exact ih ((h.setError t .error).resume t)

theorem Ordered.timeout (ht : (s.k.thread t).timerActivated = true) :
    Ordered { s with k := s.k.rtTimerCheck t } := by
  refine h.sublist (h.k.rtTimerCheck (h.k.timer t ht)) (fun i => ?_) fun u => ?_
  · rw [rtTimerCheck_wait]
    exact erase_sublist
  · rw [rtTimerCheck_thread]
    exact field_update Thread.currentPriority u

theorem Ordered.changePriority {p : Fin 32} (hkeeps : s.KeepsPlace t p) :
    Ordered { s with k := s.k.rtThreadChangePriority t p } := by
  refine h.of_before (h.k.rtThreadChangePriority p) (fun i => ?_) fun i hi a ha b hb hab => ?_
  · rw [h.k.rtThreadChangePriority_wait]
  · simp only [Before, rtThreadChangePriority_thread]
    by_cases hat : a = t
    · subst hat
      have hba : b ≠ a := by
        rintro rfl
        simp [Before] at hab
      simpa [hba] using (hkeeps i hi ha b hb).2 hab
    · by_cases hbt : b = t
      · subst hbt
        simpa [hat] using (hkeeps i hi hb a ha).1 hab
      · rw [update_of_ne hat, update_of_ne hbt]
        exact hab

theorem Ordered.raiseOwner {owner : Option τ} (hkeeps : ∀ o ∈ owner,
      (s.k.thread t).currentPriority < (s.k.thread o).currentPriority →
        s.KeepsPlace o (s.k.thread t).currentPriority) :
    Ordered { s with k := MutexSys.raiseOwner t s.k owner } := by
  unfold MutexSys.raiseOwner
  split
  · exact h
  · rename_i o
    split
    · rename_i hlt
      exact h.changePriority (hkeeps o rfl hlt)
    · exact h

end

variable [DecidableEq τ] [DecidableEq ι]

/-- The thread goes behind all that are as urgent, which were suspended before. -/
theorem Ordered.suspend (h : s.Ordered) (ht : (s.k.thread t).stat = .ready) (i : ι)
    (time : BitVec 32) :
    Ordered { s with
      k := s.k.ipcWait i t (s.flag i) time
      suspensions := s.suspensions + 1
      suspendedAt := update s.suspendedAt t s.suspensions } := by
  have hnot : ∀ {j u}, u ∈ s.k.list (.wait j) → u ≠ t := by
    rintro j u hu rfl
    exact h.k.not_mem_wait ht hu
  have hthread : ∀ u, ((s.k.ipcWait i t (s.flag i) time).thread u).currentPriority =
      (s.k.thread u).currentPriority := by
    intro u
    rw [ipcWait_thread ht]
    exact field_update Thread.currentPriority u
  refine ⟨h.k.ipcWait ht, fun {j u} hu => ?_, fun j hj => ?_⟩
  · by_cases hut : u = t
    · subst hut
      simp
    · have hmem : u ∈ s.k.list (.wait j) := by
        rw [h.k.ipcWait_wait ht] at hu
        split at hu
        · rename_i hji
          subst hji
          exact ((mem_waitInsert _ t).mp hu).resolve_left hut
        · exact hu
      simpa [hut] using Nat.lt_succ_of_lt (h.past hmem)
  · -- what stood in the lists is compared as before
    have hold : ∀ j, s.flag j = .prio → (s.k.list (.wait j)).Pairwise (Before { s with
        k := s.k.ipcWait i t (s.flag i) time
        suspensions := s.suspensions + 1
        suspendedAt := update s.suspendedAt t s.suspensions }) := by
      intro j hj
      refine (h.order j hj).imp_of_mem fun {a b} ha hb hab => ?_
      simpa [Before, hthread, hnot ha, hnot hb] using hab
    rw [h.k.ipcWait_wait ht]
    split
    · rename_i hji
      subst hji
      have hins : waitInsert (fun u => (s.k.thread u).currentPriority) t (s.flag j)
          (s.k.list (.wait j)) =
            insertPrio (fun u => (s.k.thread u).currentPriority) t (s.k.list (.wait j)) := by
        rw [hj, waitInsert]
      rw [hins]
      refine insertPrio_pairwise (fun {u v} huv => ?_) (fun u hu => ?_) (fun u hu hle => ?_)
        (hold j hj)
      · rcases huv with hlt | heq
        · simpa [hthread] using hlt.le
        · simpa [hthread] using heq.1.le
      · exact .inl (by simpa [hthread] using hu)
      · rcases hle.lt_or_eq with hlt | heq
        · exact .inl (by simpa [hthread] using hlt)
        · refine .inr ⟨by simpa [hthread] using heq, ?_⟩
          simpa [hnot hu] using h.past hu
    · exact hold j hj

theorem Ordered.block (h : s.Ordered) {time : BitVec 32} {owner : Option τ}
    (ht : (s.k.thread t).stat = .ready) (hsteady : s.Steady (.block t i time owner)) :
    (s.apply (.block t i time owner)).Ordered := by
  have hsame : ∀ u, ((s.k.setThread t fun x => { x with error := .eok }).thread u).currentPriority =
      (s.k.thread u).currentPriority := fun u => field_update Thread.currentPriority u
  have hraised : Ordered { s with
      k := MutexSys.raiseOwner t (s.k.setThread t fun x => { x with error := .eok }) owner } := by
    refine (h.setError t .eok).raiseOwner fun o ho hlt => ?_
    rw [hsame, hsame] at hlt
    simp only [KeepsPlace, Before, hsame]
    exact hsteady o ho hlt
  exact hraised.suspend (by simpa [MutexSys.raiseOwner_thread] using ht) i time

theorem Ordered.step {e : IpcOp τ ι × Unit} (h : s.Ordered) (hstep : StepIf Steady s e s') :
    s'.Ordered := by
  obtain ⟨op, ⟨⟩⟩ := e
  obtain ⟨⟨henabled, hnext⟩, hsteady⟩ := hstep
  obtain rfl : s.apply op = s' := congrArg Prod.snd hnext
  cases op with
  | block t i time owner => exact h.block henabled hsteady
  | wake i => exact h.wake i
  | wakeAll i => exact h.resumeAllLoop i _
  | resume t => exact h.resume t
  | timeout t => exact h.timeout henabled
  | changePriority t p => exact h.changePriority hsteady
  | setError t e => exact h.setError t e

theorem flag_of_run {P : IpcSys τ ι → IpcOp τ ι → Prop} {es : List (IpcOp τ ι × Unit)}
    (hrun : Run (StepIf P) s₀ es s) : s.flag = s₀.flag := by
  refine hrun.state_invariant rfl fun s e s' h hstep => ?_
  obtain ⟨op, ⟨⟩⟩ := e
  obtain rfl : s.apply op = s' := congrArg Prod.snd hstep.1.2
  cases op <;> exact h

/-- In a run in which no change of a priority asks for another place in these lists, the threads
waiting for an object with `RT_IPC_FLAG_PRIO` stand in the order of priority, then of suspension,
and `rt_ipc_list_resume` wakes one that is as urgent as any. -/
theorem prio_order_of_run {es : List (IpcOp τ ι × Unit)} (hs₀ : Start s₀)
    (hrun : Run (StepIf Steady) s₀ es s) (hi : s₀.flag i = .prio) :
    (s.k.list (.wait i)).Pairwise s.Before ∧ ∀ t ts, s.k.list (.wait i) = t :: ts →
        ((s.k.rtIpcListResume i).thread t).stat = .ready ∧
          (s.k.rtIpcListResume i).list (.wait i) = ts ∧
          ∀ u ∈ ts, (s.k.thread t).currentPriority ≤ (s.k.thread u).currentPriority := by
  have hordered : s.Ordered := hrun.state_invariant hs₀.ordered fun _ _ _ h hstep => h.step hstep
  have hpairwise := hordered.order i (by rw [flag_of_run hrun, hi])
  refine ⟨hpairwise, fun t ts hlist => ⟨?_, ?_, fun u hu => ?_⟩⟩
  · simp [hordered.k.rtIpcListResume_thread hlist]
  · simp [hordered.k.rtIpcListResume_wait hlist]
  · rw [hlist] at hpairwise
    rcases rel_of_pairwise_cons hpairwise hu with hlt | heq
    · exact hlt.le
    · exact heq.1.le

instance (s : IpcSys τ ι) (a b : τ) : Decidable (s.Before a b) := instDecidableOr

instance [Fintype ι] (s : IpcSys τ ι) (t : τ) (p : Fin 32) : Decidable (s.KeepsPlace t p) :=
  inferInstanceAs (Decidable (∀ _, _ = _ → _ ∈ _ → ∀ _ ∈ _, (_ → _) ∧ (_ → _)))

instance [Fintype ι] (s : IpcSys τ ι) (op : IpcOp τ ι) : Decidable (s.Steady op) :=
  match op with
  | .block .. => inferInstanceAs (Decidable (∀ o ∈ _, _ < _ → s.KeepsPlace o _))
  | .changePriority t p => inferInstanceAs (Decidable (s.KeepsPlace t p))
  | .wake _ | .wakeAll _ | .resume _ | .timeout _ | .setError .. => .isTrue trivial

def fourThreads : IpcSys Quartet Bool where
  k := quartet
  flag _ := .prio
  suspensions := 0
  suspendedAt _ := 0

theorem prio_order_of_run_raised : ∃ es s, Run (StepIf Steady) fourThreads es s ∧
    s.k.list (.wait true) = [.d, .a, .b] ∧ (s.k.list (.wait true)).Pairwise s.Before := by
  have hrun := machine.run_exec Steady fourThreads
    [.block .b true 0xffffffff (some .d), .changePriority .d 12, .block .a true 5 none,
      .setError .d .eok, .block .d true 0xffffffff (some .c), .timeout .a, .block .a true 5 none,
      .changePriority .b 15, .wake false]
  exact ⟨_, _, hrun, by decide +kernel,
    (prio_order_of_run ⟨quartet_waitOk, by decide +kernel⟩ hrun rfl).1⟩

/-- A thread that gets more urgent while it waits stays behind less urgent ones, and is not the one
that is woken. In the first run its priority is changed by `rt_thread_control`, in the second a more
urgent thread has to wait for a mutex that it owns. -/
theorem raised_waiter_stays_behind :
    (∃ es s, Run Step fourThreads es s ∧ s.k.list (.wait true) = [.a, .b] ∧
      (s.k.thread .b).currentPriority < (s.k.thread .a).currentPriority ∧
      ((s.k.rtIpcListResume true).thread .a).stat = .ready ∧
      ((s.k.rtIpcListResume true).thread .b).stat = .suspend) ∧
    ∃ es s, Run Step fourThreads es s ∧ s.k.list (.wait true) = [.d, .c] ∧
      (s.k.thread .c).currentPriority < (s.k.thread .d).currentPriority ∧
      ((s.k.rtIpcListResume true).thread .d).stat = .ready ∧
      ((s.k.rtIpcListResume true).thread .c).stat = .suspend := by
  have hcontrol := machine.run_steps fourThreads
    [.block .a true 0xffffffff none, .block .b true 0xffffffff none, .changePriority .b 5]
  have hmutex := machine.run_steps fourThreads
    [.block .d true 0xffffffff (some .b), .block .c true 0xffffffff (some .b),
      .block .a false 0xffffffff (some .c)]
  exact ⟨⟨_, _, hcontrol, by decide +kernel⟩, ⟨_, _, hmutex, by decide +kernel⟩⟩

end IpcSys
end RtThread
