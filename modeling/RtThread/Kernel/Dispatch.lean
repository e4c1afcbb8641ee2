import RtThread.Kernel.Decision
import RtThread.Kernel.Reclaim

/-!
# Which thread runs

In every state of a run the ready set is consistent, as long as no call trusts a `number_mask` that
nobody has set. So `rt_schedule` always finds the first of the most urgent ready threads, and
threads of that priority that yield take turns.
-/

namespace RtThread

variable {τ ι : Type*} [DecidableEq τ] {s : Reaper τ ι} {t : τ} {k : Kernel τ ι}

/-- The steps that keep the ready set consistent. -/
def Reaper.Safe (s : Reaper τ ι) : ReaperOp τ ι → Prop
  | .thread op => s.kernel.Safe op
  | _ => True

namespace Kernel.Dispatching
open Reaper

theorem setThread (h : Dispatching k) (f : Thread → Thread)
    (hf : ∀ x, (f x).stat = x.stat ∧ (f x).currentPriority = x.currentPriority ∧
      (f x).numberMask = x.numberMask) : Dispatching (k.setThread t f) := by
  obtain ⟨hstat, hprio, hmask⟩ := hf (k.thread t)
  have hkept : ∀ u, ((k.setThread t f).thread u).stat = (k.thread u).stat :=
    fun u => field_update Thread.stat u hstat
  refine h.step (h.ready.congr rfl rfl fun u => ⟨hkept u, ?_, ?_⟩) (fun u hu => ?_) (.inl rfl)
  · exact field_update Thread.currentPriority u hprio
  · exact field_update Thread.numberMask u hmask
  · rwa [hkept] at hu

omit [DecidableEq τ] in
theorem rtExitCritical (h : Dispatching k) : Dispatching k.rtExitCritical := by
  have hready : ∀ n, ReadyOk { k with schedulerLockNest := n } := fun n =>
    h.ready.congr rfl rfl fun _ => ⟨rfl, rfl, rfl⟩
  rw [Kernel.rtExitCritical]
  split
  · refine h.step (hready 0).rtSchedule (fun u hu => ?_) (rtSchedule_currentThread _)
    rwa [rtSchedule_thread] at hu
  · exact h.step (hready _) (fun _ hu => hu) (.inl rfl)

theorem idleTake (h : Dispatching s.kernel) : Dispatching s.idleTake.kernel := by
  rw [Reaper.idleTake]
  split
  · exact h
  · rename_i t ts hlist
    have hmem : t ∈ s.kernel.list .defunct := by simp [hlist]
    have hother : ∀ p, t ∉ s.kernel.list (.ready p) := fun p hp => by
      have := h.ready.unique hmem hp
      simp at this
    refine h.step (h.ready.of_parts (t := t) ⟨fun p => ?_, fun l => ?_, fun hx hy => ?_⟩ ?_
      (fun _ _ => rfl) fun u hu l => ?_) (fun _ hu => hu) (.inl rfl)
    · simpa [List.erase_of_not_mem (hother p)] using h.ready.bit p
    · exact (h.ready.nodup l).erase t
    · exact h.ready.unique (List.mem_of_mem_erase hx) (List.mem_of_mem_erase hy)
    · refine .of_unlinked (fun l => ?_) (fun hs => ?_) fun hs => (h.ready.own t).mask (.inr hs)
      · simp [h.ready.mem_erase]
      · exact hother _ (((h.ready.own t).mem _).mpr ⟨hs, rfl⟩)
    · simp [h.ready.mem_erase, hu]

variable [DecidableEq ι]

theorem ipcWait (h : Dispatching k) (hs : (k.thread t).stat = .ready)
    (i : ι) (flag : IpcFlag) (time : BitVec 32) : Dispatching (k.ipcWait i t flag time) := by
  refine h.step (h.ready.ipcWait hs) (fun u hu => ?_) (.inl ?_)
  · rw [ipcWait_thread hs] at hu
    by_cases hut : u = t
    · subst hut
      simp at hu
    · simpa [hut] using hu
  · have hsuspend : (k.rtThreadSuspend t).2.currentThread = k.currentThread := by
      simp [rtThreadSuspend, hs, rtTimerStop]
    rw [Kernel.ipcWait]
    split <;> exact hsuspend

theorem reaperStep (h : Dispatching s.kernel) (op : ReaperOp τ ι)
    (henabled : s.Enabled op) (hsafe : s.Safe op) : Dispatching (s.apply op).kernel := by
  cases op with
  | thread op => exact h.apply op henabled hsafe
  | ipcWait i t flag time => exact h.ipcWait henabled i flag time
  | timerStop t =>
    exact h.setThread (fun x => { x with timerActivated := false }) fun _ => ⟨rfl, rfl, rfl⟩
  | setCleanup t cleanup =>
    exact h.setThread (fun x => { x with cleanup := cleanup }) fun _ => ⟨rfl, rfl, rfl⟩
  | enterCritical =>
    exact h.step (h.ready.congr rfl rfl fun _ => ⟨rfl, rfl, rfl⟩) (fun _ hu => hu) (.inl rfl)
  | exitCritical => exact h.rtExitCritical
  | idleTake => exact h.idleTake
  | idleFree =>
    rw [Reaper.apply, Reaper.idleFree]
    split
    · exact h
    · exact h.setThread (fun x => { x with attached := false }) fun _ => ⟨rfl, rfl, rfl⟩

theorem of_run {s0 : Reaper τ ι} {es : List (ReaperOp τ ι × Unit)} (hfresh : Fresh s0)
    (hrun : Run (StepIf Reaper.Safe) s0 es s) : Dispatching s.kernel := by
  refine hrun.state_invariant (of_empty hfresh.lists hfresh.group hfresh.init
    hfresh.current) ?_
  intro s e s' h hstep
  obtain ⟨henabled, hsafe, rfl⟩ := hstep.eq_apply
  exact h.reaperStep e.1 henabled hsafe

end Kernel.Dispatching

namespace Reaper
open Kernel
variable [DecidableEq ι]

/-- In every state of a run in which a thread is ready, `rt_schedule` switches to the first thread
in the list of the smallest priority of a ready thread. If there are several, and they only yield,
the `n`-th yield switches to the `n`-th of them, counted around. -/
theorem schedule_takes_first_of_most_urgent {s₀ : Reaper τ ι} {es : List (ReaperOp τ ι × Unit)}
    (hfresh : Fresh s₀) (hrun : Run (StepIf Safe) s₀ es s)
    (hlock : s.kernel.schedulerLockNest = 0) (hready : ∃ t, (s.kernel.thread t).stat = .ready) :
    ∃ p, MostUrgent s.kernel p ∧ (∀ t, t ∈ s.kernel.list (.ready p) ↔
        (s.kernel.thread t).stat = .ready ∧ (s.kernel.thread t).currentPriority = p) ∧
      s.kernel.list (.ready p) ≠ [] ∧
      s.kernel.rtSchedule.currentThread = (s.kernel.list (.ready p)).head? ∧
      (2 ≤ (s.kernel.list (.ready p)).length → ∀ n,
        ((fun k => k.apply .yield)^[n] s.kernel.rtSchedule).list (.ready p) =
          (s.kernel.list (.ready p)).rotate n ∧
        ((fun k => k.apply .yield)^[n] s.kernel.rtSchedule).currentThread =
          (s.kernel.list (.ready p))[n % (s.kernel.list (.ready p)).length]?) := by
  obtain ⟨t, ht⟩ := hready
  have hok := (Dispatching.of_run hfresh hrun).ready
  obtain ⟨p, -, hp⟩ := hok.rtFfs_mostUrgent ht
  have hturn := hok.turn_rtSchedule hlock hp
  obtain ⟨u, hu⟩ := hp.attained
  refine ⟨p, hp, fun t => (hok.own t).mem p, List.ne_nil_of_mem (((hok.own u).mem p).mpr hu),
    hturn.current, fun hlength n => ?_⟩
  refine ⟨(hturn.yields hlength n).list, ?_⟩
  rw [(hturn.yields hlength n).current, ← List.rotate_mod, List.head?_rotate]
  exact Nat.mod_lt n (by omega)

instance (k : Kernel τ ι) (op : ThreadOp τ) : Decidable (k.Safe op) :=
  match op with
  | .startup _ => inferInstanceAs (Decidable (_ → _ ∨ _ ≠ _))
  | .timeout _ => instDecidableNot
  | .detach _ | .delete _ => inferInstanceAs (Decidable (_ → _ → _))
  | .suspend _ | .resume _ | .changePriority _ _ | .sleepEnd _ | .exit | .yield | .sleep _
  | .schedule | .schedulerStart => .isTrue trivial

instance (s : Reaper τ ι) (op : ReaperOp τ ι) : Decidable (s.Safe op) :=
  match op with
  | .thread op => inferInstanceAs (Decidable (s.kernel.Safe op))
  | .ipcWait _ _ _ _ | .timerStop _ | .setCleanup _ _ | .enterCritical | .exitCritical | .idleTake
  | .idleFree => .isTrue trivial

/-- Three threads of one priority take turns while a more urgent one sleeps. -/
theorem schedule_takes_first_of_most_urgent_turns : ∃ es s, Run (StepIf Safe) endings es s ∧
    s.kernel.list (.ready 20) = [.b, .c, .d] ∧
    ∃ p, MostUrgent s.kernel p ∧
      s.kernel.rtSchedule.currentThread = (s.kernel.list (.ready p)).head? := by
  have hrun := machine.run_exec Safe endings
    [.thread (.startup .a), .thread (.startup .b), .thread (.startup .c), .thread (.startup .d),
      .thread .schedulerStart, .thread (.changePriority .c 20), .thread (.changePriority .d 20),
      .thread (.sleep 7)]
  refine ⟨_, _, hrun, by decide +kernel, ?_⟩
  obtain ⟨p, hp, -, -, hcurrent, -⟩ := schedule_takes_first_of_most_urgent endings_fresh hrun
    (by decide +kernel) ⟨.b, by decide +kernel⟩
  exact ⟨p, hp, hcurrent⟩

/-- Four threads; `d` lies where a thread of the priority of `a` was. -/
def stale : Reaper Kernel.Quartet Empty :=
  { endings with
    kernel := endings.kernel.setThread .d fun x =>
      { x with numberMask := priorityMask Quartet.a.priority, isStatic := false } }

theorem stale_fresh : Fresh stale := by
  constructor <;> intros <;> first | rfl | (rename_i t; cases t <;> rfl)

/-- After a thread that was never started is deleted, `rt_schedule` switches to `b` although `a` is
ready and more urgent. -/
theorem schedule_misses_most_urgent : Fresh stale ∧
    ∃ es s, Run (StepIf Typed) stale es s ∧ s.kernel.schedulerLockNest = 0 ∧
      s.kernel.rtSchedule.currentThread = some .b ∧ (s.kernel.thread .a).stat = .ready ∧
      (s.kernel.thread .a).currentPriority < (s.kernel.thread .b).currentPriority := by
  have hrun := machine.run_exec Typed stale
    [.thread (.startup .a), .thread (.startup .b), .thread .schedulerStart, .thread (.delete .d)]
  exact ⟨stale_fresh, _, _, hrun, by decide +kernel⟩

end Reaper
end RtThread
