import RtThread.Lib.Run
import RtThread.Timer.State

/-!
# The activation flag

Calls of the timer functions, and the rounds of `rt_timer_check`, whose timeout functions may start
and stop timers themselves. A timer is linked iff `RT_TIMER_FLAG_ACTIVATED` is set, provided that
the timeout function of a one-shot timer does not leave its own timer started: `rt_timer_check`
clears the flag behind it.
-/

namespace RtThread
open List

namespace Timer
variable (t : Timer)

@[simp] theorem activated_deactivate : t.deactivate.activated = false := by
  have hmask : ~~~rtTimerFlagActivated &&& rtTimerFlagActivated = 0 := by decide
  simp [activated, deactivate, BitVec.and_assoc, hmask]

@[simp] theorem activated_activate : t.activate.activated = true := by
  have hset : ∀ f : BitVec 8, (f ||| rtTimerFlagActivated) &&& rtTimerFlagActivated ≠ 0 := by decide
  exact decide_eq_true (hset t.flag)

@[simp] theorem periodic_deactivate : t.deactivate.periodic = t.periodic := by
  have hmask : ~~~rtTimerFlagActivated &&& rtTimerFlagPeriodic = rtTimerFlagPeriodic := by decide
  simp [periodic, deactivate, BitVec.and_assoc, hmask]

@[simp] theorem periodic_activate : t.activate.periodic = t.periodic := by
  have hmask : ∀ f : BitVec 8,
      (f ||| rtTimerFlagActivated) &&& rtTimerFlagPeriodic = f &&& rtTimerFlagPeriodic := by decide
  simp [periodic, activate, hmask]

end Timer

/-- What a timeout function may do with timers. -/
inductive TimerCall (τ : Type*)
  | start (t : τ)
  | stop (t : τ)
  deriving DecidableEq

def TimerCall.timer {τ : Type*} : TimerCall τ → τ
  | .start t => t
  | .stop t => t

inductive TimerOp (τ : Type*)
  | init (t : τ) (time : BitVec 32) (flag : BitVec 8)
  | start (t : τ)
  | stop (t : τ)
  | control (t : τ) (cmd : TimerCtrl)
  /-- a round of `rt_timer_check`, with the calls that the timeout function of `t` makes -/
  | fire (t : τ) (calls : List (TimerCall τ))
  /-- time goes by -/
  | tick (n : BitVec 32)

namespace Timers
variable {τ : Type*} [DecidableEq τ]

def call (s : Timers τ) : TimerCall τ → Timers τ
  | .start t => s.rtTimerStart t
  | .stop t => (s.rtTimerStop t).2

/-- A round of `rt_timer_check` for the first timer of the list (`timer.c:510-537`). -/
def fire (s : Timers τ) (t : τ) (calls : List (TimerCall τ)) : Timers τ :=
  (calls.foldl call (s.remove t)).checkEnd t

def Enabled (s : Timers τ) : TimerOp τ → Prop
  | .fire t _ => s.list.head? = some t ∧ s.Expired t
  | .init _ _ _ | .start _ | .stop _ | .control _ _ | .tick _ => True

def apply (s : Timers τ) : TimerOp τ → Option RtErr × Timers τ
  | .init t time flag => (none, s.rtTimerInit t time flag)
  | .start t => (some .eok, s.rtTimerStart t)
  | .stop t => (some (s.rtTimerStop t).1, (s.rtTimerStop t).2)
  | .control t cmd => (some .eok, (s.rtTimerControl t cmd).2)
  | .fire t calls => (none, s.fire t calls)
  | .tick n => (none, { s with tick := s.tick + n })

def machine : Machine (Timers τ) (TimerOp τ) (Option RtErr) := ⟨Enabled, apply⟩

def Step (s : Timers τ) (e : TimerOp τ × Option RtErr) (s' : Timers τ) : Prop := machine.Step s e s'

def StepIf (P : Timers τ → TimerOp τ → Prop) (s : Timers τ) (e : TimerOp τ × Option RtErr)
    (s' : Timers τ) : Prop :=
  machine.StepIf P s e s'

instance (s : Timers τ) (op : TimerOp τ) : Decidable (machine.Enabled s op) :=
  match op with
  | .fire .. => instDecidableAnd
  | .init .. | .start _ | .stop _ | .control .. | .tick _ => .isTrue trivial

/-- What holds outside of timeout functions. -/
structure Ok (s : Timers τ) : Prop where
  nodup : s.list.Nodup
  flag : ∀ t, t ∈ s.list ↔ (s.timer t).activated = true

/-- What holds in the timeout function of `t`. That timer may still have the flag of when it was
linked. -/
structure InCallback (s : Timers τ) (t : τ) : Prop where
  nodup : s.list.Nodup
  flag : ∀ u, u ∈ s.list → (s.timer u).activated = true
  other : ∀ u, u ≠ t → (s.timer u).activated = true → u ∈ s.list

variable {s : Timers τ} {t u : τ}

theorem mem_rtTimerStart (hs : s.list.Nodup) :
    u ∈ (s.rtTimerStart t).list ↔ u = t ∨ u ∈ s.list := by
  have hperm : (s.rtTimerStart t).list.Perm (t :: s.list.erase t) := insertTimer_perm _ t _
  rw [hperm.mem_iff, mem_cons, hs.mem_erase_iff]
  by_cases hu : u = t <;> simp [hu]

theorem nodup_rtTimerStart (hs : s.list.Nodup) : (s.rtTimerStart t).list.Nodup := by
  have hperm : (s.rtTimerStart t).list.Perm (t :: s.list.erase t) := insertTimer_perm _ t _
  rw [hperm.nodup_iff, nodup_cons]
  exact ⟨fun hmem => (hs.mem_erase_iff.mp hmem).1 rfl, hs.erase t⟩

theorem activated_rtTimerStart : ((s.rtTimerStart t).timer u).activated = true ↔
    u = t ∨ (s.timer u).activated = true := by
  by_cases hu : u = t
  · simp [rtTimerStart, startLink, hu]
  · simp [rtTimerStart, startLink, startRead, startStop, hu]

theorem periodic_rtTimerStart : ((s.rtTimerStart t).timer u).periodic = (s.timer u).periodic := by
  by_cases hu : u = t
  · have hread : ∀ x : Timer, ∀ n, Timer.periodic { x with timeoutTick := n } = x.periodic :=
      fun _ _ => rfl
    simp [rtTimerStart, startLink, startRead, startStop, hread, hu]
  · simp [rtTimerStart, startLink, startRead, startStop, hu]

theorem mem_rtTimerStop (hs : s.list.Nodup) (hflag : t ∈ s.list → (s.timer t).activated = true) :
    u ∈ (s.rtTimerStop t).2.list ↔ u ≠ t ∧ u ∈ s.list := by
  rw [rtTimerStop]
  split
  · exact hs.mem_erase_iff
  · rename_i hoff
    exact ⟨fun hmem => ⟨fun heq => hoff (hflag (heq ▸ hmem)), hmem⟩, And.right⟩

theorem nodup_rtTimerStop (hs : s.list.Nodup) : (s.rtTimerStop t).2.list.Nodup := by
  rw [rtTimerStop]
  split
  · exact hs.erase t
  · exact hs

theorem activated_rtTimerStop : ((s.rtTimerStop t).2.timer u).activated = true ↔
    u ≠ t ∧ (s.timer u).activated = true := by
  rw [rtTimerStop]
  split
  · by_cases hu : u = t <;> simp [hu]
  · rename_i hoff
    exact ⟨fun hu => ⟨fun heq => hoff (heq ▸ hu), hu⟩, And.right⟩

theorem activated_rtTimerControl (cmd : TimerCtrl) :
    ((s.rtTimerControl t cmd).2.timer u).activated = (s.timer u).activated := by
  have hmask : ~~~rtTimerFlagPeriodic &&& rtTimerFlagActivated = rtTimerFlagActivated := by decide
  have hset : ∀ f : BitVec 8,
      (f ||| rtTimerFlagPeriodic) &&& rtTimerFlagActivated = f &&& rtTimerFlagActivated := by decide
  by_cases hu : u = t
  · cases cmd <;> simp [rtTimerControl, Timer.activated, hu, BitVec.and_assoc, hmask, hset]
  · cases cmd <;> simp [rtTimerControl, hu]

theorem list_rtTimerControl (cmd : TimerCtrl) : (s.rtTimerControl t cmd).2.list = s.list := by
  cases cmd <;> rfl

theorem periodic_call (c : TimerCall τ) : ((s.call c).timer u).periodic = (s.timer u).periodic := by
  cases c with
  | start v => exact periodic_rtTimerStart
  | stop v =>
    rw [call, rtTimerStop]
    split
    · by_cases hu : u = v <;> simp [hu]
    · rfl

theorem InCallback.call (h : s.InCallback t) (c : TimerCall τ) : (s.call c).InCallback t := by
  cases c with
  | start v =>
    refine ⟨nodup_rtTimerStart h.nodup, fun u hu => ?_, fun u hut hu => ?_⟩
    · rw [Timers.call, mem_rtTimerStart h.nodup] at hu
      exact activated_rtTimerStart.mpr (hu.imp_right (h.flag u))
    · rw [Timers.call, activated_rtTimerStart] at hu
      exact (mem_rtTimerStart h.nodup).mpr (hu.imp_right (h.other u hut))
  | stop v =>
    refine ⟨nodup_rtTimerStop h.nodup, fun u hu => ?_, fun u hut hu => ?_⟩
    · rw [Timers.call, mem_rtTimerStop h.nodup (h.flag v)] at hu
      exact activated_rtTimerStop.mpr (hu.imp_right (h.flag u))
    · rw [Timers.call, activated_rtTimerStop] at hu
      exact (mem_rtTimerStop h.nodup (h.flag v)).mpr (hu.imp_right (h.other u hut))

/-- The last thing that the calls do with `t` is to start it. -/
def LeavesStarted (t : τ) (calls : List (TimerCall τ)) : Prop :=
  (calls.filter fun c => c.timer = t).getLast? = some (.start t)

instance (t : τ) (calls : List (TimerCall τ)) : Decidable (LeavesStarted t calls) :=
  decEq _ _

theorem leavesStarted_snoc {calls : List (TimerCall τ)} {c : TimerCall τ} :
    LeavesStarted t (calls ++ [c]) ↔ c = .start t ∨ c.timer ≠ t ∧ LeavesStarted t calls := by
  by_cases hc : c.timer = t
  · simp [LeavesStarted, filter_append, hc]
  · have hne : c ≠ .start t := fun h => hc (h ▸ rfl)
    simp [LeavesStarted, filter_append, hc, hne]

theorem InCallback.calls (h : s.InCallback t) (hout : t ∉ s.list) (calls : List (TimerCall τ)) :
    (calls.foldl Timers.call s).InCallback t ∧
    ((calls.foldl Timers.call s).timer t).periodic = (s.timer t).periodic ∧
    (t ∈ (calls.foldl Timers.call s).list → LeavesStarted t calls) := by
  induction calls using List.reverseRecOn with
  | nil => exact ⟨h, rfl, fun hmem => absurd hmem hout⟩
  | append_singleton calls c ih =>
    obtain ⟨hin, hperiodic, hmem⟩ := ih
    rw [foldl_append, foldl_cons, foldl_nil, leavesStarted_snoc, periodic_call]
    refine ⟨hin.call c, hperiodic, fun hu => ?_⟩
    cases c with
    | start v =>
      rw [Timers.call, mem_rtTimerStart hin.nodup] at hu
      by_cases hv : t = v
      · exact .inl (by rw [hv])
      · exact .inr ⟨Ne.symm hv, hmem (hu.resolve_left hv)⟩
    | stop v =>
      rw [Timers.call, mem_rtTimerStop hin.nodup (hin.flag v)] at hu
      exact .inr ⟨Ne.symm hu.1, hmem hu.2⟩

/-- Behind the timeout function of a periodic timer, or of one that it did not start again. -/
theorem InCallback.checkEnd (h : s.InCallback t)
    (hsafe : (s.timer t).periodic = true ∨ t ∉ s.list) : (s.checkEnd t).Ok := by
  rw [Timers.checkEnd]
  split
  · refine ⟨nodup_rtTimerStart h.nodup, fun u => ?_⟩
    have hnodup : (s.setTimer t Timer.deactivate).list.Nodup := h.nodup
    rw [mem_rtTimerStart hnodup, activated_rtTimerStart]
    by_cases hu : u = t
    · simp [hu]
    · simpa [hu] using ⟨h.flag u, h.other u hu⟩
  · rename_i hoff
    have hout : t ∉ s.list := hsafe.elim (fun hp hmem => hoff ⟨hp, h.flag t hmem⟩) id
    refine ⟨h.nodup, fun u => ?_⟩
    by_cases hu : u = t
    · simpa [hu] using hout
    · simpa [hu] using ⟨h.flag u, h.other u hu⟩

/-- A timer is initialised when it is not linked, and the timeout function of a one-shot timer does
not leave its own timer started. -/
def FlagSafe (s : Timers τ) : TimerOp τ → Prop
  | .init t _ _ => t ∉ s.list
  | .fire t calls => (s.timer t).periodic = true ∨ ¬ LeavesStarted t calls
  | .start _ | .stop _ | .control _ _ | .tick _ => True

instance (s : Timers τ) (op : TimerOp τ) : Decidable (s.FlagSafe op) :=
  match op with
  | .init .. => instDecidableNot
  | .fire .. => instDecidableOr
  | .start _ | .stop _ | .control .. | .tick _ => .isTrue trivial

theorem Ok.fire (h : s.Ok) {calls : List (TimerCall τ)}
    (hsafe : (s.timer t).periodic = true ∨ ¬ LeavesStarted t calls) : (s.fire t calls).Ok := by
  have hmem : ∀ u, u ∈ (s.remove t).list ↔ u ≠ t ∧ u ∈ s.list := fun u => h.nodup.mem_erase_iff
  have hin : (s.remove t).InCallback t := by
    refine ⟨h.nodup.erase t, fun u hu => ?_, fun u hut hu => ?_⟩
    · exact (h.flag u).mp ((hmem u).mp hu).2
    · exact (hmem u).mpr ⟨hut, (h.flag u).mpr hu⟩
  obtain ⟨hin, hperiodic, hstarted⟩ := hin.calls (fun ht => ((hmem t).mp ht).1 rfl) calls
  refine hin.checkEnd ?_
  rw [hperiodic]
  exact hsafe.imp id fun hleaves hlinked => hleaves (hstarted hlinked)

theorem Ok.step {s' : Timers τ} {e : TimerOp τ × Option RtErr} (h : s.Ok)
    (hstep : StepIf FlagSafe s e s') : s'.Ok := by
  obtain ⟨op, r⟩ := e
  obtain ⟨⟨_, happly⟩, hsafe⟩ := hstep
  obtain rfl : s' = (s.apply op).2 := (congrArg Prod.snd happly).symm
  cases op with
  | init t time flag =>
    have hout : t ∉ s.list := hsafe
    refine ⟨h.nodup, fun u => ?_⟩
    by_cases hu : u = t
    · simp [apply, hu, hout]
    · simpa [apply, hu] using h.flag u
  | start t =>
    refine ⟨nodup_rtTimerStart h.nodup, fun u => ?_⟩
    rw [apply, mem_rtTimerStart h.nodup, activated_rtTimerStart, h.flag]
  | stop t =>
    refine ⟨nodup_rtTimerStop h.nodup, fun u => ?_⟩
    rw [apply, mem_rtTimerStop h.nodup (h.flag t).mp, activated_rtTimerStop, h.flag]
  | control t cmd =>
    refine ⟨?_, fun u => ?_⟩
    · rw [apply, list_rtTimerControl]
      exact h.nodup
    · rw [apply, list_rtTimerControl, activated_rtTimerControl, h.flag]
  | fire t calls => exact h.fire hsafe
  | tick n => exact ⟨h.nodup, h.flag⟩

structure Stopped (s : Timers τ) : Prop where
  list : s.list = []
  flag : ∀ t, (s.timer t).activated = false

/-- In a run in which no timeout function of a one-shot timer leaves its own timer started, and no
linked timer is initialised, a timer is linked iff it is activated, and `rt_timer_stop` unlinks it
if it is. -/
theorem activated_iff_linked_of_safe_run {s₀ : Timers τ} {tr : List (TimerOp τ × Option RtErr)}
    (hstart : s₀.Stopped) (hrun : Run (StepIf FlagSafe) s₀ tr s) :
    (∀ t, t ∈ s.list ↔ (s.timer t).activated = true) ∧
    ∀ t ∈ s.list, (s.rtTimerStop t).1 = .eok ∧ t ∉ (s.rtTimerStop t).2.list := by
  have hok : s.Ok := by
    refine hrun.state_invariant ⟨?_, fun t => ?_⟩ fun s e s' h hstep => h.step hstep
    · simp [hstart.list]
    · simp [hstart.list, hstart.flag]
  refine ⟨hok.flag, fun t ht => ⟨?_, fun hmem => ?_⟩⟩
  · rw [rtTimerStop, if_pos ((hok.flag t).mp ht)]
  · exact ((mem_rtTimerStop hok.nodup (hok.flag t).mp).mp hmem).1 rfl

/-- Two timers that are stopped, at the tick 0. -/
def twoTimers (flag : BitVec 8) : Timers Bool where
  timer _ := Timer.deactivate ⟨flag, 1, 0⟩
  list := []
  tick := 0

theorem twoTimers_stopped (flag : BitVec 8) : (twoTimers flag).Stopped :=
  ⟨rfl, fun _ => Timer.activated_deactivate _⟩

/-- A timeout function that starts the other timer. -/
theorem activated_iff_linked_of_safe_run_two : ∃ tr s, Run (StepIf FlagSafe) (twoTimers 0) tr s ∧
      s.list = [true] ∧ (s.timer true).activated = true ∧ true ∉ (s.rtTimerStop true).2.list := by
  have hrun := machine.run_exec FlagSafe (twoTimers 0)
    [.start false, .tick 1, .fire false [.start false, .stop false, .start true]]
  have hflag := activated_iff_linked_of_safe_run (twoTimers_stopped 0) hrun
  refine ⟨_, _, hrun, by decide +kernel, (hflag.1 true).mp ?_, (hflag.2 true ?_).2⟩ <;>
    decide +kernel

/-- The timeout function of a one-shot timer starts its own timer. `rt_timer_check` clears the flag,
the timer stays linked, and `rt_timer_stop` does nothing. -/
theorem self_start_loses_flag : ∃ tr s, (twoTimers 0).Stopped ∧ Run Step (twoTimers 0) tr s ∧
      true ∈ s.list ∧ (s.timer true).activated = false ∧
      (s.rtTimerStop true).1 = .error ∧ true ∈ (s.rtTimerStop true).2.list := by
  have hrun := machine.run_steps (twoTimers 0) [.start true, .tick 1, .fire true [.start true]]
  refine ⟨_, _, twoTimers_stopped 0, hrun, ?_, ?_, ?_, ?_⟩ <;> decide +kernel

end Timers
end RtThread
