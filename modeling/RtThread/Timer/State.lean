import RtThread.Kernel.State

/-!
# Timers

The hard timers of `timer.c`: `rt_timer_init`, `rt_timer_start`, `rt_timer_stop`, `rt_timer_control`
and the rounds of `rt_timer_check`. `RT_TIMER_SKIP_LIST_LEVEL` is 1, so `rt_timer_list` is one list,
of its timers in the order of `next`. `RT_USING_TIMER_SOFT` is off. Timers are of an arbitrary type
`τ`. A timer that is not linked points to itself, so that `rt_list_remove` has no effect on it.
-/

namespace RtThread
open Function (update)

/-- `RT_TICK_MAX / 2` (`rtdef.h:91`). -/
def rtTickHalf : BitVec 32 := 0x7fffffff

/-- `RT_TIMER_FLAG_ACTIVATED` and `RT_TIMER_FLAG_PERIODIC` (`rtdef.h:410-412`). -/
def rtTimerFlagActivated : BitVec 8 := 1

@[inherit_doc rtTimerFlagActivated]
def rtTimerFlagPeriodic : BitVec 8 := 2

/-- The fields of `struct rt_timer` (`rtdef.h:434-446`) but for the timeout function, which is given
with the round of `rt_timer_check` that calls it. -/
structure Timer where
  flag : BitVec 8
  initTick : BitVec 32
  timeoutTick : BitVec 32

namespace Timer

variable (t : Timer)

/-- `timer->parent.flag & RT_TIMER_FLAG_ACTIVATED`. -/
def activated : Bool := t.flag &&& rtTimerFlagActivated ≠ 0

/-- `timer->parent.flag & RT_TIMER_FLAG_PERIODIC`. -/
def periodic : Bool := t.flag &&& rtTimerFlagPeriodic ≠ 0

/-- `timer->parent.flag &= ~RT_TIMER_FLAG_ACTIVATED`. -/
def deactivate : Timer := { t with flag := t.flag &&& ~~~rtTimerFlagActivated }

/-- `timer->parent.flag |= RT_TIMER_FLAG_ACTIVATED`. -/
def activate : Timer := { t with flag := t.flag ||| rtTimerFlagActivated }

end Timer

/-- The commands of `rt_timer_control`, with what `arg` points to. -/
inductive TimerCtrl
  | setTime (time : BitVec 32)
  | getTime
  | setOneshot
  | setPeriodic
  /-- a command that is not known -/
  | other

/-- All timers, `rt_timer_list`, and `rt_tick`. -/
structure Timers (τ : Type*) where
  timer : τ → Timer
  list : List τ
  tick : BitVec 32

section Insert
variable {τ : Type*} (timeoutTick : τ → BitVec 32) (t : τ)

/-- The loop of `rt_timer_start` (`timer.c:341-368`), and the insertion behind the node at which it
stops. -/
def insertTimer : List τ → List τ
  | [] => [t]
  | u :: us =>
    -- behind the timers that timeout at the same time
    if timeoutTick u - timeoutTick t = 0 then u :: insertTimer us
    else if timeoutTick u - timeoutTick t < rtTickHalf then t :: u :: us
    else u :: insertTimer us

theorem insertTimer_perm (us : List τ) : (insertTimer timeoutTick t us).Perm (t :: us) := by
  induction us with
  | nil => exact .refl _
  | cons u us ih =>
    have hbehind := (ih.cons u).trans (.swap t u us)
    rw [insertTimer]
    split
    · exact hbehind
    · split
      · exact .refl _
      · exact hbehind

end Insert

namespace Timers
variable {τ : Type*} [DecidableEq τ] (s : Timers τ) (t : τ)

@[simps -fullyApplied] def setTimer (f : Timer → Timer) : Timers τ :=
  { s with timer := update s.timer t (f (s.timer t)) }

/-- `_rt_timer_remove` (`:123-131`). -/
@[simps -fullyApplied] def remove : Timers τ := { s with list := s.list.erase t }

/-- `rt_timer_init` (`:178-192` and `81-106`), for a timer that is not linked. -/
@[simps -fullyApplied] def rtTimerInit (time : BitVec 32) (flag : BitVec 8) : Timers τ :=
  { s with timer := update s.timer t (Timer.deactivate ⟨flag, time, 0⟩) }

/-- The first section (`:306-312`). -/
def startStop : Timers τ := (s.remove t).setTimer t Timer.deactivate

/-- What is done with interrupts enabled (`:321`). -/
def startRead : Timers τ := s.setTimer t fun x => { x with timeoutTick := s.tick + x.initTick }

/-- The second section (`:324-390`). -/
def startLink : Timers τ :=
  { s with list := insertTimer (fun u => (s.timer u).timeoutTick) t s.list }.setTimer t
    Timer.activate

/-- `rt_timer_start` (`:294-409`). -/
def rtTimerStart : Timers τ := ((s.startStop t).startRead t).startLink t

/-- `rt_timer_stop` (`:419-442`). -/
def rtTimerStop : RtErr × Timers τ :=
  if (s.timer t).activated then (.eok, (s.remove t).setTimer t Timer.deactivate) else (.error, s)

/-- `rt_timer_control` (`:454-482`), and what it stores in `*arg`. -/
def rtTimerControl : TimerCtrl → Option (BitVec 32) × Timers τ
  | .getTime => (some (s.timer t).initTick, s)
  | .setTime time => (none, s.setTimer t fun x => { x with initTick := time })
  | .setOneshot =>
    (none, s.setTimer t fun x => { x with flag := x.flag &&& ~~~rtTimerFlagPeriodic })
  | .setPeriodic => (none, s.setTimer t fun x => { x with flag := x.flag ||| rtTimerFlagPeriodic })
  | .other => (none, s)

/-- The test of `rt_timer_check` (`:510`). -/
def Expired : Prop := s.tick - (s.timer t).timeoutTick < rtTickHalf

instance : Decidable (s.Expired t) := inferInstanceAs (Decidable (_ < _))

/-- What `rt_timer_check` does behind the timeout function (`:525-537`). -/
def checkEnd : Timers τ :=
  if (s.timer t).periodic ∧ (s.timer t).activated then
    (s.setTimer t Timer.deactivate).rtTimerStart t
  else s.setTimer t Timer.deactivate

end Timers
end RtThread
