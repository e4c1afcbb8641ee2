import Mathlib.Data.List.Perm.Subperm
import RtThread.Lib.Successor
import RtThread.Timer.Check

/-!
# Soft timers

`rt_soft_timer_check` walks along `rt_soft_timer_list`. It saves the next node before it removes an
expired timer and runs its timeout function, and goes on from the saved node. Timeout functions run
with the scheduler unlocked and may start and stop soft timers, and ticks may come while they run.
`Timers` stands for the soft timers here. A node that is not linked leads to itself
(`rt_list_remove`, `rt_list_init`).
-/

namespace RtThread
open Timers
open List

/-- What happens while a timeout function runs. -/
inductive CallbackStep (τ : Type*)
  | call (c : TimerCall τ)
  | tick
  deriving DecidableEq

/-- `rt_soft_timer_check` at the head of its loop: `n` is the node it has come to, `none` if that is
the header of the list. -/
structure SoftCheck (τ : Type*) where
  timers : Timers τ
  n : Option τ
  currentTick : BitVec 32

namespace Timers
variable {τ : Type*} [DecidableEq τ]

/-- `n->next` for the node of the timer `t`. -/
def nextNode (s : Timers τ) (t : τ) : Option τ :=
  if t ∈ s.list then (s.list.dropWhile (· ≠ t)).tail.head? else some t

def callbackStep (s : Timers τ) : CallbackStep τ → Timers τ
  | .call c => s.call c
  | .tick => s.nextTick

end Timers

namespace SoftCheck
variable {τ : Type*} [DecidableEq τ]
variable (c : SoftCheck τ)

/-- The node that `rt_soft_timer_check` has come to is taken for a timer (`timer.c:579`). -/
def Visits (t : τ) : Prop := c.n = some t

/-- The timeout function of the timer is called (`:585`). -/
def Invokes (t : τ) : Prop :=
  c.Visits t ∧ c.currentTick - (c.timers.timer t).timeoutTick < rtTickHalf

instance (c : SoftCheck τ) (t : τ) : Decidable (c.Visits t) := decEq _ _

instance (c : SoftCheck τ) (t : τ) : Decidable (c.Invokes t) := instDecidableAnd

/-- A round of the loop of `rt_soft_timer_check` (`:576-622`), with what happens while the
timeout function runs; `none` if the loop ends. -/
def round (callback : List (CallbackStep τ)) : Option (SoftCheck τ) :=
  match c.n with
  | none => none
  | some t =>
    if c.currentTick - (c.timers.timer t).timeoutTick < rtTickHalf then
      let n := c.timers.nextNode t
      let s := callback.foldl callbackStep (c.timers.remove t)
      some ⟨s.checkEnd t, n, s.tick⟩
    else none

/-- `rt_soft_timer_check` after `k` rounds, the `i`-th timeout function it calls doing
`callbacks i`; `none` once the loop has ended. -/
def rounds (callbacks : Nat → List (CallbackStep τ)) (s : Timers τ) : Nat → Option (SoftCheck τ)
  | 0 => some ⟨s, s.list.head?, s.tick⟩
  | k + 1 => (rounds callbacks s k).bind (·.round (callbacks k))

end SoftCheck

namespace Timers
variable {τ : Type*} [DecidableEq τ] {s s₀ : Timers τ} {t u n : τ}
  {callback : List (CallbackStep τ)}
  {m e : Nat} {old : τ → Prop}

section
variable (hs : s.list.Nodup)
include hs

theorem nodup_callbackStep (a : CallbackStep τ) : (s.callbackStep a).list.Nodup := by
  cases a with
  | call c =>
    cases c with
    | start v => exact nodup_rtTimerStart hs
    | stop v => exact nodup_rtTimerStop hs
  | tick => exact hs

theorem nodup_callback (callback : List (CallbackStep τ)) :
    (callback.foldl callbackStep s).list.Nodup := by
  induction callback generalizing s with
  | nil => exact hs
  | cons a callback ih => exact ih (nodup_callbackStep hs a)

theorem nodup_checkEnd : (s.checkEnd t).list.Nodup := by
  rw [checkEnd]
  split
  · exact nodup_rtTimerStart hs
  · exact hs

end

theorem tick_checkEnd : (s.checkEnd t).tick = s.tick := by
  rw [checkEnd]
  split <;> rfl

/-- The timer is started for at least `m` ticks. -/
def Lasts (s : Timers τ) (m : Nat) (t : τ) : Prop :=
  m ≤ (s.timer t).initTick.toNat ∧ (s.timer t).initTick < rtTickHalf

/-- The timers of `s`, which were those of `s₀` when the loop began, `e` ticks ago: those that are
linked are `old` ones, or have been started with at least `m` ticks before them. -/
structure Counted (m : Nat) (s₀ : Timers τ) (e : Nat) (old : τ → Prop) (s : Timers τ) : Prop where
  nodup : s.list.Nodup
  initTick : ∀ t, (s.timer t).initTick = (s₀.timer t).initTick
  periodic : ∀ t, (s.timer t).periodic = (s₀.timer t).periodic
  started : ∀ t ∈ s.list, old t ∨ m ≤ s.left t + e ∧ s.left t < rtTickHalf.toNat

namespace Counted

section
variable (h : Counted m s₀ e old s)
include h

theorem remove : Counted m s₀ e (fun u => old u ∧ u ≠ t) (s.remove t) := by
  refine ⟨h.nodup.erase t, h.initTick, h.periodic, fun u hu => ?_⟩
  obtain ⟨hut, hu⟩ := h.nodup.mem_erase_iff.mp hu
  exact (h.started u hu).imp_left fun hold => ⟨hold, hut⟩

theorem deactivate : Counted m s₀ e old (s.setTimer t Timer.deactivate) := by
  refine ⟨h.nodup, fun u => initTick_setTimer_deactivate.trans (h.initTick u), fun u => ?_,
    fun u hu => ?_⟩
  · rw [← h.periodic u]
    by_cases hu : u = t <;> simp [hu]
  · rw [left_setTimer_deactivate]
    exact h.started u hu

theorem rtTimerStart (hlasts : s₀.Lasts m t) : Counted m s₀ e old (s.rtTimerStart t) := by
  refine ⟨nodup_rtTimerStart h.nodup, fun u => initTick_rtTimerStart.trans (h.initTick u),
    fun u => periodic_rtTimerStart.trans (h.periodic u), fun u hu => ?_⟩
  by_cases hut : u = t
  · subst hut
    rw [left_rtTimerStart_self, h.initTick]
    exact .inr ⟨hlasts.1.trans (Nat.le_add_right _ _), hlasts.2⟩
  · rw [left_rtTimerStart_of_ne hut]
    exact h.started u (((mem_rtTimerStart h.nodup).mp hu).resolve_left hut)

theorem rtTimerStop : Counted m s₀ e old (s.rtTimerStop t).2 := by
  rw [Timers.rtTimerStop]
  split
  · have hremoved := (h.remove (t := t)).deactivate (t := t)
    exact ⟨hremoved.nodup, hremoved.initTick, hremoved.periodic, fun u hu =>
      (hremoved.started u hu).imp_left And.left⟩
  · exact h

end

omit [DecidableEq τ] in
theorem nextTick (h : Counted m s₀ e old s) (he : e < m) : Counted m s₀ (e + 1) old s.nextTick := by
  refine ⟨h.nodup, h.initTick, h.periodic, fun u hu => (h.started u hu).imp_right fun hleft => ?_⟩
  rw [left_nextTick (by omega)]
  omega

theorem steps (h : Counted m s₀ e old s) (hstart : ∀ t, .call (.start t) ∈ callback → s₀.Lasts m t)
    (he : e + callback.count .tick < m) :
    Counted m s₀ (e + callback.count .tick) old (callback.foldl callbackStep s) := by
  induction callback generalizing s e with
  | nil => exact h
  | cons a callback ih =>
    have hrest : ∀ t, .call (.start t) ∈ callback → s₀.Lasts m t :=
      fun t ht => hstart t (mem_cons_of_mem a ht)
    cases a with
    | call c =>
      rw [count_cons_of_ne (by simp)] at he ⊢
      cases c with
      | start v => exact ih (h.rtTimerStart (hstart v mem_cons_self)) hrest he
      | stop v => exact ih h.rtTimerStop hrest he
    | tick =>
      rw [count_cons_self] at he ⊢
      have hnext := ih (h.nextTick (by omega)) hrest (by omega)
      rwa [Nat.add_right_comm, Nat.add_assoc] at hnext

theorem checkEnd (h : Counted m s₀ e old s)
    (hperiodic : (s₀.timer t).periodic = true → s₀.Lasts m t) :
    Counted m s₀ e old (s.checkEnd t) := by
  rw [Timers.checkEnd]
  split
  · rename_i hr
    exact h.deactivate.rtTimerStart (hperiodic ((h.periodic t).symm.trans hr.1))
  · exact h.deactivate

omit [DecidableEq τ] in
theorem old_of_expired (h : Counted m s₀ e old s) (he : e < m) (ht : t ∈ s.list)
    (hexp : s.Expired t) : old t := by
  refine (h.started t ht).resolve_right fun ⟨hle, hlt⟩ => ?_
  have hzero := (expired_iff_left hlt).mp hexp
  omega

end Counted
end Timers

namespace SoftCheck
variable {τ : Type*} [DecidableEq τ] {c c' : SoftCheck τ} {s : Timers τ} {t : τ}
  {callback : List (CallbackStep τ)} {callbacks : Nat → List (CallbackStep τ)}

theorem round_of_invokes (h : c.Invokes t) (callback : List (CallbackStep τ)) :
    c.round callback = some ⟨(callback.foldl callbackStep (c.timers.remove t)).checkEnd t,
      c.timers.nextNode t, (callback.foldl callbackStep (c.timers.remove t)).tick⟩ := by
  unfold round
  rw [show c.n = some t from h.1]
  exact if_pos h.2

theorem round_eq_some (h : c.round callback = some c') :
    ∃ t, c.Invokes t ∧ c' = ⟨(callback.foldl callbackStep (c.timers.remove t)).checkEnd t,
      c.timers.nextNode t, (callback.foldl callbackStep (c.timers.remove t)).tick⟩ := by
  unfold round at h
  cases hn : c.n with
  | none => simp [hn] at h
  | some t =>
    rw [hn] at h
    dsimp only at h
    split at h
    · rename_i hexp
      exact ⟨t, ⟨hn, hexp⟩, (Option.some.inj h).symm⟩
    · cases h

theorem rounds_invariant (hs : s.list.Nodup) {k : Nat} (hc : rounds callbacks s k = some c) :
    c.timers.list.Nodup ∧ c.currentTick = c.timers.tick := by
  induction k generalizing c with
  | zero =>
    cases hc
    exact ⟨hs, rfl⟩
  | succ k ih =>
    obtain ⟨c₀, hc₀, hround⟩ := Option.bind_eq_some_iff.mp hc
    obtain ⟨t, -, rfl⟩ := round_eq_some hround
    exact ⟨nodup_checkEnd (nodup_callback ((ih hc₀).1.erase t) _), tick_checkEnd.symm⟩

theorem expired_of_invokes (hs : s.list.Nodup) {k : Nat} (hc : rounds callbacks s k = some c)
    (h : c.Invokes t) : c.timers.Expired t := by
  rw [Expired, ← (rounds_invariant hs hc).2]
  exact h.2

/-- The timer was linked when the loop began, and the first `k` rounds do not run its timeout
function. -/
def Waiting (callbacks : Nat → List (CallbackStep τ)) (s : Timers τ) (k : Nat) (t : τ) : Prop :=
  t ∈ s.list ∧ ∀ j < k, ∀ c, rounds callbacks s j = some c → ¬ c.Invokes t

/-- The ticks that come while the first `k` timeout functions run. -/
def ticksBefore (callbacks : Nat → List (CallbackStep τ)) (k : Nat) : Nat :=
  ((List.range k).flatMap callbacks).count .tick

theorem ticksBefore_succ (callbacks : Nat → List (CallbackStep τ)) (k : Nat) :
    ticksBefore callbacks (k + 1) = ticksBefore callbacks k + (callbacks k).count .tick := by
  rw [ticksBefore, range_succ, flatMap_append, count_append, flatMap_singleton]
  rfl

/-- The timeout functions take fewer than `m` ticks together, and every timer that they start, or
that is linked and periodic, is started for at least `m` ticks. -/
structure Brief (callbacks : Nat → List (CallbackStep τ)) (s : Timers τ) (m : Nat) : Prop where
  ticks : ∀ k, ticksBefore callbacks k < m
  periodic : ∀ t ∈ s.list, (s.timer t).periodic = true → s.Lasts m t
  started : ∀ k t, .call (.start t) ∈ callbacks k → s.Lasts m t

/-- Brief timeout functions are run for waiting timers only. -/
theorem Brief.waiting {m k : Nat} (hbrief : Brief callbacks s m) (hs : s.list.Nodup)
    (hvisits : ∀ k c, rounds callbacks s k = some c → ∀ t, c.Visits t → t ∈ c.timers.list)
    (hc : rounds callbacks s k = some c) :
    Counted m s (ticksBefore callbacks k) (Waiting callbacks s k) c.timers ∧
      ∀ t, c.Invokes t → Waiting callbacks s k t := by
  have hold : ∀ {k c}, rounds callbacks s k = some c →
      Counted m s (ticksBefore callbacks k) (Waiting callbacks s k) c.timers →
      ∀ t, c.Invokes t → Waiting callbacks s k t := fun {k c} hc h t ht =>
    h.old_of_expired (hbrief.ticks k) (hvisits k c hc t ht.1) (expired_of_invokes hs hc ht)
  suffices h : Counted m s (ticksBefore callbacks k) (Waiting callbacks s k) c.timers from
    ⟨h, hold hc h⟩
  induction k generalizing c with
  | zero =>
    cases hc
    exact ⟨hs, fun _ => rfl, fun _ => rfl, fun t ht => .inl ⟨ht, nofun⟩⟩
  | succ k ih =>
    obtain ⟨c₀, hc₀, hround⟩ := Option.bind_eq_some_iff.mp hc
    obtain ⟨t, hinvokes, rfl⟩ := round_eq_some hround
    have hticks := hbrief.ticks (k + 1)
    rw [ticksBefore_succ] at hticks ⊢
    have hlinked := (hold hc₀ (ih hc₀) t hinvokes).1
    have hcounted := (((ih hc₀).remove (t := t)).steps (hbrief.started k) hticks).checkEnd
      (hbrief.periodic t hlinked)
    refine ⟨hcounted.nodup, hcounted.initTick, hcounted.periodic, fun u hu =>
      (hcounted.started u hu).imp_left fun ⟨hwaiting, hne⟩ => ⟨hwaiting.1, fun j hj c hc' hu => ?_⟩⟩
    rcases Nat.lt_succ_iff_lt_or_eq.mp hj with hj | rfl
    · exact hwaiting.2 j hj c hc' hu
    · cases hc₀.symm.trans hc'
      exact hne (Option.some.inj (hu.1.symm.trans hinvokes.1))

/-- The loop is at a timer that has expired, but was stopped. -/
structure Spins (c : SoftCheck τ) (t : τ) : Prop where
  visits : c.Visits t
  unlinked : t ∉ c.timers.list
  tick : c.currentTick = c.timers.tick
  expired : c.timers.Expired t
  inactive : (c.timers.timer t).activated = false

omit [DecidableEq τ] in
theorem Spins.invokes (h : c.Spins t) : c.Invokes t := by
  refine ⟨h.visits, ?_⟩
  rw [h.tick]
  exact h.expired

theorem Spins.round (h : c.Spins t) : ∃ c', c.round [] = some c' ∧ c'.Spins t := by
  have hlist : (c.timers.remove t).list = c.timers.list := erase_of_not_mem h.unlinked
  have hend : (c.timers.remove t).checkEnd t = (c.timers.remove t).setTimer t Timer.deactivate := by
    rw [checkEnd, if_neg]
    rw [remove_timer, h.inactive]
    simp
  have hround : c.round [] = some ⟨(c.timers.remove t).setTimer t Timer.deactivate, some t,
      c.timers.tick⟩ := by
    rw [round_of_invokes h.invokes, foldl_nil, hend, nextNode, if_neg h.unlinked]
    rfl
  refine ⟨_, hround, rfl, ?_, rfl, ?_, ?_⟩
  · rw [setTimer_list, hlist]
    exact h.unlinked
  · simpa [Expired, Timer.deactivate] using h.expired
  · simp

end SoftCheck
end RtThread
