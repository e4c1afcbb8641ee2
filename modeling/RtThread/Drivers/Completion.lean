import RtThread.Ipc.Wait

/-!
# Completions

`completion.c`: one thread waits for a signal, and interrupts give it. `rt_completion_wait` clears
the flag when the thread runs again, whatever woke it up. A thread whose timer has expired is ready
but has not run yet; a signal that comes in this time is lost.
-/

namespace RtThread
open Kernel
open Function
open List

theorem Kernel.WaitOk.listWait_empty {τ : Type*} [DecidableEq τ] {k : Kernel τ Unit} {t : τ}
    (hk : k.WaitOk) (hs : (k.thread t).stat = .ready) (hlist : k.list (.wait ()) = [])
    (timeout : BitVec 32) :
    (k.listWait () t timeout).WaitOk ∧ (k.listWait () t timeout).list (.wait ()) = [t] ∧
      ((k.listWait () t timeout).thread t).stat = .suspend ∧
      ((k.listWait () t timeout).thread t).error = .eok := by
  have hreset := hk.setError (t := t) .eok
  have hready : ((k.setThread t fun x => { x with error := .eok }).thread t).stat = .ready := by
    simpa using hs
  rw [listWait_eq]
  refine ⟨hreset.ipcWait hready, ?_, ?_, ?_⟩
  · rw [hreset.toReadyOk.ipcWait_wait hready, if_pos rfl, setThread_list, hlist]
    rfl
  · simp [ipcWait_thread hready]
  · simp [ipcWait_thread hready]

/-- A completion, the threads, and where the calls are. -/
structure CompletionSys (τ κ : Type*) where
  k : Kernel τ Unit
  /-- `completion->flag`: `RT_COMPLETED` or `RT_UNCOMPLETED` -/
  flag : Bool
  /-- the thread is behind `rt_schedule` in `rt_completion_wait` -/
  waiting : Bool
  /-- the call of `rt_completion_done` has found `RT_UNCOMPLETED` -/
  tested : κ → Bool

/-- The steps of a run. The calls of `rt_completion_done` are of the type `κ`. -/
inductive CompletionOp (τ κ : Type*)
  /-- `rt_completion_wait(completion, timeout)` -/
  | wait (timeout : BitVec 32)
  /-- the thread runs again, behind `rt_schedule` -/
  | wakeup
  /-- the first lines of `rt_completion_done`, in front of `rt_hw_interrupt_disable` -/
  | test (i : κ)
  /-- the rest of `rt_completion_done` -/
  | done (i : κ)
  /-- the timer of `u` expires -/
  | timeout (u : τ)

namespace CompletionSys
variable {τ κ : Type*} [DecidableEq τ]

section Functions
variable [DecidableEq κ] (t : τ) (s : CompletionSys τ κ)

/-- `rt_completion_init` (`completion.c:32-41`). -/
def rtCompletionInit : CompletionSys τ κ :=
  { s with flag := false, k := s.k.setList (.wait ()) [] }

/-- `rt_completion_wait` (`:44-108`) of the thread `t`, up to `rt_schedule`. -/
def rtCompletionWait (timeout : BitVec 32) : Option RtErr × CompletionSys τ κ :=
  if s.flag = true then (some .eok, { s with flag := false })
  else if timeout = 0 then (some .etimeout, s)
  else (none, { s with k := s.k.listWait () t timeout, waiting := true })

/-- The end of `rt_completion_wait` (`:95-107`). -/
def rtCompletionWaitEnd : Option RtErr × CompletionSys τ κ :=
  (some (s.k.thread t).error, { s with flag := false, waiting := false })

/-- `rt_completion_done` (`:111-143`) behind its test. -/
def rtCompletionDone : CompletionSys τ κ :=
  { s with flag := true, k := s.k.rtIpcListResume () }

def Enabled : CompletionOp τ κ → Prop
  | .wait _ => (s.k.thread t).stat = .ready ∧ s.waiting = false
  | .wakeup => (s.k.thread t).stat = .ready ∧ s.waiting = true
  | .test i => s.tested i = false
  | .done i => s.tested i = true
  | .timeout u => (s.k.thread u).timerActivated = true

/-- The effect of a step, and what `rt_completion_wait` returns in it. -/
def apply : CompletionOp τ κ → Option RtErr × CompletionSys τ κ
  | .wait timeout => s.rtCompletionWait t timeout
  | .wakeup => s.rtCompletionWaitEnd t
  | .test i => (none, { s with tested := update s.tested i (!s.flag) })
  | .done i => (none, { s.rtCompletionDone with tested := update s.tested i false })
  | .timeout u => (none, { s with k := s.k.rtTimerCheck u })

end Functions

/-- The timer of the thread has expired while it waited, and it has not run since. -/
def TimedOut (t : τ) (s : CompletionSys τ κ) : Prop :=
  s.waiting = true ∧ (s.k.thread t).stat = .ready ∧ (s.k.thread t).error = .etimeout

instance (t : τ) (s : CompletionSys τ κ) : Decidable (s.TimedOut t) :=
  instDecidableAnd

/-- The three places of a thread inside `rt_completion_wait`. -/
inductive Waits (t : τ) (k : Kernel τ Unit) (flag : Bool) : Prop
  | suspended (hstat : (k.thread t).stat = .suspend) (hlist : k.list (.wait ()) = [t])
      (herror : (k.thread t).error = .eok) (hflag : flag = false)
  | timedOut (hstat : (k.thread t).stat = .ready) (hlist : k.list (.wait ()) = [])
      (herror : (k.thread t).error = .etimeout) (hflag : flag = false)
  | resumed (hstat : (k.thread t).stat = .ready) (hlist : k.list (.wait ()) = [])
      (herror : (k.thread t).error = .eok) (hflag : flag = true)

/-- The invariant of the threads and the flag. -/
structure Ok (t : τ) (s : CompletionSys τ κ) : Prop where
  k : s.k.WaitOk
  idle : s.waiting = false → s.k.list (.wait ()) = []
  waits : s.waiting = true → Waits t s.k s.flag

variable {t : τ} {s s' : CompletionSys τ κ} {e : CompletionOp τ κ × Option RtErr}

theorem Ok.rtCompletionWait (h : Ok t s) (hs : (s.k.thread t).stat = .ready)
    (hidle : s.waiting = false) (timeout : BitVec 32) : Ok t (s.rtCompletionWait t timeout).2 := by
  rw [CompletionSys.rtCompletionWait]
  split
  · refine ⟨h.k, h.idle, fun hwaiting => ?_⟩
    rw [hidle] at hwaiting
    cases hwaiting
  · rename_i hflag
    split
    · exact h
    · obtain ⟨hk, hlist, hstat, herror⟩ := h.k.listWait_empty hs (h.idle hidle) timeout
      refine ⟨hk, fun hwaiting => ?_, fun _ => ?_⟩
      · cases hwaiting
      · exact .suspended hstat hlist herror (by simpa using hflag)

omit [DecidableEq τ] in
theorem Ok.rtCompletionWaitEnd (h : Ok t s) (hs : (s.k.thread t).stat = .ready)
    (hwaiting : s.waiting = true) : Ok t (s.rtCompletionWaitEnd t).2 := by
  refine ⟨h.k, fun _ => ?_, fun hidle => ?_⟩
  · cases h.waits hwaiting with
    | suspended hstat =>
      rw [hs] at hstat
      cases hstat
    | timedOut _ hlist | resumed _ hlist => exact hlist
  · cases hidle

theorem Ok.rtCompletionDone (h : Ok t s) (hlate : ¬ s.TimedOut t) : Ok t s.rtCompletionDone := by
  have hempty : s.k.list (.wait ()) = [] → s.rtCompletionDone.k = s.k := by
    intro hlist
    rw [CompletionSys.rtCompletionDone, rtIpcListResume, hlist]
  refine ⟨h.k.rtIpcListResume, fun hidle => ?_, fun hwaiting => ?_⟩
  · rw [hempty (h.idle hidle)]
    exact h.idle hidle
  · cases h.waits hwaiting with
    | suspended hstat hlist herror =>
      have hthread := h.k.rtIpcListResume_thread hlist
      refine .resumed ?_ ?_ ?_ rfl
      · simp [CompletionSys.rtCompletionDone, hthread]
      · simp [CompletionSys.rtCompletionDone, h.k.rtIpcListResume_wait hlist]
      · simp [CompletionSys.rtCompletionDone, hthread, herror]
    | timedOut hstat _ herror => exact absurd ⟨hwaiting, hstat, herror⟩ hlate
    | resumed hstat hlist herror =>
      rw [hempty hlist]
      exact .resumed hstat hlist herror rfl

theorem Ok.timeout (h : Ok t s) {u : τ} (htimer : (s.k.thread u).timerActivated = true) :
    Ok t { s with k := s.k.rtTimerCheck u } := by
  have hsuspend := h.k.timer u htimer
  refine ⟨h.k.rtTimerCheck hsuspend, fun hidle => ?_, fun hwaiting => ?_⟩
  · simp [rtTimerCheck_wait, h.idle hidle]
  · by_cases hut : u = t
    · subst hut
      cases h.waits hwaiting with
      | suspended _ hlist _ hflag =>
        refine .timedOut ?_ ?_ ?_ hflag
        · simp [rtTimerCheck_thread]
        · simp [rtTimerCheck_wait, hlist]
        · simp [rtTimerCheck_thread]
      | timedOut hstat | resumed hstat =>
        rw [hsuspend] at hstat
        cases hstat
    · have hthread : (s.k.rtTimerCheck u).thread t = s.k.thread t := by
        rw [rtTimerCheck_thread, update_of_ne (Ne.symm hut)]
      have hother : u ∉ s.k.list (.wait ()) := by
        cases h.waits hwaiting with
        | suspended _ hlist => simpa [hlist] using hut
        | timedOut _ hlist | resumed _ hlist => simp [hlist]
      have hsame : (s.k.rtTimerCheck u).list (.wait ()) = s.k.list (.wait ()) := by
        rw [rtTimerCheck_wait, erase_of_not_mem hother]
      cases h.waits hwaiting with
      | suspended hstat hlist herror hflag =>
        exact .suspended (by rwa [hthread]) (by rwa [hsame]) (by rwa [hthread]) hflag
      | timedOut hstat hlist herror hflag =>
        exact .timedOut (by rwa [hthread]) (by rwa [hsame]) (by rwa [hthread]) hflag
      | resumed hstat hlist herror hflag =>
        exact .resumed (by rwa [hthread]) (by rwa [hsame]) (by rwa [hthread]) hflag

abbrev History (τ κ : Type*) := List (CompletionOp τ κ × Option RtErr)

/-- What the first call of `rt_completion_wait` that returns in the history returns. -/
def firstReturn (tr : History τ κ) : Option RtErr := tr.findSome? Prod.snd

/-- Each signal of the history makes the next return of `rt_completion_wait` successful, or the flag
is still set for it. -/
def Accounted (tr : History τ κ) (s : CompletionSys τ κ) : Prop :=
  ∀ i before after, tr = before ++ (.done i, none) :: after →
    firstReturn after = some .eok ∨ firstReturn after = none ∧ s.flag = true

omit [DecidableEq τ] in
/-- A step keeps the account if it does not take the flag back without success. -/
theorem Accounted.snoc {tr : History τ κ} (h : Accounted tr s)
    (hdone : ∀ i, e.1 = .done i → s'.flag = true)
    (hkeep : s.flag = true → e.2 = some .eok ∨ e.2 = none ∧ s'.flag = true) :
    Accounted (tr ++ [e]) s' := by
  intro i before after heq
  obtain rfl | ⟨rest, last, rfl⟩ := eq_nil_or_concat after
  · obtain ⟨-, he⟩ := append_inj' heq rfl
    obtain rfl : e = (.done i, none) := by simpa using he
    exact .inr ⟨rfl, hdone i rfl⟩
  · rw [concat_eq_append, ← cons_append, ← append_assoc] at heq
    obtain ⟨htr, he⟩ := append_inj' heq rfl
    obtain rfl : e = last := by simpa using he
    have hlast : firstReturn (rest.concat e) = (firstReturn rest).or e.2 := by
      simp [firstReturn, List.findSome?_append]
    rw [hlast]
    obtain heok | ⟨hnone, hflag⟩ := h i before rest htr
    · simp [heok]
    · rw [hnone]
      simpa using hkeep hflag

section Run
variable [DecidableEq κ]

def machine (t : τ) : Machine (CompletionSys τ κ) (CompletionOp τ κ) (Option RtErr) :=
  ⟨Enabled t, apply t⟩

instance (t : τ) (s : CompletionSys τ κ) (op : CompletionOp τ κ) :
    Decidable ((machine t).Enabled s op) :=
  match op with
  | .wait _ | .wakeup => instDecidableAnd
  | .test _ | .done _ | .timeout _ => decEq _ _

/-- No signal comes between the timeout of the thread and its next run. -/
def NoLateDone (t : τ) (s : CompletionSys τ κ) : CompletionOp τ κ → Prop
  | .done _ => ¬ s.TimedOut t
  | .wait _ | .wakeup | .test _ | .timeout _ => True

instance (t : τ) (s : CompletionSys τ κ) (op : CompletionOp τ κ) : Decidable (s.NoLateDone t op) :=
  match op with
  | .done _ => instDecidableNot
  | .wait _ | .wakeup | .test _ | .timeout _ => .isTrue trivial

theorem Ok.step (h : Ok t s) (hstep : (machine t).StepIf (NoLateDone t) s e s') : Ok t s' := by
  obtain ⟨op, r⟩ := e
  obtain ⟨⟨henabled, happly⟩, hlate⟩ := hstep
  obtain rfl : s' = (s.apply t op).2 := (congrArg Prod.snd happly).symm
  cases op with
  | wait timeout => exact h.rtCompletionWait henabled.1 henabled.2 timeout
  | wakeup => exact h.rtCompletionWaitEnd henabled.1 henabled.2
  | test i => exact ⟨h.k, h.idle, h.waits⟩
  | done i =>
    have hdone := h.rtCompletionDone hlate
    exact ⟨hdone.k, hdone.idle, hdone.waits⟩
  | timeout u => exact h.timeout henabled

theorem Ok.flag_step (h : Ok t s) (hstep : (machine t).Step s e s') (hflag : s.flag = true) :
    e.2 = some .eok ∨ e.2 = none ∧ s'.flag = true := by
  obtain ⟨op, r⟩ := e
  obtain ⟨henabled, happly⟩ := hstep
  obtain ⟨rfl, rfl⟩ : r = (s.apply t op).1 ∧ s' = (s.apply t op).2 := by
    change s.apply t op = (r, s') at happly
    rw [happly]
    exact ⟨rfl, rfl⟩
  cases op with
  | wait timeout =>
    left
    simp [apply, CompletionSys.rtCompletionWait, hflag]
  | wakeup =>
    left
    change some (s.k.thread t).error = some .eok
    cases h.waits henabled.2 with
    | suspended _ _ herror => rw [herror]
    | timedOut _ _ _ hclear =>
      rw [hflag] at hclear
      cases hclear
    | resumed _ _ herror => rw [herror]
  | test i => exact .inr ⟨rfl, hflag⟩
  | done i => exact .inr ⟨rfl, rfl⟩
  | timeout u => exact .inr ⟨rfl, hflag⟩

/-- A scheduler in order, and a completion for which nobody waits. -/
structure Start (s : CompletionSys τ κ) : Prop where
  k : s.k.WaitOk
  empty : s.k.list (.wait ()) = []
  waiting : s.waiting = false

omit [DecidableEq τ] [DecidableEq κ] in
theorem Start.ok (h : Start s) : Ok t s.rtCompletionInit := by
  have hsame : s.rtCompletionInit.k = s.k := by
    rw [rtCompletionInit, ← h.empty, setList, update_eq_self]
  refine ⟨by rw [hsame]; exact h.k, fun _ => by rw [hsame]; exact h.empty, fun hwaiting => ?_⟩
  rw [show s.rtCompletionInit.waiting = s.waiting from rfl, h.waiting] at hwaiting
  cases hwaiting

/-- In a run in which no signal comes between a timeout and the next run of the thread, every signal
is accounted for, and a call that times out finds the flag clear. -/
theorem accounted_of_noLateDone {s₀ : CompletionSys τ κ} {tr : History τ κ} (hstart : Start s₀)
    (hrun : Run ((machine t).StepIf (NoLateDone t)) s₀.rtCompletionInit tr s) :
    Accounted tr s ∧ ∀ e s', (machine t).Step s e s' → e.2 = some .etimeout → s.flag = false := by
  have hinv : Ok t s ∧ Accounted tr s := by
    refine hrun.invariant ⟨hstart.ok, ?_⟩ ?_
    · intro i before after heq
      simp at heq
    · intro tr s e s' ⟨hok, hacc⟩ hstep
      refine ⟨hok.step hstep, hacc.snoc (fun i hi => ?_) (hok.flag_step hstep.1)⟩
      obtain ⟨op, r⟩ := e
      obtain rfl : op = .done i := hi
      obtain rfl : s' = (s.apply t (.done i)).2 := (congrArg Prod.snd hstep.1.2).symm
      rfl
  refine ⟨hinv.2, fun e s' hstep htimeout => ?_⟩
  by_contra hflag
  rw [Bool.not_eq_false] at hflag
  obtain heok | ⟨hnone, -⟩ := hinv.1.flag_step hstep hflag
  · rw [htimeout] at heok
    cases heok
  · rw [htimeout] at hnone
    cases hnone

end Run

/-- Two threads and a completion; the calls of `rt_completion_done` are one after another. -/
def oneCompletion : CompletionSys Bool Unit where
  k := boot twoPriorities [false, true]
  flag := true
  waiting := false
  tested _ := false

theorem oneCompletion_start : oneCompletion.Start where
  k := boot_waitOk twoPriorities [false, true]
  empty := rfl
  waiting := rfl

/-- A call times out, and the next one gets the signal. -/
theorem accounted_of_noLateDone_two :
    ∃ tr s, Run ((machine true).StepIf (NoLateDone true)) oneCompletion.rtCompletionInit tr s ∧
      tr.map Prod.snd = [none, none, some .etimeout, none, none, none, some .eok] ∧
      Accounted tr s := by
  have hrun := (machine true).run_exec (NoLateDone true) oneCompletion.rtCompletionInit
    [.wait 10, .timeout true, .wakeup, .wait 10, .test (), .done (), .wakeup]
  exact ⟨_, _, hrun, by decide +kernel, (accounted_of_noLateDone oneCompletion_start hrun).1⟩

/-- The signal comes after the timer has expired and before the thread runs: the call times out and
clears the flag. -/
theorem late_done_is_lost : ∃ tr s, oneCompletion.Start ∧
      Run (machine true).Step oneCompletion.rtCompletionInit tr s ∧ ¬ Accounted tr s := by
  have hrun := (machine true).run_steps oneCompletion.rtCompletionInit
    [.wait 10, .timeout true, .test (), .done (), .wakeup]
  refine ⟨_, _, oneCompletion_start, hrun, fun hacc => ?_⟩
  have hlost := hacc () [(.wait 10, none), (.timeout true, none), (.test (), none)]
    [(.wakeup, some .etimeout)] rfl
  simp [firstReturn] at hlost

end CompletionSys
end RtThread
