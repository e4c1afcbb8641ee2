import Mathlib.Data.Fintype.Basic
import RtThread.Lib.Run
import RtThread.Timer.Order

/-!
# When timers fire

Threads that call `rt_timer_start`, `rt_timer_stop` and `rt_timer_control`, and the tick interrupt,
which may come between any two sections of them. A timer fires at its deadline, if that does not
come between the moment when `rt_timer_start` reads `rt_tick` and the one when it links the timer.
-/

namespace RtThread
open Function (update)
open Timers
open List

inductive TimerPc (τ : Type*)
  | idle
  /-- in `rt_timer_start`, behind its first section -/
  | starting (t : τ)
  /-- in `rt_timer_start`, with the deadline set -/
  | linking (t : τ)
  /-- in `rt_timer_stop`, behind the test of the flag -/
  | stopping (t : τ)
  /-- in `rt_timer_stop`, behind its section -/
  | clearing (t : τ)
  deriving DecidableEq

/-- What is done without an interrupt, by the thread `c` with the timer `t`. -/
inductive TimerSection (τ κ : Type*)
  | startStop (c : κ) (t : τ)
  | startRead (c : κ) (t : τ)
  | startLink (c : κ) (t : τ)
  | stopTest (c : κ) (t : τ)
  | stopRemove (c : κ) (t : τ)
  | stopClear (c : κ) (t : τ)
  | control (t : τ) (cmd : TimerCtrl)
  | tick

inductive TimerResult (τ : Type*)
  /-- the call goes on -/
  | goesOn
  | returns (err : RtErr)
  | returnsTime (err : RtErr) (stored : Option (BitVec 32))
  /-- the timers that fired, and those of them that were started again -/
  | check (fired restarted : List τ)
  deriving DecidableEq

structure TimerSys (τ κ : Type*) where
  timers : Timers τ
  pc : κ → TimerPc τ

def fires {τ κ : Type*} : TimerSection τ κ × TimerResult τ → List τ
  | (_, .check fired _) => fired
  | (_, .goesOn) | (_, .returns _) | (_, .returnsTime _ _) => []

def starts {τ κ : Type*} : TimerSection τ κ × TimerResult τ → List τ
  | (_, .check _ restarted) => restarted
  | (.startLink _ t, _) => [t]
  | _ => []

/-- The step takes the timer out of the list. -/
def Unlinks {τ κ : Type*} (t : τ) : TimerSection τ κ → Prop
  | .startStop _ u | .stopRemove _ u => u = t
  | .startRead _ _ | .startLink _ _ | .stopTest _ _ | .stopClear _ _ | .control _ _ | .tick => False

namespace TimerSys
variable {τ κ : Type*} [DecidableEq τ]

section
variable [DecidableEq κ]

def Enabled (s : TimerSys τ κ) : TimerSection τ κ → Prop
  | .startStop c _ | .stopTest c _ => s.pc c = .idle
  | .startRead c t => s.pc c = .starting t
  | .startLink c t => s.pc c = .linking t
  | .stopRemove c t => s.pc c = .stopping t
  | .stopClear c t => s.pc c = .clearing t
  | .control _ (.setTime time) => InRange time
  | .control _ .getTime | .control _ .setOneshot | .control _ .setPeriodic
  | .control _ .other => True
  | .tick => True

def apply (s : TimerSys τ κ) : TimerSection τ κ → TimerResult τ × TimerSys τ κ
  | .startStop c t => (.goesOn, ⟨s.timers.startStop t, update s.pc c (.starting t)⟩)
  | .startRead c t => (.goesOn, ⟨s.timers.startRead t, update s.pc c (.linking t)⟩)
  | .startLink c t => (.returns .eok, ⟨s.timers.startLink t, update s.pc c .idle⟩)
  | .stopTest c t =>
    if (s.timers.timer t).activated then (.goesOn, { s with pc := update s.pc c (.stopping t) })
    else (.returns .error, s)
  | .stopRemove c t => (.goesOn, ⟨s.timers.remove t, update s.pc c (.clearing t)⟩)
  | .stopClear c t =>
    (.returns .eok, ⟨s.timers.setTimer t Timer.deactivate, update s.pc c .idle⟩)
  | .control t cmd =>
    let r := s.timers.rtTimerControl t cmd
    (.returnsTime .eok r.1, { s with timers := r.2 })
  | .tick =>
    let r := s.timers.rtTickIncrease
    (.check r.1.1 r.1.2, { s with timers := r.2 })

def machine : Machine (TimerSys τ κ) (TimerSection τ κ) (TimerResult τ) := ⟨Enabled, apply⟩

def Step (s : TimerSys τ κ) (e : TimerSection τ κ × TimerResult τ) (s' : TimerSys τ κ) : Prop :=
  machine.Step s e s'

def StepIf (P : TimerSys τ κ → TimerSection τ κ → Prop) (s : TimerSys τ κ)
    (e : TimerSection τ κ × TimerResult τ) (s' : TimerSys τ κ) : Prop :=
  machine.StepIf P s e s'

instance (s : TimerSys τ κ) (op : TimerSection τ κ) : Decidable (machine.Enabled s op) :=
  match op with
  | .startStop .. | .stopTest .. | .startRead .. | .startLink .. | .stopRemove ..
  | .stopClear .. => decEq _ _
  | .control _ (.setTime time) => inferInstanceAs (Decidable (Timers.InRange time))
  | .control _ .getTime | .control _ .setOneshot | .control _ .setPeriodic | .control _ .other
  | .tick => .isTrue trivial

end

/-- No tick is the deadline of a timer that is being started and is not linked yet, and a timer is
not started by two threads at once. -/
def TickSafe (s : TimerSys τ κ) : TimerSection τ κ → Prop
  | .startRead _ t | .startLink _ t => t ∉ s.timers.list
  | .tick => ∀ c t, s.pc c = .linking t → (s.timers.timer t).timeoutTick ≠ s.timers.tick + 1
  | .startStop _ _ | .stopTest _ _ | .stopRemove _ _ | .stopClear _ _ | .control _ _ => True

/-- The timers are in order, also those that are about to be linked. -/
structure Ok (s : TimerSys τ κ) (started : List τ) : Prop where
  sorted : s.timers.Sorted started 1
  linking : ∀ c t, s.pc c = .linking t → 1 ≤ s.timers.left t ∧ s.timers.left t < rtTickHalf.toNat

structure StepSpec (s : TimerSys τ κ) (started : List τ) (e : TimerSection τ κ × TimerResult τ)
    (s' : TimerSys τ κ) : Prop where
  ok : s'.Ok (started ++ starts e)
  fires_iff : ∀ t, t ∈ fires e ↔
    e.1 = .tick ∧ t ∈ s.timers.list ∧ (s.timers.timer t).timeoutTick = s.timers.tick + 1
  nodup : (fires e).Nodup
  linked : ∀ t ∈ s'.timers.list, t ∈ starts e ∨ t ∈ s.timers.list ∧ t ∉ fires e
  kept : ∀ t ∈ s.timers.list, t ∉ fires e → ¬ Unlinks t e.1 →
    t ∈ s'.timers.list ∧ (s'.timers.timer t).timeoutTick = (s.timers.timer t).timeoutTick

variable {s s' : TimerSys τ κ} {started : List τ} {e : TimerSection τ κ × TimerResult τ}

theorem StepSpec.quiet (hok : s'.Ok started) (hfires : fires e = []) (hstarts : starts e = [])
    (htick : e.1 ≠ .tick) (hsub : s'.timers.list ⊆ s.timers.list)
    (hkept : ∀ t ∈ s.timers.list, ¬ Unlinks t e.1 →
      t ∈ s'.timers.list ∧ (s'.timers.timer t).timeoutTick = (s.timers.timer t).timeoutTick) :
    StepSpec s started e s' where
  ok := by rwa [hstarts, append_nil]
  fires_iff t := by simp [hfires, htick]
  nodup := by simp [hfires]
  linked t ht := by simpa [hfires] using .inr (hsub ht)
  kept t ht _ := hkept t ht

/-- `rt_timer_control` leaves the deadlines alone: a new time counts from the next start on. -/
theorem timeoutTick_rtTimerControl {timers : Timers τ} {t u : τ} (cmd : TimerCtrl) :
    ((timers.rtTimerControl t cmd).2.timer u).timeoutTick = (timers.timer u).timeoutTick := by
  by_cases hut : u = t <;> cases cmd <;> simp [rtTimerControl, hut]

theorem inRange_rtTimerControl {t u : τ} {cmd : TimerCtrl} (h : s.Ok started)
    (henabled : s.Enabled (.control t cmd)) :
    InRange ((s.timers.rtTimerControl t cmd).2.timer u).initTick := by
  have hu := h.sorted.init u
  by_cases hut : u = t
  · subst hut
    cases cmd with
    | setTime time =>
      have htime : InRange time := henabled
      simpa [rtTimerControl] using htime
    | getTime => exact hu
    | setOneshot | setPeriodic => simpa [rtTimerControl] using hu
    | other => exact hu
  · cases cmd <;> simpa [rtTimerControl, hut] using hu

/-- A timer has fired at most as often as it was started, and a linked one can still fire. -/
def Counted (tr : List (TimerSection τ κ × TimerResult τ)) (s : TimerSys τ κ) (t : τ) : Prop :=
  (tr.flatMap fires).count t + (if t ∈ s.timers.list then 1 else 0) ≤ (tr.flatMap starts).count t

theorem Counted.step {tr : List (TimerSection τ κ × TimerResult τ)} {t : τ}
    (h : Counted tr s t) (hspec : StepSpec s started e s') : Counted (tr ++ [e]) s' t := by
  rw [Counted] at h ⊢
  simp only [flatMap_append, flatMap_singleton, count_append]
  by_cases hfire : t ∈ fires e
  · have hlinked : t ∈ s.timers.list := ((hspec.fires_iff t).mp hfire).2.1
    have honce : (fires e).count t = 1 := count_eq_one_of_mem hspec.nodup hfire
    rw [if_pos hlinked] at h
    by_cases hagain : t ∈ s'.timers.list
    · have hstart := (hspec.linked t hagain).resolve_right fun hout => hout.2 hfire
      have hpos := count_pos_iff.mpr hstart
      rw [if_pos hagain]
      omega
    · rw [if_neg hagain]
      omega
  · rw [count_eq_zero_of_not_mem hfire]
    by_cases hlinked : t ∈ s'.timers.list
    · rw [if_pos hlinked]
      rcases hspec.linked t hlinked with hstart | ⟨hbefore, -⟩
      · have hpos := count_pos_iff.mpr hstart
        split at h <;> omega
      · rw [if_pos hbefore] at h
        omega
    · rw [if_neg hlinked]
      split at h <;> omega

/-- No timer is started, and no call is under way. -/
structure Start (s : TimerSys τ κ) : Prop where
  init : ∀ t, InRange (s.timers.timer t).initTick
  list : s.timers.list = []
  idle : ∀ c, s.pc c = .idle

theorem Start.ok (h : s.Start) : s.Ok [] where
  sorted := by
    refine ⟨h.init, ?_, ?_, ?_⟩ <;> simp [h.list]
  linking c t hlinking := by simp [h.idle] at hlinking

theorem Start.counted (h : s.Start) (t : τ) : Counted [] s t := by simp [Counted, h.list]

variable [DecidableEq κ]

section
variable (h : s.Ok started)
include h

theorem linking_of_goesOn {timers : Timers τ} {c : κ} {pc : TimerPc τ}
    (hpc : ∀ t, pc ≠ .linking t) (hleft : ∀ t, timers.left t = s.timers.left t) (c' : κ) (t : τ)
    (hlinking : update s.pc c pc c' = .linking t) :
    1 ≤ timers.left t ∧ timers.left t < rtTickHalf.toNat := by
  have hne : c' ≠ c := by
    rintro rfl
    exact hpc t (by simpa using hlinking)
  rw [hleft t]
  exact h.linking c' t (by simpa [hne] using hlinking)

variable (c : κ) (t : τ)

theorem spec_startStop :
    StepSpec s started (.startStop c t, .goesOn) (s.apply (.startStop c t)).2 := by
  refine .quiet ⟨h.sorted.startStop, linking_of_goesOn h (by simp) fun u => ?_⟩ rfl rfl (by simp)
    erase_subset fun u hu hne => ?_
  · exact left_setTimer_deactivate
  · have hut : u ≠ t := fun heq => hne heq.symm
    refine ⟨(mem_erase_of_ne hut).mpr hu, ?_⟩
    simp [apply, startStop, hut]

theorem spec_startRead {t : τ} (ht : t ∉ s.timers.list) :
    StepSpec s started (.startRead c t, .goesOn) (s.apply (.startRead c t)).2 := by
  have hread : ∀ u, u ≠ t → (s.timers.startRead t).timer u = s.timers.timer u := by
    intro u hut
    simp [startRead, hut]
  refine .quiet ⟨h.sorted.startRead ht, fun c' u hlinking => ?_⟩ rfl rfl (by simp)
    (List.Subset.refl _) fun u hu _ => ⟨hu, ?_⟩
  · by_cases hut : u = t
    · rw [hut]
      change 1 ≤ (s.timers.startRead t).left t ∧ (s.timers.startRead t).left t < _
      rw [left_startRead_self]
      exact h.sorted.init t
    · change 1 ≤ (s.timers.startRead t).left u ∧ (s.timers.startRead t).left u < _
      rw [left_startRead_of_ne hut]
      have hne : c' ≠ c := by
        rintro rfl
        exact hut (by simpa [apply, eq_comm] using hlinking)
      exact h.linking c' u (by simpa [apply, hne] using hlinking)
  · have hut : u ≠ t := fun heq => ht (heq ▸ hu)
    exact congrArg Timer.timeoutTick (hread u hut)

theorem spec_startLink {c : κ} {t : τ} (hpc : s.pc c = .linking t) (ht : t ∉ s.timers.list) :
    StepSpec s started (.startLink c t, .returns .eok) (s.apply (.startLink c t)).2 where
  ok := ⟨h.sorted.startLink ht (h.linking c t hpc), linking_of_goesOn h (by simp) fun _ =>
    left_startLink⟩
  fires_iff u := by simp [fires]
  nodup := by simp [fires]
  linked u hu := by
    simpa [starts, fires, apply, startLink_perm.mem_iff] using hu
  kept u hu _ _ := by
    have hut : u ≠ t := fun heq => ht (heq ▸ hu)
    refine ⟨startLink_perm.mem_iff.mpr (by simp [hu]), ?_⟩
    simp [apply, startLink, hut]

theorem spec_stopTest :
    StepSpec s started (.stopTest c t, (s.apply (.stopTest c t)).1)
      (s.apply (.stopTest c t)).2 := by
  rw [apply]
  split
  · exact .quiet ⟨h.sorted, linking_of_goesOn h (by simp) fun _ => rfl⟩ rfl rfl (by simp)
      (List.Subset.refl _) fun u hu _ => ⟨hu, rfl⟩
  · exact .quiet h rfl rfl (by simp) (List.Subset.refl _) fun u hu _ => ⟨hu, rfl⟩

theorem spec_stopRemove :
    StepSpec s started (.stopRemove c t, .goesOn) (s.apply (.stopRemove c t)).2 := by
  refine .quiet ⟨h.sorted.remove, linking_of_goesOn h (by simp) fun _ => rfl⟩ rfl rfl (by simp)
    erase_subset fun u hu hne => ?_
  have hut : u ≠ t := fun heq => hne heq.symm
  exact ⟨(mem_erase_of_ne hut).mpr hu, rfl⟩

theorem spec_stopClear :
    StepSpec s started (.stopClear c t, .returns .eok) (s.apply (.stopClear c t)).2 := by
  refine .quiet ⟨h.sorted.deactivate, linking_of_goesOn h (by simp) fun u => ?_⟩ rfl rfl (by simp)
    (List.Subset.refl _) fun u hu _ => ⟨hu, ?_⟩
  · exact left_setTimer_deactivate
  · by_cases hut : u = t
    · simp [apply, hut, Timer.deactivate]
    · simp [apply, hut]

end

theorem spec_control (h : s.Ok started) {t : τ} {cmd : TimerCtrl}
    (henabled : s.Enabled (.control t cmd)) :
    StepSpec s started (.control t cmd, (s.apply (.control t cmd)).1)
      (s.apply (.control t cmd)).2 := by
  have hlist : (s.timers.rtTimerControl t cmd).2.list = s.timers.list := by cases cmd <;> rfl
  have htick : (s.timers.rtTimerControl t cmd).2.tick = s.timers.tick := by cases cmd <;> rfl
  have hleft : ∀ u, (s.timers.rtTimerControl t cmd).2.left u = s.timers.left u := by
    intro u
    rw [left, left, timeoutTick_rtTimerControl, htick]
  refine .quiet ⟨?_, fun c u hlinking => ?_⟩ rfl rfl (by simp) ?_ fun u hu _ => ⟨?_, ?_⟩
  · refine h.sorted.sublist (hlist ▸ .refl _) (fun u => ?_) fun u _ => hleft u
    exact inRange_rtTimerControl h henabled
  · change 1 ≤ (s.timers.rtTimerControl t cmd).2.left u ∧
      (s.timers.rtTimerControl t cmd).2.left u < _
    rw [hleft u]
    exact h.linking c u hlinking
  · exact hlist ▸ List.Subset.refl _
  · exact hlist ▸ hu
  · exact timeoutTick_rtTimerControl cmd

theorem spec_tick (h : s.Ok started) (hsafe : s.TickSafe .tick) :
    StepSpec s started (.tick, (s.apply .tick).1) (s.apply .tick).2 := by
  have hcheck := (rtTickIncrease_checked h.sorted).1
  have hfires : ∀ t, t ∈ s.timers.rtTickIncrease.1.1 ↔ _ := fun t => by
    rw [hcheck.fired, mem_due_nextTick]
  refine ⟨⟨hcheck.sorted, fun c t hlinking => ?_⟩, fun t => ?_, ?_, fun t ht => ?_,
    fun t ht hfire _ => ?_⟩
  · have hdeadline := hsafe c t hlinking
    have htimer := (hcheck.other t fun hfire => hdeadline ((hfires t).mp hfire).2).1
    have hleft : s.timers.rtTickIncrease.2.left t = s.timers.nextTick.left t := by
      rw [left, left, htimer, hcheck.tick]
    have hpos : s.timers.nextTick.left t ≠ 0 := mt left_eq_zero_iff.mp hdeadline
    obtain ⟨hahead, hhalf⟩ := h.linking c t hlinking
    change 1 ≤ s.timers.rtTickIncrease.2.left t ∧ s.timers.rtTickIncrease.2.left t < _
    rw [left_nextTick hahead] at hpos hleft
    omega
  · exact (hfires t).trans (by simp)
  · change s.timers.rtTickIncrease.1.1.Nodup
    rw [hcheck.fired]
    exact h.sorted.nodup.filter _
  · by_cases hfire : t ∈ s.timers.rtTickIncrease.1.1
    · exact .inl ((hcheck.again t hfire).mp ht)
    · exact .inr ⟨(hcheck.other t hfire).2.mp ht, hfire⟩
  · obtain ⟨htimer, hmem⟩ := hcheck.other t hfire
    exact ⟨hmem.mpr ht, congrArg Timer.timeoutTick htimer⟩

theorem spec_of_step (h : s.Ok started) (hstep : StepIf TickSafe s e s') :
    StepSpec s started e s' := by
  obtain ⟨op, r⟩ := e
  obtain ⟨⟨henabled, happly⟩, hsafe⟩ := hstep
  obtain rfl : s' = (s.apply op).2 := (congrArg Prod.snd happly).symm
  obtain rfl : r = (s.apply op).1 := (congrArg Prod.fst happly).symm
  cases op with
  | startStop c t => exact spec_startStop h c t
  | startRead c t => exact spec_startRead h c hsafe
  | startLink c t => exact spec_startLink h henabled hsafe
  | stopTest c t => exact spec_stopTest h c t
  | stopRemove c t => exact spec_stopRemove h c t
  | stopClear c t => exact spec_stopClear h c t
  | control t cmd => exact spec_control h henabled
  | tick => exact spec_tick h hsafe

/-- In a run in which no deadline comes between the moment when `rt_timer_start` reads `rt_tick` and
the one when it links the timer, the linked timers are ordered by the ticks that are left, with
equal deadlines in the order in which they were started. A timer fires iff it is linked and the tick
that is reached is its deadline, once for each start, and stays linked until then or until it is
stopped. The loop of `rt_timer_check` comes to its end. -/
theorem fires_on_time_of_safe_run {s₀ : TimerSys τ κ}
    {tr : List (TimerSection τ κ × TimerResult τ)} (hstart : Start s₀)
    (hrun : Run (StepIf TickSafe) s₀ tr s) :
    s.timers.list.Pairwise (s.timers.Before (tr.flatMap starts)) ∧
    (∀ t, (tr.flatMap fires).count t + (if t ∈ s.timers.list then 1 else 0) ≤
      (tr.flatMap starts).count t) ∧
    (∀ n ≥ s.timers.list.length, checkLoop n s.timers.nextTick = s.timers.rtTickIncrease) ∧
    ∀ e s', StepIf TickSafe s e s' → (∀ t, (fires e).count t ≤ 1) ∧
      (∀ t, t ∈ fires e ↔ e.1 = .tick ∧ t ∈ s.timers.list ∧
        (s.timers.timer t).timeoutTick = s.timers.tick + 1) ∧
      ∀ t ∈ s.timers.list, t ∉ fires e → ¬ Unlinks t e.1 →
        t ∈ s'.timers.list ∧ (s'.timers.timer t).timeoutTick = (s.timers.timer t).timeoutTick := by
  have hall : s.Ok (tr.flatMap starts) ∧ ∀ t, Counted tr s t := by
    refine hrun.invariant
      ⟨hstart.ok, hstart.counted⟩ ?_
    rintro tr s e s' ⟨hok, hcount⟩ hstep
    have hspec := spec_of_step hok hstep
    refine ⟨?_, fun t => (hcount t).step hspec⟩
    simpa using hspec.ok
  obtain ⟨hok, hcount⟩ := hall
  refine ⟨hok.sorted.order, hcount, (rtTickIncrease_checked hok.sorted).2, fun e s' hstep => ?_⟩
  have hspec := spec_of_step hok hstep
  exact ⟨nodup_iff_count_le_one.mp hspec.nodup, hspec.fires_iff, hspec.kept⟩

instance [Fintype κ] [Fintype τ] (s : TimerSys τ κ) (op : TimerSection τ κ) :
    Decidable (s.TickSafe op) :=
  match op with
  | .startRead .. | .startLink .. => instDecidableNot
  | .tick => inferInstanceAs (Decidable (∀ _ _, _ = _ → _ ≠ _))
  | .startStop .. | .stopTest .. | .stopRemove .. | .stopClear .. | .control .. =>
    .isTrue trivial

/-- A thread, and two stopped timers with the time `time`, at the tick `tick`. -/
def oneThread (time tick : BitVec 32) : TimerSys Bool Unit where
  timers := ⟨fun _ => ⟨0, time, 0⟩, [], tick⟩
  pc _ := .idle

theorem oneThread_start {time : BitVec 32} (htime : InRange time) (tick : BitVec 32) :
    (oneThread time tick).Start :=
  ⟨fun _ => htime, rfl, fun _ => rfl⟩

/-- Two timers are started two ticks before `rt_tick` wraps around; a tick comes before the second
one is linked. -/
theorem fires_on_time_of_safe_run_wrap :
    ∃ tr s, Run (StepIf TickSafe) (oneThread 2 0xfffffffe) tr s ∧ s.timers.list = [true, false] ∧
      s.timers.tick = 0xffffffff ∧ ∀ e s', StepIf TickSafe s e s' → (∀ t, t ∈ fires e ↔
        e.1 = .tick ∧ t ∈ s.timers.list ∧ (s.timers.timer t).timeoutTick = s.timers.tick + 1) := by
  have hrun := machine.run_exec TickSafe (oneThread 2 0xfffffffe)
    [.startStop () true, .startRead () true, .startLink () true,
      .startStop () false, .startRead () false, .tick, .startLink () false]
  have hfires := (fires_on_time_of_safe_run (oneThread_start (by decide) 0xfffffffe) hrun).2.2.2
  exact ⟨_, _, hrun, by decide +kernel, by decide +kernel, fun e s' hstep =>
    (hfires e s' hstep).2.1⟩

/-- The tick 1 comes while a timer with the deadline 1 is about to be linked. The timer fires at the
tick 2. -/
theorem tick_before_link_fires_late :
    ∃ tr s s', (oneThread 1 0).Start ∧ Run Step (oneThread 1 0) tr s ∧
      Step s (.tick, .check [true] []) s' ∧ (s.timers.timer true).timeoutTick = 1 ∧
      s'.timers.tick = 2 := by
  have hrun := machine.run_steps (oneThread 1 0)
    [.startStop () true, .startRead () true, .tick, .startLink () true]
  refine ⟨_, _, _, oneThread_start (by decide) 0, hrun, ⟨trivial, Prod.ext ?_ rfl⟩, ?_, ?_⟩ <;>
    decide +kernel

end TimerSys
end RtThread
