import Mathlib.Data.List.TakeWhile
import RtThread.Timer.Activation
import RtThread.Timer.Order

/-!
# The loop of `rt_timer_check`

The loop drains the list from the front, and puts a periodic timer back into it. Interrupts are
disabled, so `rt_tick` stands still. A timer that is put back has expired again only if its
`init_tick` is zero. Without such a timer in front, the expired timers at the front of the list get
fewer in each round; with one, the loop comes back to it for ever.
-/

namespace RtThread
open List

section Insert
variable {τ : Type*} {timeoutTick : τ → BitVec 32} {t u : τ} {us vs : List τ}

theorem insertTimer_append (h : ∀ u ∈ us, timeoutTick u - timeoutTick t = 0 ∨
      ¬ timeoutTick u - timeoutTick t < rtTickHalf) :
    insertTimer timeoutTick t (us ++ vs) = us ++ insertTimer timeoutTick t vs := by
  induction us with
  | nil => rfl
  | cons u us ih =>
    have hrest := ih fun v hv => h v (mem_cons_of_mem u hv)
    rw [cons_append, insertTimer, hrest]
    rcases h u mem_cons_self with hsame | hfar
    · rw [if_pos hsame]
      rfl
    · rw [if_neg hfar, ite_self]
      rfl

theorem takeWhile_insertTimer {p : τ → Bool} (hp : p t = false) :
    (insertTimer timeoutTick t us).takeWhile p <+: us.takeWhile p := by
  induction us with
  | nil => simp [insertTimer, hp]
  | cons u us ih =>
    have hbehind : (u :: insertTimer timeoutTick t us).takeWhile p <+: (u :: us).takeWhile p := by
      rw [takeWhile_cons, takeWhile_cons]
      split
      · exact prefix_cons_inj u |>.mpr ih
      · exact prefix_rfl
    rw [insertTimer]
    split
    · exact hbehind
    · split
      · rw [takeWhile_cons, hp]
        exact nil_prefix
      · exact hbehind

end Insert

namespace Timers
variable {τ : Type*} [DecidableEq τ] {s : Timers τ} {t u : τ} {us : List τ}

/-- The condition of the loop does not hold (`timer.c:501-510`): the list is empty, or its first
timer has not expired. -/
def CheckDone (s : Timers τ) : Prop := ∀ t ∈ s.list.head?, ¬ s.Expired t

/-- The timers at the front of the list that have expired. -/
def leading (s : Timers τ) : List τ := s.list.takeWhile s.Expired

/-- What `rt_timer_start` accepts: `timer->init_tick < RT_TICK_MAX / 2`. -/
structure Accepted (s : Timers τ) : Prop where
  nodup : s.list.Nodup
  initTick : ∀ t ∈ s.list, (s.timer t).initTick < rtTickHalf

/-- No expired timer at the front of the list is started again with the period zero. -/
def NoZeroPeriod (s : Timers τ) : Prop :=
  ∀ t ∈ s.leading, s.Restarts t → (s.timer t).initTick ≠ 0

/-- What the comparisons of ticks suppose (`:506-509`): a deadline is less than the half of all
ticks away, from `rt_tick` if it lies ahead, and from the deadline of a timer that is started now if
it has passed. -/
structure HalfRange (s : Timers τ) : Prop where
  ahead : ∀ u ∈ s.list, ¬ s.Expired u → (s.timer u).timeoutTick - s.tick < rtTickHalf
  passed : ∀ u ∈ s.list, s.Expired u → ∀ t ∈ s.list,
    (s.timer u).timeoutTick - (s.tick + (s.timer t).initTick) = 0 ∨
      ¬ (s.timer u).timeoutTick - (s.tick + (s.timer t).initTick) < rtTickHalf

theorem initTick_rtTimerStart : ((s.rtTimerStart t).timer u).initTick = (s.timer u).initTick := by
  rw [rtTimerStart, initTick_startLink, initTick_startRead]
  exact initTick_setTimer_deactivate

theorem left_rtTimerStart_self : (s.rtTimerStart t).left t = (s.timer t).initTick.toNat := by
  rw [rtTimerStart, left_startLink, left_startRead_self]
  exact congrArg BitVec.toNat initTick_setTimer_deactivate

theorem left_rtTimerStart_of_ne (hu : u ≠ t) : (s.rtTimerStart t).left u = s.left u := by
  rw [rtTimerStart, left_startLink, left_startRead_of_ne hu]
  exact left_setTimer_deactivate

theorem config_round : ((s.round t).timer u).initTick = (s.timer u).initTick ∧
      ((s.round t).timer u).periodic = (s.timer u).periodic := by
  have hoff : (((s.remove t).setTimer t Timer.deactivate).timer u).initTick = (s.timer u).initTick ∧
      (((s.remove t).setTimer t Timer.deactivate).timer u).periodic = (s.timer u).periodic := by
    refine ⟨initTick_setTimer_deactivate, ?_⟩
    by_cases hu : u = t <;> simp [hu]
  by_cases hr : s.Restarts t
  · rw [round_of_restarts hr, initTick_rtTimerStart, periodic_rtTimerStart]
    exact hoff
  · rw [round_of_not_restarts hr]
    exact hoff

theorem timeoutTick_round (hr : s.Restarts t) :
    ((s.round t).timer t).timeoutTick = s.tick + (s.timer t).initTick := by
  rw [round_of_restarts hr]
  simp [rtTimerStart, startLink, startRead, startStop, Timer.activate, Timer.deactivate]

theorem restarts_round (hr : s.Restarts u) : (s.round t).Restarts u := by
  by_cases hu : u = t
  · subst hu
    refine ⟨config_round.2.trans hr.1, ?_⟩
    rw [round_of_restarts hr]
    exact activated_rtTimerStart.mpr (.inl rfl)
  · rwa [Restarts, timer_round_of_ne hu]

theorem expired_round_of_ne (hu : u ≠ t) : (s.round t).Expired u ↔ s.Expired u := by
  rw [Expired, Expired, timer_round_of_ne hu, tick_round]

theorem expired_round_self (hr : s.Restarts t) (ht : (s.timer t).initTick < rtTickHalf) :
    (s.round t).Expired t ↔ (s.timer t).initTick = 0 := by
  rw [Expired, timeoutTick_round hr, tick_round]
  simp only [rtTickHalf] at ht ⊢
  bv_omega

theorem round_list (hlist : s.list = t :: us) (ht : t ∉ us) (hr : s.Restarts t) :
    (s.round t).list = insertTimer (fun u => ((s.round t).timer u).timeoutTick) t us := by
  rw [round_of_restarts hr, rtTimerStart, startLink]
  simp only [setTimer_list]
  congr 1
  · funext u
    by_cases hu : u = t <;> simp [hu, Timer.activate]
  · simp [startRead, startStop, hlist, erase_of_not_mem ht]

section
variable (hlist : s.list = t :: us) (ht : t ∉ us)
include hlist ht

theorem leading_eq_cons (hexp : s.Expired t) :
    s.leading = t :: us.takeWhile (s.round t).Expired := by
  rw [leading, hlist, takeWhile_cons_of_pos (by simpa using hexp)]
  congr 1
  clear hlist
  induction us with
  | nil => rfl
  | cons u us ih =>
    obtain ⟨htu, hus⟩ := ne_and_not_mem_of_not_mem_cons ht
    have hsame : decide (s.Expired u) = decide ((s.round t).Expired u) :=
      decide_eq_decide.mpr (expired_round_of_ne htu.symm).symm
    rw [takeWhile_cons, takeWhile_cons, hsame, ih hus]

/-- The expired timers in front get fewer, unless the first one is started again with the period
zero. -/
theorem leading_round (haccepted : (s.timer t).initTick < rtTickHalf)
    (hzero : s.Restarts t → (s.timer t).initTick ≠ 0) :
    (s.round t).leading <+: us.takeWhile (s.round t).Expired := by
  by_cases hr : s.Restarts t
  · rw [leading, round_list hlist ht hr]
    refine takeWhile_insertTimer (decide_eq_false ?_)
    rw [expired_round_self hr haccepted]
    exact hzero hr
  · have hus : (s.round t).list = us := by
      rw [round_of_not_restarts hr]
      simp [hlist]
    simp only [leading, hus, prefix_rfl]

end

theorem Accepted.round (h : s.Accepted) (hlist : s.list = t :: us) : (s.round t).Accepted := by
  obtain ⟨ht, hus⟩ := nodup_cons.mp (hlist ▸ h.nodup)
  refine ⟨?_, fun u hu => ?_⟩
  · by_cases hr : s.Restarts t
    · rw [round_list hlist ht hr, (insertTimer_perm _ t us).nodup_iff]
      exact nodup_cons.mpr ⟨ht, hus⟩
    · rw [round_of_not_restarts hr]
      simpa [hlist] using hus
  · rw [mem_round_list hlist ht] at hu
    rw [config_round.1]
    exact h.initTick u (hlist ▸ mem_cons.mpr (hu.imp_left And.left))

omit [DecidableEq τ] in
theorem exists_of_not_done (h : ¬ CheckDone s) : ∃ t us, s.list = t :: us ∧ s.Expired t := by
  obtain ⟨t, hhead, hexp⟩ : ∃ t ∈ s.list.head?, s.Expired t := by simpa [CheckDone] using h
  obtain ⟨us, hlist⟩ := List.head?_eq_some_iff.mp hhead
  exact ⟨t, us, hlist, hexp⟩

theorem checkLoop_ends {n : Nat} (h : s.Accepted) (hzero : s.NoZeroPeriod)
    (hn : s.leading.length ≤ n) :
    (checkLoop n s).1.1.Nodup ∧ (checkLoop n s).1.1 ⊆ s.leading ∧
      CheckDone (checkLoop n s).2 ∧ ∀ m ≥ n, checkLoop m s = checkLoop n s := by
  induction n generalizing s with
  | zero =>
    have hdone : CheckDone s := by
      by_contra hgoes
      obtain ⟨t, us, hlist, hexp⟩ := exists_of_not_done hgoes
      have ht := (nodup_cons.mp (hlist ▸ h.nodup)).1
      simp [leading_eq_cons hlist ht hexp] at hn
    exact ⟨nodup_nil, nil_subset _, hdone, fun m _ => checkLoop_of_done hdone m⟩
  | succ n ih =>
    by_cases hdone : CheckDone s
    · rw [checkLoop_of_done hdone]
      exact ⟨nodup_nil, nil_subset _, hdone, fun m _ => checkLoop_of_done hdone m⟩
    · obtain ⟨t, us, hlist, hexp⟩ := exists_of_not_done hdone
      have ht := (nodup_cons.mp (hlist ▸ h.nodup)).1
      have hcons := leading_eq_cons hlist ht hexp
      have hless := leading_round hlist ht (h.initTick t (by simp [hlist]))
        (hzero t (by simp [hcons]))
      have hzero' : (s.round t).NoZeroPeriod := by
        intro u hu hr
        have hmem := hless.subset hu
        have hut : u ≠ t := fun heq => ht (heq ▸ (takeWhile_sublist _).subset hmem)
        rw [config_round.1]
        refine hzero u (by simp [hcons, hmem]) ?_
        rwa [Restarts, ← timer_round_of_ne hut]
      have hrest : (s.round t).leading.length ≤ n := by
        rw [hcons, length_cons] at hn
        exact hless.length_le.trans (Nat.le_of_succ_le_succ hn)
      obtain ⟨hnodup, hsub, hend, hmore⟩ := ih (h.round hlist) hzero' hrest
      have hfired := List.Subset.trans hsub hless.subset
      rw [checkLoop_of_expired hlist hexp n, hcons]
      refine ⟨nodup_cons.mpr ⟨fun hmem => ht ((takeWhile_sublist _).subset (hfired hmem)), hnodup⟩,
        cons_subset_cons t hfired, hend, fun m hm => ?_⟩
      obtain ⟨m, rfl⟩ := Nat.exists_eq_add_of_le' (Nat.one_le_iff_ne_zero.mpr (by omega : m ≠ 0))
      rw [checkLoop_of_expired hlist hexp m, hmore m (by omega)]

theorem HalfRange.round (h : s.HalfRange) (haccepted : s.Accepted) (hlist : s.list = t :: us) :
    (s.round t).HalfRange := by
  have ht := (nodup_cons.mp (hlist ▸ haccepted.nodup)).1
  have hmem : ∀ {u}, u ∈ (s.round t).list → u ≠ t ∧ u ∈ s.list ∨ u = t ∧ s.Restarts t := by
    intro u hu
    rcases (mem_round_list hlist ht).mp hu with hself | hus
    · exact .inr hself
    · exact .inl ⟨fun heq => ht (heq ▸ hus), hlist ▸ mem_cons_of_mem t hus⟩
  have hold : ∀ {u}, u ∈ (s.round t).list → u ∈ s.list := fun hu =>
    (hmem hu).elim And.right fun hself => hself.1 ▸ hlist ▸ mem_cons_self
  refine ⟨fun u hu hexp => ?_, fun u hu hexp v hv => ?_⟩
  · rcases hmem hu with ⟨hut, hu⟩ | ⟨rfl, hr⟩
    · rw [timer_round_of_ne hut, tick_round]
      exact h.ahead u hu (mt (expired_round_of_ne hut).mpr hexp)
    · have hlt := haccepted.initTick u (hold hu)
      rw [timeoutTick_round hr, tick_round]
      simp only [rtTickHalf] at hlt ⊢
      bv_omega
  · rw [config_round.1, tick_round]
    rcases hmem hu with ⟨hut, hu⟩ | ⟨rfl, hr⟩
    · rw [timer_round_of_ne hut]
      exact h.passed u hu ((expired_round_of_ne hut).mp hexp) v (hold hv)
    · have hlt := haccepted.initTick v (hold hv)
      have hzero := (expired_round_self hr (haccepted.initTick u (hold hu))).mp hexp
      rw [timeoutTick_round hr, hzero]
      simp only [rtTickHalf] at hlt ⊢
      bv_omega

/-- A timer with the period zero stays among the expired ones in front. -/
theorem HalfRange.mem_leading (h : s.HalfRange) (haccepted : s.Accepted)
    (hlist : s.list = t :: us) (hexp : s.Expired t) (hu : u ∈ s.leading) (hr : s.Restarts u)
    (hzero : (s.timer u).initTick = 0) : u ∈ (s.round t).leading := by
  have ht := (nodup_cons.mp (hlist ▸ haccepted.nodup)).1
  have hhalf := h.round haccepted hlist
  rw [leading_eq_cons hlist ht hexp] at hu
  generalize hfront : us.takeWhile (s.round t).Expired = front at hu
  have hsplit : us = front ++ us.dropWhile (s.round t).Expired := by
    rw [← hfront, takeWhile_append_dropWhile]
  have hexpired : ∀ v ∈ front, (s.round t).Expired v := by
    intro v hv
    rw [← hfront] at hv
    have hp := mem_takeWhile_imp hv
    exact of_decide_eq_true hp
  by_cases hrt : s.Restarts t
  · have hpass :
        (s.round t).list = front ++ insertTimer (fun u => ((s.round t).timer u).timeoutTick)
        t (us.dropWhile (s.round t).Expired) := by
      rw [round_list hlist ht hrt]
      conv_lhs => rw [hsplit]
      refine insertTimer_append fun v hv => ?_
      have hmem : v ∈ (s.round t).list :=
        (mem_round_list hlist ht).mpr (.inr (hsplit ▸ mem_append_left _ hv))
      have hself : t ∈ (s.round t).list := (mem_round_list hlist ht).mpr (.inl ⟨rfl, hrt⟩)
      have hpassed := hhalf.passed v hmem (hexpired v hv) t hself
      rwa [config_round.1, tick_round, ← timeoutTick_round hrt] at hpassed
    rw [leading, hpass, takeWhile_append_of_pos fun v hv => decide_eq_true (hexpired v hv)]
    rcases mem_cons.mp hu with rfl | hu
    · refine mem_append_right _ ?_
      have hself := (expired_round_self hr (haccepted.initTick u (by simp [hlist]))).mpr hzero
      cases hrest : us.dropWhile (s.round u).Expired with
      | nil => simp [insertTimer, hself]
      | cons v vs =>
        have hv : ¬ (s.round u).Expired v := by
          have hhead := head?_dropWhile_not (fun v => decide ((s.round u).Expired v)) us
          rw [hrest] at hhead
          exact of_decide_eq_false hhead
        have hmem : v ∈ (s.round u).list := by
          rw [mem_round_list hlist ht, hsplit, hrest]
          simp
        have hahead := hhalf.ahead v hmem hv
        have hne : ((s.round u).timer v).timeoutTick - (s.round u).tick ≠ 0 := by
          intro hsame
          rw [Expired, BitVec.sub_eq_iff_eq_add.mp hsame] at hv
          exact hv (by simp [rtTickHalf])
        rw [tick_round] at hahead hne
        have hnow : ((s.round u).timer u).timeoutTick = s.tick := by
          rw [timeoutTick_round hr, hzero]
          exact BitVec.add_zero _
        rw [insertTimer, hnow, if_neg hne, if_pos hahead]
        simp [hself]
    · exact mem_append_left _ hu
  · have hus : (s.round t).list = us := by
      rw [round_of_not_restarts hrt]
      simp [hlist]
    have hut : u ∈ front := (mem_cons.mp hu).resolve_left fun heq => hrt (heq ▸ hr)
    rw [leading, hus, hfront]
    exact hut

/-- The loop runs a timeout function in every round. -/
theorem HalfRange.goes_on (h : s.HalfRange) (haccepted : s.Accepted) (hu : u ∈ s.leading)
    (hr : s.Restarts u) (hzero : (s.timer u).initTick = 0) (n : Nat) :
    (checkLoop n s).1.1.length = n ∧ ¬ CheckDone (checkLoop n s).2 := by
  have hgoes : ∀ {s : Timers τ}, u ∈ s.leading → ¬ CheckDone s := by
    intro s hu hdone
    cases hlist : s.list with
    | nil => simp [leading, hlist] at hu
    | cons t us =>
      have hexp : ¬ s.Expired t := hdone t (by simp [hlist])
      simp [leading, hlist, hexp] at hu
  induction n generalizing s with
  | zero => exact ⟨rfl, hgoes hu⟩
  | succ n ih =>
    obtain ⟨t, us, hlist, hexp⟩ := exists_of_not_done (hgoes hu)
    have hleading := h.mem_leading haccepted hlist hexp hu hr hzero
    obtain ⟨hlength, hend⟩ := ih (h.round haccepted hlist) (haccepted.round hlist) hleading
      (restarts_round hr) (config_round.1.trans hzero)
    rw [checkLoop_of_expired hlist hexp]
    exact ⟨congrArg (· + 1) hlength, hend⟩

/-- If no expired timer at the front of the list is started again with the period zero,
`rt_timer_check` runs each timeout function at most once, and its loop ends after at most as many
rounds as there are linked timers. Otherwise the loop does not end, as far as the comparisons of
ticks are in range. -/
theorem timer_check_ends_iff (h : s.Accepted) :
    (s.NoZeroPeriod → ∀ n ≥ s.list.length, (checkLoop n s).1.1.Nodup ∧
      CheckDone (checkLoop n s).2 ∧ checkLoop n s = checkLoop s.list.length s) ∧
    (s.HalfRange → ((∃ n, CheckDone (checkLoop n s).2) ↔ s.NoZeroPeriod)) := by
  have hends : s.NoZeroPeriod → ∀ n ≥ s.list.length, (checkLoop n s).1.1.Nodup ∧
      CheckDone (checkLoop n s).2 ∧ checkLoop n s = checkLoop s.list.length s := by
    intro hzero n hn
    have hlen : s.leading.length ≤ s.list.length := (takeWhile_sublist _).length_le
    obtain ⟨-, -, -, hmore⟩ := checkLoop_ends h hzero hlen
    obtain ⟨hnodup, -, hdone, -⟩ := checkLoop_ends h hzero (hlen.trans hn)
    exact ⟨hnodup, hdone, hmore n hn⟩
  refine ⟨hends, fun hhalf => ⟨?_, fun hzero => ⟨_, (hends hzero _ le_rfl).2.1⟩⟩⟩
  rintro ⟨n, hdone⟩ t ht hr hzero
  exact (hhalf.goes_on h ht hr hzero n).2 hdone

/-- A periodic and a one-shot timer, started one after the other with the time `time`. -/
def twoStarted (time tick : BitVec 32) : Timers Bool :=
  ((⟨fun t => ⟨if t then rtTimerFlagPeriodic else 0, time, 0⟩, [], tick⟩ : Timers Bool).rtTimerStart
    true).rtTimerStart false

/-- Both have expired three ticks later. -/
theorem timer_check_ends_iff_three :
    (checkLoop 2 { twoStarted 3 0 with tick := 3 }).1.1 = [true, false] ∧
      CheckDone (checkLoop 2 { twoStarted 3 0 with tick := 3 }).2 := by
  have h : Accepted { twoStarted 3 0 with tick := 3 } := ⟨by decide, by decide⟩
  have hzero : NoZeroPeriod { twoStarted 3 0 with tick := 3 } := by
    unfold NoZeroPeriod
    decide
  exact ⟨by decide, ((timer_check_ends_iff h).1 hzero 2 (by decide)).2.1⟩

/-- A periodic timer that is started with `init_tick` zero, which `rt_timer_start` accepts: the
loop of `rt_timer_check` runs its timeout function in every round and does not end. -/
theorem zero_period_never_ends :
    let s := (⟨fun _ => ⟨rtTimerFlagPeriodic, 0, 0⟩, [], 5⟩ : Timers Unit).rtTimerStart ()
    (s.timer ()).initTick < rtTickHalf ∧ ∀ n, (checkLoop n s).1.1 = List.replicate n () ∧
      ¬ CheckDone (checkLoop n s).2 := by
  intro s
  have hhalf : s.HalfRange := ⟨by decide, by decide⟩
  have haccepted : s.Accepted := ⟨by decide, by decide⟩
  refine ⟨by decide, fun n => ?_⟩
  obtain ⟨hlength, hend⟩ := hhalf.goes_on haccepted (u := ()) (by decide) (by decide) (by decide) n
  exact ⟨eq_replicate_iff.mpr ⟨hlength, fun _ _ => rfl⟩, hend⟩

end Timers
end RtThread
