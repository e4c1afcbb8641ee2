import Mathlib.Data.List.Pairwise
import Mathlib.Data.Nat.Basic
import Mathlib.Order.Basic
import RtThread.Timer.State

/-!
# The order of the timer list

Deadlines are compared by unsigned differences. As long as the linked deadlines are less than
`RT_TICK_MAX / 2` ahead of `rt_tick`, this is the order of the ticks that are left: `rt_timer_start`
keeps the list in that order, behind the timers with the same deadline, and `rt_timer_check` takes
those that are due.
-/

namespace RtThread
open Timer
open Function
open List

namespace Timers
variable {τ : Type*}

/-- The times that `rt_timer_start` asks for. -/
def InRange (time : BitVec 32) : Prop := 0 < time.toNat ∧ time.toNat < rtTickHalf.toNat

instance (time : BitVec 32) : Decidable (InRange time) := instDecidableAnd

/-- The ticks that are left until the deadline of a timer. -/
def left (s : Timers τ) (t : τ) : Nat := ((s.timer t).timeoutTick - s.tick).toNat

/-- `a` was started before `b` was, in the order of `starts`. A timer counts from when it was last
started. -/
def StartedBefore [DecidableEq τ] (starts : List τ) (a b : τ) : Prop :=
  starts.reverse.idxOf b < starts.reverse.idxOf a

/-- `a` has an earlier deadline than `b`, or the same one and was started before. -/
def Before [DecidableEq τ] (s : Timers τ) (starts : List τ) (a b : τ) : Prop :=
  s.left a < s.left b ∨ s.left a = s.left b ∧ StartedBefore starts a b

section Ticks
variable {s : Timers τ} {t u : τ}

theorem sub_eq_zero_iff_left (ht : s.left t < rtTickHalf.toNat) (hu : s.left u < rtTickHalf.toNat) :
    (s.timer u).timeoutTick - (s.timer t).timeoutTick = 0 ↔ s.left u = s.left t := by
  simp only [left, rtTickHalf] at *
  bv_omega

theorem sub_lt_half_iff_left (ht : s.left t < rtTickHalf.toNat) (hu : s.left u < rtTickHalf.toNat)
    (hne : s.left u ≠ s.left t) :
    (s.timer u).timeoutTick - (s.timer t).timeoutTick < rtTickHalf ↔ s.left t < s.left u := by
  simp only [left, rtTickHalf] at *
  bv_omega

/-- A timer that is at most `RT_TICK_MAX / 2` ahead has expired iff nothing is left. -/
theorem expired_iff_left (ht : s.left t < rtTickHalf.toNat) : s.Expired t ↔ s.left t = 0 := by
  simp only [Expired, left, rtTickHalf] at *
  bv_omega

theorem left_eq_zero_iff : s.left t = 0 ↔ (s.timer t).timeoutTick = s.tick := by
  simp only [left]
  bv_omega

/-- The insertion keeps an order that refines the one by deadlines, if it puts the new timer behind
those that are not later. -/
theorem pairwise_insertTimer {R : τ → τ → Prop} {us : List τ} (ht : s.left t < rtTickHalf.toNat)
    (hus : ∀ u ∈ us, s.left u < rtTickHalf.toNat) (hR : ∀ {u v}, R u v → s.left u ≤ s.left v)
    (hbehind : ∀ u ∈ us, s.left u ≤ s.left t → R u t) (hfront : ∀ u, s.left t < s.left u → R t u)
    (h : us.Pairwise R) :
    (insertTimer (fun u => (s.timer u).timeoutTick) t us).Pairwise R := by
  induction us with
  | nil => simp [insertTimer]
  | cons u us ih =>
    obtain ⟨hu, hus'⟩ := pairwise_cons.mp h
    have hlt := hus u (by simp)
    have hrest := ih (fun v hv => hus v (by simp [hv])) (fun v hv => hbehind v (by simp [hv])) hus'
    have hpast : s.left u ≤ s.left t →
        (u :: insertTimer (fun u => (s.timer u).timeoutTick) t us).Pairwise R := by
      intro hle
      refine pairwise_cons.mpr ⟨fun v hv => ?_, hrest⟩
      rw [(insertTimer_perm _ t us).mem_iff, mem_cons] at hv
      rcases hv with rfl | hv
      · exact hbehind u (by simp) hle
      · exact hu v hv
    rw [insertTimer]
    split
    · rename_i heq
      exact hpast ((sub_eq_zero_iff_left ht hlt).mp heq).le
    · rename_i hne
      rw [sub_eq_zero_iff_left ht hlt] at hne
      split
      · rename_i hless
        have hfirst := (sub_lt_half_iff_left ht hlt hne).mp hless
        refine pairwise_cons.mpr ⟨fun v hv => hfront v ?_, h⟩
        rcases mem_cons.mp hv with rfl | hv
        · exact hfirst
        · exact hfirst.trans_le (hR (hu v hv))
      · rename_i hless
        exact hpast (not_lt.mp (mt (sub_lt_half_iff_left ht hlt hne).mpr hless))

end Ticks

variable [DecidableEq τ] {s s' : Timers τ} {starts : List τ} {t u : τ} {lo : Nat}

variable {a : τ} {us : List τ}

theorem startedBefore_snoc_of_ne {b : τ} (ha : a ≠ t) (hb : b ≠ t) :
    StartedBefore (starts ++ [t]) a b ↔ StartedBefore starts a b := by
  simp [StartedBefore, idxOf_cons_ne, ha.symm, hb.symm]

theorem startedBefore_snoc_self (ha : a ≠ t) : StartedBefore (starts ++ [t]) a t := by
  simp [StartedBefore, idxOf_cons_ne _ ha.symm]

theorem Before.left_le {b : τ} (h : s.Before starts a b) : s.left a ≤ s.left b := by
  rcases h with h | h
  · exact h.le
  · exact h.1.le

/-- The times of all timers are in range, the linked timers have at least `lo` ticks left and less
than `RT_TICK_MAX / 2`, and they are in order. -/
structure Sorted (s : Timers τ) (starts : List τ) (lo : Nat) : Prop where
  init : ∀ t, InRange (s.timer t).initTick
  nodup : s.list.Nodup
  range : ∀ t ∈ s.list, lo ≤ s.left t ∧ s.left t < rtTickHalf.toNat
  order : s.list.Pairwise (s.Before starts)

theorem Sorted.sublist (h : s.Sorted starts lo) (hsub : s'.list.Sublist s.list)
    (hinit : ∀ t, InRange (s'.timer t).initTick) (hleft : ∀ t ∈ s'.list, s'.left t = s.left t) :
    s'.Sorted starts lo where
  init := hinit
  nodup := h.nodup.sublist hsub
  range t ht := by
    rw [hleft t ht]
    exact h.range t (hsub.subset ht)
  order := by
    refine (h.order.sublist hsub).imp_of_mem fun {a b} ha hb hab => ?_
    rwa [Before, hleft a ha, hleft b hb]

@[simp] theorem left_setTimer_deactivate : (s.setTimer t deactivate).left u = s.left u := by
  by_cases hu : u = t
  · simp [left, hu, deactivate]
  · simp [left, hu]

theorem initTick_setTimer_deactivate :
    ((s.setTimer t deactivate).timer u).initTick = (s.timer u).initTick := by
  by_cases hu : u = t
  · simp [hu, deactivate]
  · simp [hu]

theorem Sorted.deactivate (h : s.Sorted starts lo) :
    (s.setTimer t deactivate).Sorted starts lo := by
  refine h.sublist (.refl _) (fun u => ?_) fun u _ => left_setTimer_deactivate
  rw [initTick_setTimer_deactivate]
  exact h.init u

theorem Sorted.remove (h : s.Sorted starts lo) : (s.remove t).Sorted starts lo :=
  h.sublist erase_sublist h.init fun _ _ => rfl

theorem Sorted.startStop (h : s.Sorted starts lo) : (s.startStop t).Sorted starts lo :=
  h.remove.deactivate

theorem left_startRead_self : (s.startRead t).left t = (s.timer t).initTick.toNat := by
  simp only [left, startRead, setTimer_timer, setTimer_tick, update_self]
  congr 1
  bv_omega

theorem left_startRead_of_ne (hu : u ≠ t) : (s.startRead t).left u = s.left u := by
  simp [left, startRead, hu]

theorem initTick_startRead : ((s.startRead t).timer u).initTick = (s.timer u).initTick := by
  by_cases hu : u = t <;> simp [startRead, hu]

theorem Sorted.startRead (h : s.Sorted starts lo) (ht : t ∉ s.list) :
    (s.startRead t).Sorted starts lo := by
  refine h.sublist (.refl _) (fun u => ?_) fun u hu => left_startRead_of_ne ?_
  · rw [initTick_startRead]
    exact h.init u
  · exact fun heq => ht (heq ▸ hu)

attribute [local simp] startLink

theorem left_startLink : (s.startLink t).left u = s.left u := by
  by_cases hu : u = t
  · simp [left, hu, activate]
  · simp [left, hu]

theorem initTick_startLink : ((s.startLink t).timer u).initTick = (s.timer u).initTick := by
  by_cases hu : u = t
  · simp [hu, activate]
  · simp [hu]

theorem startLink_perm : (s.startLink t).list.Perm (t :: s.list) := insertTimer_perm _ t _

theorem Sorted.startLink (h : s.Sorted starts lo) (ht : t ∉ s.list)
    (hleft : lo ≤ s.left t ∧ s.left t < rtTickHalf.toNat) :
    (s.startLink t).Sorted (starts ++ [t]) lo where
  init u := by
    rw [initTick_startLink]
    exact h.init u
  nodup := by
    rw [startLink_perm.nodup_iff]
    exact nodup_cons.mpr ⟨ht, h.nodup⟩
  range u hu := by
    rw [left_startLink]
    rcases mem_cons.mp (startLink_perm.mem_iff.mp hu) with rfl | hu
    · exact hleft
    · exact h.range u hu
  order := by
    have hBefore : ∀ {a b}, s.Before (starts ++ [t]) a b →
        (s.startLink t).Before (starts ++ [t]) a b := by
      intro a b hab
      rwa [Before, left_startLink, left_startLink]
    refine List.Pairwise.imp hBefore ?_
    refine pairwise_insertTimer hleft.2 (fun u hu => (h.range u hu).2) Before.left_le
      (fun u hu hle => ?_) (fun u hlt => .inl hlt) ?_
    · rcases hle.lt_or_eq with hlt | heq
      · exact .inl hlt
      · exact .inr ⟨heq, startedBefore_snoc_self fun h => ht (h ▸ hu)⟩
    · refine h.order.imp_of_mem fun {a b} ha hb hab => ?_
      have hat : a ≠ t := fun heq => ht (heq ▸ ha)
      have hbt : b ≠ t := fun heq => ht (heq ▸ hb)
      rwa [Before, startedBefore_snoc_of_ne hat hbt]

theorem Sorted.rtTimerStart (h : s.Sorted starts lo) (hlo : lo ≤ 1) :
    (s.rtTimerStart t).Sorted (starts ++ [t]) lo := by
  have hstop := h.startStop (t := t)
  have hout : t ∉ (s.startStop t).list := h.nodup.not_mem_erase
  refine (hstop.startRead hout).startLink hout ?_
  rw [left_startRead_self]
  exact ⟨hlo.trans (hstop.init t).1, (hstop.init t).2⟩

/-- The timer is started again when it fires. -/
def Restarts (s : Timers τ) (t : τ) : Prop :=
  (s.timer t).periodic = true ∧ (s.timer t).activated = true

instance : DecidablePred s.Restarts := fun _ => instDecidableAnd

/-- A round of `rt_timer_check` with a timeout function that leaves the timers alone. -/
def round (s : Timers τ) (t : τ) : Timers τ := (s.remove t).checkEnd t

/-- At most `n` rounds of the loop of `rt_timer_check` (`timer.c:501-541`): the timers that fire,
and those of them that are started again. -/
def checkLoop : Nat → Timers τ → (List τ × List τ) × Timers τ
  | 0, s => (([], []), s)
  | n + 1, s =>
    match s.list with
    | [] => (([], []), s)
    | t :: _ =>
      if s.Expired t then
        let r := checkLoop n (s.round t)
        ((t :: r.1.1, if s.Restarts t then t :: r.1.2 else r.1.2), r.2)
      else (([], []), s)

theorem round_of_restarts (ht : s.Restarts t) :
    s.round t = ((s.remove t).setTimer t deactivate).rtTimerStart t := if_pos ht

theorem round_of_not_restarts (ht : ¬ s.Restarts t) :
    s.round t = (s.remove t).setTimer t deactivate := if_neg ht

theorem timer_round_of_ne (hu : u ≠ t) : (s.round t).timer u = s.timer u := by
  by_cases ht : s.Restarts t
  · rw [round_of_restarts ht]
    simp [rtTimerStart, startRead, startStop, hu]
  · rw [round_of_not_restarts ht]
    simp [hu]

theorem tick_round : (s.round t).tick = s.tick := by
  by_cases ht : s.Restarts t
  · rw [round_of_restarts ht]
    rfl
  · rw [round_of_not_restarts ht]
    rfl

omit [DecidableEq τ] in
theorem filter_insertTimer {p : τ → Bool} (f : τ → BitVec 32) (hp : p t = false) (us : List τ) :
    (insertTimer f t us).filter p = us.filter p := by
  induction us with
  | nil => simp [insertTimer, hp]
  | cons u us ih =>
    rw [insertTimer]
    split
    · rw [filter_cons, filter_cons, ih]
    · split
      · rw [filter_cons_of_neg (by simp [hp])]
      · rw [filter_cons, filter_cons, ih]

theorem mem_round_list (hlist : s.list = t :: us) (ht : t ∉ us) :
    u ∈ (s.round t).list ↔ u = t ∧ s.Restarts t ∨ u ∈ us := by
  by_cases hr : s.Restarts t
  · rw [round_of_restarts hr, Timers.rtTimerStart, startLink_perm.mem_iff]
    simp [startRead, startStop, hlist, erase_of_not_mem ht, hr]
  · rw [round_of_not_restarts hr]
    simp [hlist, hr]

theorem filter_round_list {p : τ → Bool} (hlist : s.list = t :: us) (ht : t ∉ us)
    (hp : s.Restarts t → p t = false) : (s.round t).list.filter p = us.filter p := by
  by_cases hr : s.Restarts t
  · have hinsert := filter_insertTimer (fun u =>
      (((((s.remove t).setTimer t deactivate).startStop t).startRead t).timer u).timeoutTick)
      (hp hr) us
    rw [round_of_restarts hr, ← hinsert]
    simp [Timers.rtTimerStart, startRead, startStop, hlist, erase_of_not_mem ht]
  · rw [round_of_not_restarts hr]
    simp [hlist]

theorem Sorted.round (h : s.Sorted starts 0) :
    (s.round t).Sorted (starts ++ if s.Restarts t then [t] else []) 0 := by
  by_cases hr : s.Restarts t
  · rw [round_of_restarts hr, if_pos hr]
    exact h.remove.deactivate.rtTimerStart (Nat.zero_le 1)
  · rw [round_of_not_restarts hr, if_neg hr, append_nil]
    exact h.remove.deactivate

theorem left_round_of_restarts (h : s.Sorted starts 0) (hr : s.Restarts t) :
    0 < (s.round t).left t := by
  have hstop := (h.remove (t := t)).deactivate (t := t)
  rw [round_of_restarts hr, Timers.rtTimerStart, left_startLink, left_startRead_self]
  exact (hstop.startStop.init t).1

def due (s : Timers τ) : List τ := s.list.filter fun t => s.left t = 0

theorem due_round (h : s.Sorted starts 0) (hlist : s.list = t :: us) :
    (s.round t).due = us.filter fun u => s.left u = 0 := by
  have ht : t ∉ us := (nodup_cons.mp (hlist ▸ h.nodup)).1
  rw [due, filter_round_list hlist ht fun hr => by simpa using (left_round_of_restarts h hr).ne']
  refine filter_congr fun u hu => ?_
  have hut : u ≠ t := fun heq => ht (heq ▸ hu)
  rw [left, left, timer_round_of_ne hut, tick_round]

/-- What the loop of `rt_timer_check` does from `s`, once no timer is due any more. -/
structure Checked (s : Timers τ) (starts : List τ) (r : (List τ × List τ) × Timers τ) : Prop where
  fired : r.1.1 = s.due
  restarted : r.1.2 = r.1.1.filter s.Restarts
  sorted : r.2.Sorted (starts ++ r.1.2) 1
  tick : r.2.tick = s.tick
  other : ∀ u, u ∉ r.1.1 → r.2.timer u = s.timer u ∧ (u ∈ r.2.list ↔ u ∈ s.list)
  again : ∀ u ∈ r.1.1, u ∈ r.2.list ↔ u ∈ r.1.2

theorem Checked.done (h : s.Sorted starts 0) (hleft : ∀ t ∈ s.list, s.left t ≠ 0) :
    Checked s starts (([], []), s) where
  fired := by
    symm
    simpa [due, filter_eq_nil_iff] using hleft
  restarted := rfl
  sorted := by
    rw [append_nil]
    exact ⟨h.init, h.nodup, fun t ht => ⟨Nat.pos_of_ne_zero (hleft t ht), (h.range t ht).2⟩,
      h.order⟩
  tick := rfl
  other _ _ := ⟨rfl, .rfl⟩
  again _ hu := absurd hu not_mem_nil

theorem Checked.cons {r : (List τ × List τ) × Timers τ} (h : s.Sorted starts 0)
    (hlist : s.list = t :: us) (hdue : s.left t = 0)
    (hr : Checked (s.round t) (starts ++ if s.Restarts t then [t] else []) r) :
    Checked s starts ((t :: r.1.1, if s.Restarts t then t :: r.1.2 else r.1.2), r.2) := by
  have htus : t ∉ us := (nodup_cons.mp (hlist ▸ h.nodup)).1
  have hfired : r.1.1 = us.filter fun u => s.left u = 0 := hr.fired.trans (due_round h hlist)
  have htfired : t ∉ r.1.1 := fun ht => htus (mem_of_mem_filter (hfired ▸ ht))
  have hrestarted : r.1.2 = r.1.1.filter s.Restarts := by
    rw [hr.restarted]
    refine filter_congr fun u hu => ?_
    have hut : u ≠ t := fun heq => htfired (heq ▸ hu)
    refine decide_eq_decide.mpr ?_
    rw [Restarts, Restarts, timer_round_of_ne hut]
  refine ⟨?_, ?_, ?_, hr.tick.trans tick_round, fun u hu => ?_, fun u hu => ?_⟩
  · simp [due, hlist, hdue, hfired]
  · by_cases hrestarts : s.Restarts t <;> simp [hrestarts, hrestarted]
  · have hsorted := hr.sorted
    by_cases hrestarts : s.Restarts t <;> simpa [hrestarts] using hsorted
  · obtain ⟨hut, hu⟩ := ne_and_not_mem_of_not_mem_cons hu
    obtain ⟨htimer, hmem⟩ := hr.other u hu
    rw [htimer, hmem, timer_round_of_ne hut, mem_round_list hlist htus, hlist]
    simp [hut]
  · by_cases hut : u = t
    · subst hut
      have hnot : u ∉ r.1.2 := fun hu => htfired (mem_of_mem_filter (hrestarted ▸ hu))
      rw [(hr.other u htfired).2, mem_round_list hlist htus]
      by_cases hrestarts : s.Restarts u
      · simp [hrestarts]
      · simp [hrestarts, htus, hnot]
    · have hu : u ∈ r.1.1 := (mem_cons.mp hu).resolve_left hut
      rw [hr.again u hu]
      by_cases hrestarts : s.Restarts t
      · simp [hrestarts, hut]
      · simp [hrestarts]

theorem Sorted.left_ne_zero (h : s.Sorted starts 0) (hlist : s.list = t :: us)
    (hdue : s.left t ≠ 0) (hu : u ∈ s.list) : s.left u ≠ 0 := by
  rcases mem_cons.mp (hlist ▸ hu) with rfl | hu
  · exact hdue
  · have hle := Before.left_le ((pairwise_cons.mp (hlist ▸ h.order)).1 u hu)
    omega

theorem checkLoop_of_done (h : ∀ t ∈ s.list.head?, ¬ s.Expired t) (n : Nat) :
    checkLoop n s = (([], []), s) := by
  cases n with
  | zero => rfl
  | succ n =>
    rw [checkLoop]
    cases hlist : s.list with
    | nil => rfl
    | cons t us => exact if_neg (h t (by rw [hlist]; rfl))

theorem checkLoop_of_not_due (h : s.Sorted starts 0) (hleft : ∀ t ∈ s.list, s.left t ≠ 0)
    (n : Nat) : checkLoop n s = (([], []), s) :=
  checkLoop_of_done (fun t ht hexpired =>
    have hmem := mem_of_mem_head? ht
    hleft t hmem ((expired_iff_left (h.range t hmem).2).mp hexpired)) n

theorem checkLoop_of_expired (hlist : s.list = t :: us) (hexp : s.Expired t) (n : Nat) :
    checkLoop (n + 1) s = ((t :: (checkLoop n (s.round t)).1.1,
      if s.Restarts t then t :: (checkLoop n (s.round t)).1.2 else (checkLoop n (s.round t)).1.2),
      (checkLoop n (s.round t)).2) := by
  rw [checkLoop, hlist]
  exact if_pos hexp

theorem Sorted.expired (h : s.Sorted starts 0) (hlist : s.list = t :: us) (hdue : s.left t = 0) :
    s.Expired t :=
  (expired_iff_left (h.range t (by simp [hlist])).2).mpr hdue

/-- The loop ends when it has fired the timers that are due, and further rounds change nothing. -/
theorem checkLoop_checked {n : Nat} (h : s.Sorted starts 0) (hn : s.due.length ≤ n) :
    Checked s starts (checkLoop n s) ∧ ∀ m ≥ n, checkLoop m s = checkLoop n s := by
  induction n generalizing s starts with
  | zero =>
    have hleft : ∀ t ∈ s.list, s.left t ≠ 0 := by
      have hnil := eq_nil_of_length_eq_zero (Nat.le_zero.mp hn)
      simpa using filter_eq_nil_iff.mp hnil
    exact ⟨.done h hleft, fun m _ => checkLoop_of_not_due h hleft m⟩
  | succ n ih =>
    by_cases hleft : ∀ t ∈ s.list, s.left t ≠ 0
    · rw [checkLoop_of_not_due h hleft]
      exact ⟨.done h hleft, fun m _ => checkLoop_of_not_due h hleft m⟩
    · cases hlist : s.list with
      | nil => simp [hlist] at hleft
      | cons t us =>
        have hdue : s.left t = 0 := by
          by_contra hdue
          exact hleft fun u hu => h.left_ne_zero hlist hdue hu
        have hrest : (s.round t).due.length ≤ n := by
          rw [due_round h hlist]
          simpa [due, hlist, hdue] using hn
        obtain ⟨hchecked, hends⟩ := ih h.round hrest
        have hexp := h.expired hlist hdue
        rw [checkLoop_of_expired hlist hexp]
        refine ⟨.cons h hlist hdue hchecked, fun m hm => ?_⟩
        obtain ⟨m, rfl⟩ := Nat.exists_eq_succ_of_ne_zero (Nat.ne_zero_of_lt hm)
        rw [checkLoop_of_expired hlist hexp, hends m (Nat.le_of_succ_le_succ hm)]

def nextTick (s : Timers τ) : Timers τ := { s with tick := s.tick + 1 }

/-- `rt_tick_increase` (`clock.c:83-105`), as far as timers go. Each timer fires at most once, so
that the loop of `rt_timer_check` ends within as many rounds as timers are linked. -/
def rtTickIncrease (s : Timers τ) : (List τ × List τ) × Timers τ :=
  checkLoop s.list.length s.nextTick

omit [DecidableEq τ] in
theorem left_nextTick (ht : 0 < s.left t) : s.nextTick.left t = s.left t - 1 := by
  simp only [left, nextTick] at *
  bv_omega

theorem Sorted.nextTick (h : s.Sorted starts 1) : s.nextTick.Sorted starts 0 := by
  have hleft : ∀ t ∈ s.list, s.nextTick.left t = s.left t - 1 :=
    fun t ht => left_nextTick (h.range t ht).1
  refine ⟨h.init, h.nodup, fun t ht => ?_, h.order.imp_of_mem fun {a b} ha hb hab => ?_⟩
  · rw [hleft t ht]
    have := (h.range t ht).2
    omega
  · have hpa := (h.range a ha).1
    rw [Before, hleft a ha, hleft b hb]
    rcases hab with hlt | ⟨heq, hbefore⟩
    · exact .inl (by omega)
    · exact .inr ⟨by omega, hbefore⟩

theorem rtTickIncrease_checked (h : s.Sorted starts 1) :
    Checked s.nextTick starts s.rtTickIncrease ∧
    ∀ n ≥ s.list.length, checkLoop n s.nextTick = s.rtTickIncrease :=
  checkLoop_checked h.nextTick (length_filter_le _ _)

omit [DecidableEq τ] in
theorem mem_due_nextTick :
    t ∈ s.nextTick.due ↔ t ∈ s.list ∧ (s.timer t).timeoutTick = s.tick + 1 := by
  simp [due, left_eq_zero_iff, nextTick]

end Timers
end RtThread
