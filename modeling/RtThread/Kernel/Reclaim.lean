import Mathlib.Logic.Function.Iterate
import RtThread.Kernel.Reaper

/-!
# What is left of a thread

How far a thread has come on its way out can be read off the state, and what has been done for it is
a function of that: an ended thread that the idle thread is through with is linked nowhere, its
`cleanup` was called once if it has one, and its memory was freed once if it was created. One way
out does not fit: a static thread with a `cleanup` that runs into `rt_thread_exit` is never detached
from the list of thread objects.
-/

namespace RtThread
open List

/-- How far a thread has come on its way out. -/
inductive Phase
  | live | defunct | dead | gone
  deriving DecidableEq

namespace Reaper
open Kernel
variable {τ ι : Type*} [DecidableEq τ] {s s' : Reaper τ ι} {t u : τ} {k' : Kernel τ ι}

def phase (s : Reaper τ ι) (t : τ) : Phase :=
  if (s.kernel.thread t).stat ≠ .close then .live
  else if t ∈ s.kernel.list .defunct then .defunct
  else if s.dead = some t then .dead
  else .gone

/-- What has been done for a thread that has come to `p`. -/
structure Fate (s : Reaper τ ι) (t : τ) (p : Phase) : Prop where
  timerAttached : s.timerAttached t = true ↔ p = .live
  timerStopped : p ≠ .live → (s.kernel.thread t).timerActivated = false
  attached : (s.kernel.thread t).attached = true ↔
    p = .live ∨ ((s.kernel.thread t).isStatic = false ∧ p ≠ .gone)
  cleanups : s.cleanups.count t =
    if (s.kernel.thread t).cleanup = true ∧ (p = .dead ∨ p = .gone) then 1 else 0
  stackFrees : s.stackFrees.count t =
    if (s.kernel.thread t).isStatic = false ∧ p = .gone then 1 else 0
  objectFrees : s.objectFrees.count t =
    if (s.kernel.thread t).isStatic = false ∧ p = .gone then 1 else 0
  dead : s.dead = some t → p = .dead ∧ (s.kernel.thread t).isStatic = false

structure Reclaiming (s : Reaper τ ι) : Prop where
  placed : Placed s.kernel
  fate : ∀ t, Fate s t (s.phase t)

theorem phase_eq_live : s.phase t = .live ↔ (s.kernel.thread t).stat ≠ .close := by
  rw [phase]
  split
  · rename_i hlive
    exact iff_of_true rfl hlive
  · rename_i hclosed
    refine iff_of_false ?_ hclosed
    split
    · simp
    · split <;> simp

theorem fate_live : Fate s t .live ↔ s.timerAttached t = true ∧
    (s.kernel.thread t).attached = true ∧ s.cleanups.count t = 0 ∧ s.stackFrees.count t = 0 ∧
    s.objectFrees.count t = 0 ∧ s.dead ≠ some t := by
  constructor
  · rintro ⟨h1, -, h3, h4, h5, h6, h7⟩
    simp only [reduceCtorEq, or_self, and_false, if_false, true_or, iff_true, false_and,
      imp_false] at h1 h3 h4 h5 h6 h7
    exact ⟨h1, h3, h4, h5, h6, h7⟩
  · rintro ⟨h1, h3, h4, h5, h6, h7⟩
    exact ⟨by simp [h1], fun hne => absurd rfl hne, by simp [h3], by simp [h4], by simp [h5],
      by simp [h6], fun hdead => absurd hdead h7⟩

theorem Reclaiming.live (h : Reclaiming s) (hlive : (s.kernel.thread t).stat ≠ .close) :
    Fate s t .live := phase_eq_live.mpr hlive ▸ h.fate t

theorem Fate.congr (h : Fate s u (s.phase u)) (hthread : s'.kernel.thread u = s.kernel.thread u)
    (hdefunct : u ∈ s'.kernel.list .defunct ↔ u ∈ s.kernel.list .defunct)
    (htimer : s'.timerAttached u = s.timerAttached u)
    (hcleanups : s'.cleanups.count u = s.cleanups.count u)
    (hstack : s'.stackFrees.count u = s.stackFrees.count u)
    (hobject : s'.objectFrees.count u = s.objectFrees.count u)
    (hdead : s'.dead = some u ↔ s.dead = some u) : Fate s' u (s'.phase u) := by
  have hphase : s'.phase u = s.phase u := by
    simp only [phase, hthread, hdefunct, hdead]
  rw [hphase]
  refine ⟨?_, ?_, ?_, ?_, ?_, ?_, ?_⟩
  · rw [htimer]; exact h.timerAttached
  · rw [hthread]; exact h.timerStopped
  · rw [hthread]; exact h.attached
  · rw [hcleanups, hthread]; exact h.cleanups
  · rw [hstack, hthread]; exact h.stackFrees
  · rw [hobject, hthread]; exact h.objectFrees
  · rw [hdead, hthread]; exact h.dead

theorem Reclaiming.moves (h : Reclaiming s)
    (hlive : (s.kernel.thread t).stat ≠ .close) (hmoves : Moves t s.kernel k') :
    Reclaiming { s with kernel := k' } where
  placed := hmoves.placed
  fate u := by
    by_cases hu : u = t
    · subst hu
      have hfate := fate_live.mp (h.live hlive)
      have hphase : phase { s with kernel := k' } u = .live := phase_eq_live.mpr hmoves.live
      rw [hphase, fate_live]
      exact ⟨hfate.1, hmoves.attached.trans hfate.2.1, hfate.2.2⟩
    · exact (h.fate u).congr (hmoves.thread u hu) (hmoves.defunct u) rfl rfl rfl rfl Iff.rfl

theorem Reclaiming.untouched (h : Reclaiming s)
    (hthread : k'.thread = s.kernel.thread) (hlist : k'.list = s.kernel.list) :
    Reclaiming { s with kernel := k' } where
  placed := by
    refine ⟨?_, ?_, ?_⟩
    · rw [hlist]; exact h.placed.nodup
    · rw [hlist]; exact h.placed.unique
    · rw [hlist, hthread]; exact h.placed.closed
  fate u := (h.fate u).congr (congrFun hthread u) (by rw [hlist]) rfl rfl rfl rfl Iff.rfl

/-- A call that ends the thread `t`: it is put on `rt_thread_defunct` if there is something left to
do, and it is detached if it is static. -/
theorem Reclaiming.ended (h : Reclaiming s) {dest : Option (ListHead ι)}
    (hlive : (s.kernel.thread t).stat ≠ .close) (hrel : Relinked t dest s.kernel k')
    (hthread : k'.thread t = { s.kernel.thread t with
        stat := .close
        timerActivated := false
        attached := !(s.kernel.thread t).isStatic })
    (hdest : dest = if (s.kernel.thread t).isStatic = false ∨ (s.kernel.thread t).cleanup = true
      then some .defunct else none) :
    Reclaiming { s with
      kernel := k'
      timerAttached := fun u => if some t = some u then false else s.timerAttached u } where
  placed := by
    refine hrel.placed h.placed fun l hl => ?_
    rw [hthread]
    refine iff_of_true rfl ?_
    rw [hdest] at hl
    split at hl
    · exact Option.some.inj hl
    · cases hl
  fate u := by
    by_cases hu : u = t
    · subst hu
      obtain ⟨-, -, hcleanup, hstack, hobject, hdead⟩ := fate_live.mp (h.live hlive)
      have hmem : u ∈ k'.list .defunct ↔
          (s.kernel.thread u).isStatic = false ∨ (s.kernel.thread u).cleanup = true := by
        rw [hrel.mem h.placed, hdest]
        by_cases hleft :
          (s.kernel.thread u).isStatic = false ∨ (s.kernel.thread u).cleanup = true <;> simp [hleft]
      have hphase : phase { s with
          kernel := k'
          timerAttached := fun v => if some u = some v then false else s.timerAttached v } u =
          if (s.kernel.thread u).isStatic = false ∨ (s.kernel.thread u).cleanup = true
          then .defunct else .gone := by
        simp [phase, hthread, hmem, hdead]
      rw [hphase]
      cases hstatic : (s.kernel.thread u).isStatic <;>
        cases hclean : (s.kernel.thread u).cleanup <;>
          exact ⟨by simp, by simp [hthread], by simp [hthread, hstatic],
            by simp [hcleanup, hthread, hclean], by simp [hstack, hthread, hstatic],
            by simp [hobject, hthread, hstatic], fun heq => absurd heq hdead⟩
    · refine (h.fate u).congr (hrel.thread u hu) ?_ ?_ rfl rfl rfl Iff.rfl
      · rw [hrel.mem h.placed]
        simp [hu]
      · simp [Ne.symm hu]

theorem phase_of_defunct (h : Reclaiming s) (hmem : t ∈ s.kernel.list .defunct) :
    s.phase t = .defunct := by
  have hclosed := (h.placed.closed hmem).mpr rfl
  simp [phase, hclosed, hmem]

theorem Reclaiming.idleTake (h : Reclaiming s) (hdead : s.dead = none) : Reclaiming s.idleTake := by
  rw [Reaper.idleTake]
  split
  · exact h
  · rename_i t ts hlist
    have hmem : t ∈ s.kernel.list .defunct := by simp [hlist]
    have hclosed := (h.placed.closed hmem).mpr rfl
    have hrel : Relinked t none s.kernel (s.kernel.rtListRemove t) := by
      refine ⟨fun _ _ => rfl, fun l hl => ?_, fun _ _ => rfl⟩
      cases hl
    have hplaced : Placed (s.kernel.rtListRemove t) := by
      refine hrel.placed h.placed fun l hl => ?_
      cases hl
    refine ⟨hplaced, fun u => ?_⟩
    by_cases hu : u = t
    · subst hu
      have hout : u ∉ (s.kernel.list .defunct).erase u :=
        fun hin => (((h.placed.nodup _).mem_erase_iff).mp hin).1 rfl
      have hphase : phase { s with
          kernel := s.kernel.rtListRemove u
          cleanups := if (s.kernel.thread u).cleanup then u :: s.cleanups else s.cleanups
          dead := if (s.kernel.thread u).isStatic then none else some u } u =
          if (s.kernel.thread u).isStatic = true then .gone else .dead := by
        cases hstatic : (s.kernel.thread u).isStatic <;> simp [phase, hclosed, hout]
      obtain ⟨h1, h2, h3, h4, h5, h6, -⟩ := phase_of_defunct h hmem ▸ h.fate u
      rw [hphase]
      cases hstatic : (s.kernel.thread u).isStatic <;>
        cases hclean : (s.kernel.thread u).cleanup <;>
          simp only [reduceCtorEq, iff_false, ne_eq, not_false_eq_true, forall_const, false_or,
            and_true, or_self, and_false, if_false, hstatic, iff_true] at h1 h2 h3 h4 h5 h6 <;>
          exact ⟨by simp [h1], fun _ => h2, by simp [h3, hstatic], by simp [h4, hclean],
            by simp [h5, hstatic], by simp [h6, hstatic], by simp [hstatic]⟩
    · refine (h.fate u).congr rfl ?_ rfl ?_ rfl rfl ?_
      · rw [hrel.mem h.placed]
        simp [hu]
      · split
        · rw [count_cons_of_ne (Ne.symm hu)]
        · rfl
      · rw [hdead]
        dsimp only
        split
        · rfl
        · simp [Ne.symm hu]

theorem Reclaiming.idleFree (h : Reclaiming s) : Reclaiming s.idleFree := by
  rw [Reaper.idleFree]
  split
  · exact h
  · rename_i t hdead
    have hplaced : Placed (s.kernel.rtObjectDetach t) := by
      refine ⟨h.placed.nodup, h.placed.unique, fun {u l} hu => ?_⟩
      have hstat : ((s.kernel.rtObjectDetach t).thread u).stat = (s.kernel.thread u).stat :=
        field_update Thread.stat u
      rw [hstat]
      exact h.placed.closed hu
    refine ⟨hplaced, fun u => ?_⟩
    by_cases hu : u = t
    · subst hu
      obtain ⟨hdeadPhase, hstatic⟩ := (h.fate u).dead hdead
      have hphase : phase { s with
          kernel := s.kernel.rtObjectDetach u
          stackFrees := u :: s.stackFrees
          objectFrees := u :: s.objectFrees
          dead := none } u = .gone := by
        rw [phase] at hdeadPhase
        split at hdeadPhase
        · cases hdeadPhase
        · rename_i hclosed
          split at hdeadPhase
          · cases hdeadPhase
          · rename_i hout
            simpa [phase, rtObjectDetach, hout] using hclosed
      obtain ⟨h1, h2, -, h4, h5, h6, -⟩ := hdeadPhase ▸ h.fate u
      rw [hphase]
      refine ⟨by simp [h1], ?_, ?_, ?_, ?_, ?_, by simp⟩ <;>
        simp [rtObjectDetach, hstatic, h2, h4, h5, h6]
    · refine (h.fate u).congr ?_ Iff.rfl rfl rfl ?_ ?_ ?_
      · simp [rtObjectDetach, hu]
      · rw [count_cons_of_ne (Ne.symm hu)]
      · rw [count_cons_of_ne (Ne.symm hu)]
      · rw [hdead]
        simp [Ne.symm hu]

/-- `rt_thread_detach` is for static threads, `rt_thread_delete` for created ones. -/
def Typed (s : Reaper τ ι) : ReaperOp τ ι → Prop
  | .thread (.detach t) => (s.kernel.thread t).isStatic = true
  | .thread (.delete t) => (s.kernel.thread t).isStatic = false
  | _ => True

/-- The thread that runs into `rt_thread_exit` is not a static one with a `cleanup`. -/
def ExitSafe (s : Reaper τ ι) : ReaperOp τ ι → Prop
  | .thread .exit => ∀ t ∈ s.kernel.currentThread,
      (s.kernel.thread t).isStatic = true → (s.kernel.thread t).cleanup = false
  | _ => True

theorem idleTake_list {ts : List τ} (h : s.kernel.list .defunct = t :: ts) :
    s.idleTake.kernel.list .defunct = ts := by
  simp [Reaper.idleTake, h]

theorem idleFree_list : s.idleFree.kernel.list = s.kernel.list := by
  rw [Reaper.idleFree]
  split <;> rfl

theorem idleFree_dead : s.idleFree.dead = none := by
  rw [Reaper.idleFree]
  split
  · assumption
  · rfl

/-- The state at `rt_system_scheduler_init`: the threads are initialised, and none is started. -/
structure Fresh (s : Reaper τ ι) : Prop where
  init : ∀ t, (s.kernel.thread t).stat = .init
  attached : ∀ t, (s.kernel.thread t).attached = true
  timerAttached : ∀ t, s.timerAttached t = true
  lists : ∀ l, s.kernel.list l = []
  group : s.kernel.readyPriorityGroup = 0
  current : s.kernel.currentThread = none
  cleanups : s.cleanups = []
  stackFrees : s.stackFrees = []
  objectFrees : s.objectFrees = []
  dead : s.dead = none

theorem Fresh.reclaiming (h : Fresh s) : Reclaiming s := by
  refine ⟨⟨fun l => ?_, fun {t l l'} hmem => ?_, fun {t l} hmem => ?_⟩, fun t => ?_⟩
  · simp [h.lists]
  · simp [h.lists] at hmem
  · simp [h.lists] at hmem
  · rw [phase_eq_live.mpr (by simp [h.init]), fate_live]
    simp [h.attached, h.timerAttached, h.cleanups, h.stackFrees, h.objectFrees, h.dead]

/-- Nothing is left of an ended thread: no list links it or its timer, `cleanup` was called once if
there is one, and the memory of a created thread was freed once. -/
structure Reclaimed (s : Reaper τ ι) (t : τ) : Prop where
  unlinked : ∀ l, t ∉ s.kernel.list l
  detached : (s.kernel.thread t).attached = false
  timerStopped : (s.kernel.thread t).timerActivated = false
  timerDetached : s.timerAttached t = false
  cleanups : s.cleanups.count t = if (s.kernel.thread t).cleanup then 1 else 0
  stackFrees : s.stackFrees.count t = if (s.kernel.thread t).isStatic then 0 else 1
  objectFrees : s.objectFrees.count t = if (s.kernel.thread t).isStatic then 0 else 1

theorem Reclaiming.reclaimed (h : Reclaiming s) (hdefunct : s.kernel.list .defunct = [])
    (hdead : s.dead = none) (hclosed : (s.kernel.thread t).stat = .close) : Reclaimed s t := by
  have hphase : s.phase t = .gone := by simp [phase, hclosed, hdefunct, hdead]
  obtain ⟨h1, h2, h3, h4, h5, h6, -⟩ := hphase ▸ h.fate t
  refine ⟨fun l hmem => ?_, ?_, h2 (by simp), ?_, ?_, ?_, ?_⟩
  · rw [(h.placed.closed hmem).mp hclosed, hdefunct] at hmem
    exact absurd hmem not_mem_nil
  · simpa using h3
  · simpa using h1
  · simpa using h4
  · cases hstatic : (s.kernel.thread t).isStatic <;> simpa [hstatic] using h5
  · cases hstatic : (s.kernel.thread t).isStatic <;> simpa [hstatic] using h6

variable [DecidableEq ι] {P : Reaper τ ι → ReaperOp τ ι → Prop}

theorem threadOp_of_not_ended {op : ThreadOp τ} (h : s.kernel.ended op = none) :
    s.threadOp op = { s with kernel := s.kernel.apply op } := by
  simp [threadOp, h]

theorem threadOp_of_ended {op : ThreadOp τ} (h : s.kernel.ended op = some t) :
    s.threadOp op = { s with
      kernel := s.kernel.apply op
      timerAttached := fun u => if some t = some u then false else s.timerAttached u } := by
  simp [threadOp, h]

theorem Reclaiming.threadOp (h : Reclaiming s) (op : ThreadOp τ) (hlegal : s.kernel.Legal op)
    (htyped : s.Typed (.thread op)) (hexit : s.ExitSafe (.thread op)) :
    Reclaiming (s.threadOp op) := by
  -- what the calls on a thread that stays alive have in common
  have hmove : ∀ t, (s.kernel.thread t).stat ≠ .close → s.kernel.ended op = none →
      (Moves t s.kernel s.kernel → Moves t s.kernel (s.kernel.apply op)) →
      Reclaiming (s.threadOp op) := by
    intro t hlive hended hmoves
    rw [threadOp_of_not_ended hended]
    exact h.moves hlive (hmoves (.refl h.placed hlive))
  have hcurrent : ∀ {f : τ → Kernel τ ι}, s.kernel.apply op = s.kernel.onCurrent f → ∀ t,
      s.kernel.currentThread = some t → s.kernel.apply op = f t := by
    intro f heq t ht
    rw [heq, onCurrent, ht]
  cases op with
  | startup t => exact hmove t hlegal rfl fun hm => hm.startup
  | suspend t => exact hmove t hlegal rfl fun hm => hm.suspend
  | resume t => exact hmove t hlegal rfl fun hm => hm.resume
  | timeout t =>
    exact hmove t hlegal rfl fun hm =>
      (hm.setThread (fun x => { x with error := .etimeout }) hm.live rfl).relist.schedule
  | changePriority t p => exact hmove t hlegal rfl fun hm => hm.changePriority p
  | sleepEnd t =>
    refine hmove t hlegal rfl fun hm => ?_
    rw [Kernel.apply, rtThreadSleepEnd]
    split
    · exact hm.setThread _ hm.live rfl
    · exact hm
  | yield =>
    obtain ⟨t, ht, hlive⟩ := hlegal
    refine hmove t hlive rfl fun hm => ?_
    rw [hcurrent rfl t ht]
    exact hm.yield
  | sleep tick =>
    obtain ⟨t, ht, hlive⟩ := hlegal
    refine hmove t hlive rfl fun hm => ?_
    rw [hcurrent rfl t ht]
    exact (hm.suspend.setThread _ hm.suspend.live rfl).schedule
  | schedule =>
    rw [threadOp_of_not_ended rfl]
    exact h.untouched (rtSchedule_thread _) (rtSchedule_list _)
  | schedulerStart =>
    rw [threadOp_of_not_ended rfl]
    exact h.untouched rfl rfl
  | detach t =>
    have hstatic : (s.kernel.thread t).isStatic = true := htyped
    rw [threadOp_of_ended rfl]
    refine h.ended hlegal (relinked_rtThreadDetach s.kernel t) ?_ ?_
    · rw [Kernel.apply, rtThreadDetach]
      split <;> simp [rtTimerDetach, rtObjectDetach, hstatic]
    · simp [hstatic]
  | delete t =>
    have hstatic : (s.kernel.thread t).isStatic = false := htyped
    have hattached := (fate_live.mp (h.live hlegal)).2.1
    rw [threadOp_of_ended rfl]
    refine h.ended hlegal (relinked_rtThreadDelete s.kernel t) ?_ ?_
    · simp [Kernel.apply, rtThreadDelete, rtTimerDetach, hstatic, hattached]
    · simp [hstatic]
  | exit =>
    obtain ⟨t, ht, hlive⟩ := hlegal
    have hattached := (fate_live.mp (h.live hlive)).2.1
    have hclean := hexit t ht
    have hended : s.kernel.ended .exit = some t := ht
    rw [threadOp_of_ended hended, hcurrent rfl t ht]
    refine h.ended hlive (relinked_rtThreadExit s.kernel t) ?_ ?_
    · rw [rtThreadExit_thread]
      cases hstatic : (s.kernel.thread t).isStatic with
      | false => simp [hattached]
      | true => simp [hclean hstatic]
    · cases hstatic : (s.kernel.thread t).isStatic with
      | false => simp
      | true => simp [hclean hstatic]

theorem Reclaiming.step (h : Reclaiming s) (op : ReaperOp τ ι) (henabled : s.Enabled op)
    (htyped : s.Typed op) (hexit : s.ExitSafe op) : Reclaiming (s.apply op) := by
  cases op with
  | thread op => exact h.threadOp op henabled htyped hexit
  | ipcWait i t flag time =>
    have hready : (s.kernel.thread t).stat = .ready := henabled
    have hlive : (s.kernel.thread t).stat ≠ .close := by simp [hready]
    exact h.moves hlive ((Moves.refl h.placed hlive).ipcWait hready i flag time)
  | timerStop t =>
    have hrunning : (s.kernel.thread t).timerActivated = true := henabled
    have hlive : (s.kernel.thread t).stat ≠ .close := by
      intro hclosed
      have hstopped := (h.fate t).timerStopped fun hphase => phase_eq_live.mp hphase hclosed
      simp [hrunning] at hstopped
    exact h.moves hlive ((Moves.refl h.placed hlive).setThread _ hlive rfl)
  | setCleanup t cleanup =>
    exact h.moves henabled ((Moves.refl h.placed henabled).setThread _ henabled rfl)
  | enterCritical => exact h.untouched rfl rfl
  | exitCritical =>
    refine h.untouched ?_ ?_
    · rw [rtExitCritical]
      split
      · rw [rtSchedule_thread]
      · rfl
    · rw [rtExitCritical]
      split
      · rw [rtSchedule_list]
      · rfl
  | idleTake => exact h.idleTake henabled
  | idleFree => exact h.idleFree

/-- A condition on steps that does not restrict the idle thread. -/
def AllowsIdle (P : Reaper τ ι → ReaperOp τ ι → Prop) : Prop :=
  ∀ s, P s .idleTake ∧ P s .idleFree

/-- What `n` rounds of the idle thread do is a run. It ends with the thread it took off freed, and
the list gets shorter. -/
theorem idleLoop_run (hP : AllowsIdle P) (n : ℕ) (hdead : s.dead = none) :
    (∃ es, Run (StepIf P) s es (idleLoop n s)) ∧ (idleLoop n s).dead = none ∧
      ((idleLoop n s).kernel.list .defunct).length ≤ (s.kernel.list .defunct).length - min n 1 := by
  induction n generalizing s with
  | zero => exact ⟨⟨[], .nil⟩, hdead, by simp [idleLoop]⟩
  | succ n ih =>
    rw [idleLoop]
    split
    · rename_i hempty
      exact ⟨⟨[], .nil⟩, hdead, by simp [hempty]⟩
    · rename_i t ts hlist
      have htake : StepIf P s (.idleTake, ()) s.idleTake := ⟨⟨hdead, rfl⟩, (hP s).1⟩
      split
      · rename_i hstatic
        refine ⟨⟨_, Run.nil.snoc htake⟩, by simp [Reaper.idleTake, hlist, hstatic], ?_⟩
        rw [idleTake_list hlist, hlist]
        simp
      · have hfree : StepIf P s.idleTake (.idleFree, ()) s.idleTake.idleFree :=
          ⟨⟨trivial, rfl⟩, (hP _).2⟩
        obtain ⟨⟨es, hrun⟩, hdead', hlength⟩ := ih idleFree_dead
        refine ⟨⟨_, ((Run.nil.snoc htake).snoc hfree).append hrun⟩, hdead', Nat.le_trans hlength ?_⟩
        rw [idleFree_list, idleTake_list hlist, hlist]
        simp

/-- `n` calls of `rt_thread_idle_excute`. A call may stop at a static thread. -/
theorem idle_calls_run (hP : AllowsIdle P) (n : ℕ) (hdead : s.dead = none) :
    (∃ es, Run (StepIf P) s es (rtThreadIdleExcute^[n] s)) ∧
      (rtThreadIdleExcute^[n] s).dead = none ∧
      ((rtThreadIdleExcute^[n] s).kernel.list .defunct).length ≤
        (s.kernel.list .defunct).length - n := by
  induction n with
  | zero => exact ⟨⟨[], .nil⟩, hdead, Nat.le_refl _⟩
  | succ n ih =>
    obtain ⟨⟨es, hrun⟩, hdead', hlength⟩ := ih
    rw [Function.iterate_succ_apply', rtThreadIdleExcute]
    obtain ⟨⟨es', hrun'⟩, hdead'', hlength'⟩ := idleLoop_run hP
      ((rtThreadIdleExcute^[n] s).kernel.list .defunct).length hdead'
    refine ⟨⟨_, hrun.append hrun'⟩, hdead'', Nat.le_trans hlength' ?_⟩
    omega

def Reclaimable (s : Reaper τ ι) (op : ReaperOp τ ι) : Prop := s.Typed op ∧ s.ExitSafe op

theorem Reclaiming.of_run {s0 : Reaper τ ι} {es : List (ReaperOp τ ι × Unit)} (hfresh : Fresh s0)
    (hrun : Run (StepIf Reclaimable) s0 es s) : Reclaiming s := by
  refine hrun.state_invariant hfresh.reclaiming fun s e s' h hstep => ?_
  obtain ⟨henabled, hcond, rfl⟩ := hstep.eq_apply
  exact h.step e.1 henabled hcond.1 hcond.2

/-- In every run, calls of `rt_thread_idle_excute` empty `rt_thread_defunct`, and once they have,
every thread that has ended is reclaimed. -/
theorem ended_threads_reclaimed {s₀ : Reaper τ ι} {es : List (ReaperOp τ ι × Unit)}
    (hfresh : Fresh s₀) (hrun : Run (StepIf Reclaimable) s₀ es s) (hidle : s.dead = none) :
    (rtThreadIdleExcute^[(s.kernel.list .defunct).length] s).kernel.list .defunct = [] ∧
      ∀ n, (rtThreadIdleExcute^[n] s).kernel.list .defunct = [] → ∀ t,
        ((rtThreadIdleExcute^[n] s).kernel.thread t).stat = .close →
          Reclaimed (rtThreadIdleExcute^[n] s) t := by
  have hP : AllowsIdle (Reclaimable (τ := τ) (ι := ι)) := fun s =>
    ⟨⟨trivial, trivial⟩, ⟨trivial, trivial⟩⟩
  refine ⟨?_, fun n hempty t hclosed => ?_⟩
  · obtain ⟨-, -, hlength⟩ := idle_calls_run hP (s.kernel.list .defunct).length hidle
    rw [Nat.sub_self, Nat.le_zero] at hlength
    exact length_eq_zero_iff.mp hlength
  · obtain ⟨⟨es', hrun'⟩, hdead, -⟩ := idle_calls_run hP n hidle
    exact (Reclaiming.of_run hfresh (hrun.append hrun')).reclaimed hempty hdead hclosed

instance (s : Reaper τ ι) (op : ReaperOp τ ι) : Decidable (s.Typed op) := by
  rcases op with op | _ <;> try cases op
  all_goals dsimp only [Typed]; infer_instance

instance (s : Reaper τ ι) (op : ReaperOp τ ι) : Decidable (s.ExitSafe op) := by
  rcases op with op | _ <;> try cases op
  all_goals dsimp only [ExitSafe]; infer_instance

instance (s : Reaper τ ι) (op : ReaperOp τ ι) : Decidable (s.Reclaimable op) :=
  instDecidableAnd

/-- Four threads, `b` and `d` static. -/
def endings : Reaper Kernel.Quartet Empty where
  kernel :=
    { thread := fun t =>
        { freshThread t.priority 0 with isStatic := decide (t = .b) || decide (t = .d) }
      list := fun _ => []
      readyPriorityGroup := 0
      currentThread := none
      schedulerLockNest := 0 }
  timerAttached _ := true
  cleanups := []
  stackFrees := []
  objectFrees := []
  dead := none

theorem endings_fresh : Fresh endings := by
  constructor <;> intros <;> rfl

/-- `a` and `d` run into `rt_thread_exit`, `b` is detached while it sleeps, `c` is deleted before it
is started; all but `d` have a `cleanup`. -/
theorem ended_threads_reclaimed_four : ∃ es s, Run (StepIf Reclaimable) endings es s ∧
    s.kernel.list .defunct = [.c, .b, .a] ∧
    ∀ t, Reclaimed (rtThreadIdleExcute^[3] s) t := by
  have hrun := machine.run_exec Reclaimable endings
    [.setCleanup .a true, .setCleanup .b true, .setCleanup .c true, .thread (.startup .a),
      .thread (.startup .b), .thread (.startup .d), .thread .schedulerStart, .thread .exit,
      .thread (.sleep 7), .thread (.detach .b), .thread .exit, .thread (.delete .c)]
  refine ⟨_, _, hrun, by decide +kernel, fun t => ?_⟩
  have hall := ended_threads_reclaimed endings_fresh hrun (by decide +kernel)
  exact hall.2 3 (by decide +kernel) t (by cases t <;> decide +kernel)

/-- A static thread with a `cleanup` that runs into `rt_thread_exit` stays in the list of thread
objects. -/
theorem static_exit_stays_attached : Fresh endings ∧ ∃ es s, Run (StepIf Typed) endings es s ∧
      (s.kernel.thread .d).stat = .close ∧ s.dead = none ∧
      s.rtThreadIdleExcute.kernel.list .defunct = [] ∧
      (s.rtThreadIdleExcute.kernel.thread .d).attached = true := by
  have hrun := machine.run_exec Typed endings
    [.thread (.startup .d), .setCleanup .d true, .thread .schedulerStart, .thread .exit]
  exact ⟨endings_fresh, _, _, hrun, by decide +kernel⟩

end Reaper
end RtThread
