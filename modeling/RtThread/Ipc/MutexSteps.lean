import Mathlib.Order.Fin.Basic
import RtThread.Ipc.Mutex

/-!
# What a step does to the mutexes

An abstract model of the mutexes: who waits where, who owns what, and the priorities, with one kind
of step for each way through `rt_mutex_take` and `rt_mutex_release`. Every step of the code is such
a step (`MutexSys.view_step`).
-/

namespace RtThread
open Kernel
open Function

/-- The abstract state; `w.waiting` is the mutex that a thread is taking. -/
structure MutexView (τ μ : Type*) where
  w : WaitView τ μ
  mutex : μ → Mutex τ

namespace MutexView
variable {τ μ : Type*}

/-- A mutex that `t` has just become the owner of. -/
def grant (v : MutexView τ μ) (t : τ) (m : μ) : Mutex τ where
  flag := (v.mutex m).flag
  value := 0
  originalPriority := some (v.w.priority t)
  hold := 1
  owner := some t

inductive Step [DecidableEq τ] [DecidableEq μ] (v : MutexView τ μ) :
    MutexOp τ μ × Option RtErr → MutexView τ μ → Prop
  /-- the owner takes the mutex once more -/
  | again {t m time} : v.w.Idle t → (v.mutex m).owner = some t →
      Step v (.take t m time, some .eok) ⟨v.w.setError t .eok,
        update v.mutex m { v.mutex m with hold := (v.mutex m).hold + 1 }⟩
  | acquire {t m time} : v.w.Idle t → (v.mutex m).owner = none →
      Step v (.take t m time, some .eok) ⟨v.w.setError t .eok, update v.mutex m (v.grant t m)⟩
  | refuse {t m o} : v.w.Idle t → (v.mutex m).owner = some o → o ≠ t →
      Step v (.take t m 0, some .etimeout) ⟨v.w.setError t .etimeout, v.mutex⟩
  /-- the owner gets the priority of a more urgent thread -/
  | block {t m time o} : v.w.Idle t → (v.mutex m).owner = some o → o ≠ t → time ≠ 0 →
      Step v (.take t m time, none) ⟨(v.w.setPriority o
        (min (v.w.priority t) (v.w.priority o))).block t m (v.mutex m).flag, v.mutex⟩
  /-- a thread that waited runs again and returns -/
  | takeEnd {t m} : v.w.stat t = .ready → v.w.waiting t = some m →
      Step v (.takeEnd t m, some (v.w.error t)) ⟨v.w.leave t, v.mutex⟩
  /-- release by a thread that is not the owner -/
  | foreign {t m} : v.w.Idle t → (v.mutex m).owner ≠ some t →
      Step v (.release t m, some .error) ⟨v.w.setError t .error, v.mutex⟩
  | lower {t m} : v.w.Idle t → (v.mutex m).owner = some t → (v.mutex m).hold ≠ 1 →
      Step v (.release t m, some .eok) ⟨v.w,
        update v.mutex m { v.mutex m with hold := (v.mutex m).hold - 1 }⟩
  | free {t m p} : v.w.Idle t → (v.mutex m).owner = some t → (v.mutex m).hold = 1 →
      (v.mutex m).originalPriority = some p → v.w.wait m = [] →
      Step v (.release t m, some .eok) ⟨v.w.setPriority t p,
        update v.mutex m (rtMutexInit (v.mutex m).flag)⟩
  /-- the mutex goes to the first thread of the suspend list -/
  | handOver {t m p u us} : v.w.Idle t → (v.mutex m).owner = some t → (v.mutex m).hold = 1 →
      (v.mutex m).originalPriority = some p → v.w.wait m = u :: us →
      Step v (.release t m, some .eok) ⟨(v.w.setPriority t p).resume u m us,
        update v.mutex m (v.grant u m)⟩
  | timeout {t} : v.w.stat t = .suspend → Step v (.timeout t, none) ⟨v.w.timeout t, v.mutex⟩

structure Ok (v : MutexView τ μ) : Prop where
  w : v.w.Ok
  free : ∀ {m}, (v.mutex m).owner = none →
    v.mutex m = rtMutexInit (v.mutex m).flag ∧ v.w.wait m = []
  held : ∀ {m t}, (v.mutex m).owner = some t →
    (v.mutex m).value = 0 ∧ (v.mutex m).originalPriority.isSome = true ∧ t ∉ v.w.wait m
  /-- a thread that waited for a mutex and was not timed out owns it -/
  handed : ∀ {t m}, v.w.stat t = .ready → v.w.waiting t = some m →
    (v.w.error t = .eok ↔ (v.mutex m).owner = some t)

variable {v v' : MutexView τ μ} {e : MutexOp τ μ × Option RtErr} {t u o : τ} {m : μ} {us : List τ}

section
variable [DecidableEq μ] (h : Ok v)
include h

theorem Ok.setMutex {x : Mutex τ}
    (hfree : x.owner = none → x = rtMutexInit x.flag ∧ v.w.wait m = [])
    (hheld : ∀ u, x.owner = some u →
      x.value = 0 ∧ x.originalPriority.isSome = true ∧ u ∉ v.w.wait m)
    (hhanded : ∀ u, v.w.stat u = .ready → v.w.waiting u = some m →
      (v.w.error u = .eok ↔ x.owner = some u)) :
    Ok ⟨v.w, update v.mutex m x⟩ := by
  refine ⟨h.w, ?_, ?_, ?_⟩
  · intro m' hm'
    by_cases hm : m' = m
    · subst hm
      simpa using hfree (by simpa using hm')
    · simpa [hm] using h.free (by simpa [hm] using hm')
  · intro m' u hm'
    by_cases hm : m' = m
    · subst hm
      simpa using hheld u (by simpa using hm')
    · simpa [hm] using h.held (by simpa [hm] using hm')
  · intro u m' hs hu
    by_cases hm : m' = m
    · subst hm
      simpa using hhanded u hs hu
    · simpa [hm] using h.handed hs hu

theorem Ok.setHold (ho : (v.mutex m).owner = some t) (n : BitVec 8) :
    Ok ⟨v.w, update v.mutex m { v.mutex m with hold := n }⟩ := by
  refine h.setMutex (fun hnone => ?_) (fun u hu => h.held hu) fun u hs hu => h.handed hs hu
  cases ho.symm.trans hnone

theorem Ok.acquire (hidle : v.w.Idle t) (ho : (v.mutex m).owner = none) :
    Ok ⟨v.w, update v.mutex m (v.grant t m)⟩ := by
  refine h.setMutex (fun hnone => ?_) (fun u hu => ?_) fun u hs hu => ?_
  · cases hnone
  · cases hu
    exact ⟨rfl, rfl, h.w.not_mem_of_ready hidle.1⟩
  · -- nobody was handed the mutex before, and the new owner is not inside a call
    rw [h.handed hs hu, ho]
    simp [grant, hidle.ne hu]

theorem Ok.release (hidle : v.w.Idle t) (ho : (v.mutex m).owner = some t)
    (hw : v.w.wait m = []) : Ok ⟨v.w, update v.mutex m (rtMutexInit (v.mutex m).flag)⟩ := by
  refine h.setMutex (fun _ => ⟨rfl, hw⟩) (fun u hu => ?_) fun u hs hu => ?_
  · cases hu
  · rw [h.handed hs hu, ho]
    simp [rtMutexInit, hidle.ne hu]

end

variable [DecidableEq τ]

section
variable (h : Ok v)
include h

theorem Ok.setError (hidle : v.w.Idle t) (x : RtErr) : Ok ⟨v.w.setError t x, v.mutex⟩ where
  w := h.w.setError hidle.1 x
  free := h.free
  held := h.held
  handed := by
    intro u m hs hu
    simpa [(hidle.ne hu).symm] using h.handed hs hu

theorem Ok.setPriority (p : Fin 32) : Ok ⟨v.w.setPriority t p, v.mutex⟩ :=
  ⟨h.w.setPriority p, h.free, h.held, h.handed⟩

theorem Ok.timeout (hs : v.w.stat t = .suspend) : Ok ⟨v.w.timeout t, v.mutex⟩ where
  w := h.w.timeout
  free := by
    intro m hm
    obtain ⟨hinit, hwait⟩ := h.free hm
    exact ⟨hinit, by simp [hwait]⟩
  held := by
    intro m u hm
    obtain ⟨hvalue, horiginal, hmem⟩ := h.held hm
    exact ⟨hvalue, horiginal, fun hu => hmem (List.mem_of_mem_erase hu)⟩
  handed := by
    intro u m hus hu
    by_cases hut : u = t
    · -- a thread that times out was in the suspend list, and so not the owner
      subst hut
      have hmem := h.w.mem.mpr ⟨hs, hu⟩
      simpa using fun ho => (h.held ho).2.2 hmem
    · simpa [hut] using h.handed (by simpa [hut] using hus) hu

theorem Ok.takeEnd (hs : v.w.stat t = .ready) : Ok ⟨v.w.leave t, v.mutex⟩ where
  w := h.w.leave hs
  free := h.free
  held := h.held
  handed := by
    intro u m hus hu
    have hut : u ≠ t := by
      rintro rfl
      simp at hu
    exact h.handed hus (by simpa [hut] using hu)

variable [DecidableEq μ]

theorem Ok.handOver (hidle : v.w.Idle t) (ho : (v.mutex m).owner = some t)
    (hw : v.w.wait m = u :: us) :
    Ok ⟨v.w.resume u m us, update v.mutex m (v.grant u m)⟩ := by
  have hmem : u ∈ v.w.wait m := by simp [hw]
  have hwaiting := (h.w.mem.mp hmem).2
  refine ⟨h.w.resume hw, ?_, ?_, ?_⟩
  · intro m' hm'
    have hm : m' ≠ m := by
      rintro rfl
      simp [grant] at hm'
    simpa [hm] using h.free (by simpa [hm] using hm')
  · intro m' x hm'
    by_cases hm : m' = m
    · subst hm
      obtain rfl : u = x := by simpa [grant] using hm'
      exact ⟨by simp [grant], by simp [grant], fun hx => ((h.w.mem_resume hw).mp hx).1 rfl⟩
    · simpa [hm] using h.held (by simpa [hm] using hm')
  · intro x m' hs hx
    by_cases hxu : x = u
    · subst hxu
      cases hx.symm.trans hwaiting
      simpa [grant] using h.w.error hmem
    · have hold := h.handed (by simpa [hxu] using hs) hx
      by_cases hm : m' = m
      · subst hm
        simpa [grant, Ne.symm hxu, ho, hidle.ne hx] using hold
      · simpa [hm] using hold

theorem Ok.block (hidle : v.w.Idle t) (ho : (v.mutex m).owner = some o) (hne : o ≠ t)
    (flag : IpcFlag) : Ok ⟨v.w.block t m flag, v.mutex⟩ where
  w := h.w.block hidle.1
  free := by
    intro m' hm'
    have hm : m' ≠ m := by
      rintro rfl
      cases ho.symm.trans hm'
    simpa [hm] using h.free hm'
  held := by
    intro m' u hm'
    obtain ⟨hvalue, horiginal, hmem⟩ := h.held hm'
    refine ⟨hvalue, horiginal, fun hu => ?_⟩
    rcases WaitView.mem_block.mp hu with ⟨rfl, rfl⟩ | hu
    · exact hne (Option.some.inj (ho.symm.trans hm'))
    · exact hmem hu
  handed := by
    intro u m' hs hu
    have hut : u ≠ t := by
      rintro rfl
      simp at hs
    simp only [WaitView.block_stat, WaitView.block_waiting, WaitView.block_error,
      update_of_ne hut] at hs hu ⊢
    exact h.handed hs hu

end

variable [DecidableEq μ]

theorem Ok.step (h : Ok v) (hstep : v.Step e v') : Ok v' := by
  cases hstep with
  | again hidle ho => exact (h.setError hidle .eok).setHold ho _
  | acquire hidle ho => exact (h.setError hidle .eok).acquire hidle ho
  | refuse hidle _ _ => exact h.setError hidle .etimeout
  | block hidle ho hne _ => exact (h.setPriority _).block hidle ho hne _
  | takeEnd hs _ => exact h.takeEnd hs
  | foreign hidle _ => exact h.setError hidle .error
  | lower hidle ho _ => exact h.setHold ho _
  | free hidle ho _ _ hw => exact (h.setPriority _).release hidle ho hw
  | handOver hidle ho _ _ hw =>
    exact (h.handOver hidle ho hw).setPriority _
  | timeout hs => exact h.timeout hs

end MutexView

namespace MutexSys
variable {τ μ : Type*}

def view (s : MutexSys τ μ) : MutexView τ μ := ⟨s.k.view s.taking, s.mutex⟩

/-- The invariant of the code: the scheduler and the suspend lists are in order, and the view is. -/
structure Ok (s : MutexSys τ μ) : Prop where
  k : s.k.WaitOk
  view : s.view.Ok

variable {s s' : MutexSys τ μ} {e : MutexOp τ μ × Option RtErr} {t o : τ} {m : μ} {k : Kernel τ μ}

theorem view_eq {v : MutexView τ μ} (hw : s.k.view s.taking = v.w) (hmutex : s.mutex = v.mutex) :
    s.view = v := by
  rw [view, hw, hmutex]

theorem Start.ok (h : Start s) : Ok s where
  k := h.k
  view := by
    have htaking : s.taking = fun _ => none := funext h.idle
    refine ⟨?_, fun _ => ?_, fun hm => ?_, fun _ hu => ?_⟩
    · rw [view, htaking]
      exact view_ok_of_empty h.empty
    · rename_i m _
      obtain ⟨flag, hflag⟩ := h.mutex m
      exact ⟨by simp [view, hflag, rtMutexInit], h.empty m⟩
    · rename_i m _
      obtain ⟨flag, hflag⟩ := h.mutex m
      simp [view, hflag, rtMutexInit] at hm
    · simp [view, htaking] at hu

variable [DecidableEq τ] [DecidableEq μ]

theorem raiseOwner_view (h : k.WaitOk) (waiting : τ → Option μ) :
    (raiseOwner t k (some o)).view waiting = (k.view waiting).setPriority o
      (min (k.thread t).currentPriority (k.thread o).currentPriority) := by
  rw [raiseOwner]
  split
  · rename_i hlt
    rw [h.view_changePriority, min_eq_left hlt.le]
  · rename_i hle
    rw [min_eq_right (not_lt.mp hle)]
    ext : 1 <;> simp [WaitView.setPriority]

theorem restorePriority_view (h : k.WaitOk) (waiting : τ → Option μ) (p : Fin 32) :
    (restorePriority t k (some p)).view waiting = (k.view waiting).setPriority t p := by
  rw [restorePriority]
  split
  · rw [h.view_changePriority]
  · rename_i heq
    rw [not_not.mp heq]
    ext : 1 <;> simp [WaitView.setPriority]

theorem restorePriority_ok (h : k.WaitOk) (p : Fin 32) : (restorePriority t k (some p)).WaitOk := by
  rw [restorePriority]
  split
  · exact h.rtThreadChangePriority p
  · exact h

theorem step_of_view {v : MutexView τ μ} (hstep : s.view.Step e v)
    (hw : s'.k.view s'.taking = v.w) (hmutex : s'.mutex = v.mutex) : s.view.Step e s'.view := by
  rwa [view_eq hw hmutex]

/-- The thread has to wait: the owner gets the more urgent priority, then the thread is suspended.
-/
theorem blocked_step (h : Ok s) (hidle : s.Idle t) (howner : (s.mutex m).owner = some o)
    (hne : o ≠ t) {time : BitVec 32} (htime : time ≠ 0) :
    let k := (raiseOwner t (s.setError t .eok).k (some o)).ipcWait m t (s.mutex m).flag time
    s.view.Step (.take t m time, none)
      (view { s with k := k, taking := update s.taking t (some m) }) ∧ k.WaitOk := by
  have hk : (s.setError t .eok).k.WaitOk := h.k.setError .eok
  have hthread : (raiseOwner t (s.setError t .eok).k (some o)).thread t =
      { s.k.thread t with error := .eok } := by
    rw [raiseOwner_thread]
    simp
  have hview := raiseOwner_view (t := t) (o := o) hk s.taking
  have hraised := raiseOwner_ok (t := t) hk (some o)
  generalize raiseOwner t (s.setError t .eok).k (some o) = k at hthread hview hraised
  have hready : (k.thread t).stat = .ready := by
    rw [hthread]
    exact hidle.1
  refine ⟨step_of_view (.block hidle howner hne htime) ?_ rfl, hraised.ipcWait hready⟩
  refine (hraised.view_ipcWait hready (by rw [hthread])).trans ?_
  -- the priorities are those before the error was reset, and that is overwritten in any case
  have hprio : ∀ u, ((s.setError t .eok).k.thread u).currentPriority =
      (s.k.thread u).currentPriority := by
    intro u
    by_cases hu : u = t
    · subst hu
      simp
    · simp [hu]
  rw [hview, hprio, hprio, setError_k, view_setError]
  simp [WaitView.block, WaitView.setPriority, WaitView.setError, view]

theorem rtMutexTake_step (h : Ok s) (hidle : s.Idle t) {time : BitVec 32} {r : Option RtErr}
    (htake : s.rtMutexTake t m time = (r, s')) :
    s.view.Step (.take t m time, r) s'.view ∧ s'.k.WaitOk := by
  have hk : (s.setError t .eok).k.WaitOk := h.k.setError .eok
  have hidle' : s.view.w.Idle t := hidle
  rw [rtMutexTake] at htake
  split at htake
  · rename_i ho
    cases htake
    exact ⟨step_of_view (.again hidle' ho) (view_setError .eok) rfl, hk⟩
  · rename_i ho
    cases howner : (s.mutex m).owner with
    | none =>
      -- a mutex without an owner is as `rt_mutex_init` left it
      have hfree : s.mutex m = rtMutexInit (s.mutex m).flag := (h.view.free howner).1
      have hvalue : (s.mutex m).value = 1 := congrArg Mutex.value hfree
      have hhold : (s.mutex m).hold = 0 := congrArg Mutex.hold hfree
      rw [if_pos (by simp [hvalue])] at htake
      cases htake
      refine ⟨step_of_view (.acquire hidle' howner) (view_setError .eok) ?_, hk⟩
      simp [MutexView.grant, hvalue, hhold, view]
    | some o =>
      have hvalue : (s.mutex m).value = 0 := (h.view.held howner).1
      have hne : o ≠ t := fun heq => ho (heq ▸ howner)
      rw [if_neg (by simp [hvalue])] at htake
      split at htake
      · rename_i htime
        cases htake
        subst htime
        refine ⟨step_of_view (.refuse hidle' howner hne) ?_ rfl, hk.setError .etimeout⟩
        simp [view, WaitView.setError, view_setError]
      · rename_i htime
        cases htake
        have hblock := blocked_step h hidle howner hne htime
        rwa [← howner] at hblock

/-- The last release: the owner gets its old priority, and the mutex goes to the first waiting
thread or becomes free. -/
theorem last_step (h : Ok s) (hidle : s.Idle t) (ho : (s.mutex m).owner = some t)
    (hhold : (s.mutex m).hold = 1) {r : RtErr} (hrelease : s.rtMutexRelease t m = (r, s')) :
    s.view.Step (.release t m, some r) s'.view ∧ s'.k.WaitOk := by
  obtain ⟨hvalue, hsome, hfree⟩ := h.view.held ho
  change (s.mutex m).value = 0 at hvalue
  obtain ⟨p, hp⟩ : ∃ p, (s.mutex m).originalPriority = some p := Option.isSome_iff_exists.mp hsome
  have hk := restorePriority_ok (t := t) h.k p
  have hview := restorePriority_view (t := t) h.k s.taking p
  have hthread : ∀ u, u ≠ t → ((restorePriority t s.k (some p)).thread u).currentPriority =
      (s.k.thread u).currentPriority := by
    intro u hu
    have := congrFun (congrArg WaitView.priority hview) u
    simpa [hu] using this
  rw [rtMutexRelease, if_neg (not_not.mpr ho)] at hrelease
  simp only [setMutex_mutex, update_self, hhold, BitVec.sub_self, setMutex_k, hp] at hrelease
  rw [if_pos (by decide)] at hrelease
  generalize restorePriority t s.k (some p) = k at hk hview hthread hrelease
  have hwait : k.list (.wait m) = s.k.list (.wait m) := congrFun (congrArg WaitView.wait hview) m
  split at hrelease
  · rename_i w ws hlist
    cases hrelease
    have hmem : w ∈ s.k.list (.wait m) := by simp [← hwait, hlist]
    have hwt : w ≠ t := by
      rintro rfl
      exact hfree hmem
    refine ⟨step_of_view (.handOver hidle ho hhold hp (hwait.symm.trans hlist)) ?_ ?_,
      hk.rtIpcListResume⟩
    · exact (hk.view_resume hlist).trans (congrArg (WaitView.resume · w m ws) hview)
    · simp [MutexView.grant, hthread w hwt, hvalue, view]
  · rename_i hlist
    cases hrelease
    refine ⟨step_of_view (.free hidle ho hhold hp (hwait.symm.trans hlist)) hview ?_, hk⟩
    simp [rtMutexInit, hvalue, view]

theorem rtMutexRelease_step (h : Ok s) (hidle : s.Idle t) {r : RtErr}
    (hrelease : s.rtMutexRelease t m = (r, s')) :
    s.view.Step (.release t m, some r) s'.view ∧ s'.k.WaitOk := by
  by_cases ho : (s.mutex m).owner = some t
  · by_cases hhold : (s.mutex m).hold = 1
    · exact last_step h hidle ho hhold hrelease
    · have hne : (s.mutex m).hold - 1 ≠ 0 := by
        intro heq
        exact hhold (by bv_omega)
      rw [rtMutexRelease, if_neg (not_not.mpr ho)] at hrelease
      simp only [setMutex_mutex, update_self, if_neg hne] at hrelease
      cases hrelease
      exact ⟨step_of_view (.lower hidle ho hhold) rfl rfl, h.k⟩
  · rw [rtMutexRelease, if_pos ho] at hrelease
    cases hrelease
    exact ⟨step_of_view (.foreign hidle ho) (view_setError .error) rfl, h.k.setError .error⟩

theorem view_step (h : Ok s) (hstep : s.Step e s') : s.view.Step e s'.view ∧ s'.k.WaitOk := by
  obtain ⟨op, r⟩ := e
  obtain ⟨henabled, happly⟩ := hstep
  cases op with
  | take t m time => exact rtMutexTake_step h henabled happly
  | takeEnd t m =>
    obtain ⟨hs, htaking⟩ := henabled
    cases happly
    have hreturn : s.rtMutexTakeEnd t =
        ((s.k.thread t).error, { s with taking := update s.taking t none }) := by
      rw [rtMutexTakeEnd]
      split
      · rfl
      · rename_i heok
        rw [not_not.mp heok]
    rw [hreturn]
    exact ⟨step_of_view (.takeEnd hs htaking) rfl rfl, h.k⟩
  | release t m =>
    cases happly
    exact rtMutexRelease_step h henabled rfl
  | timeout t =>
    cases happly
    have hs := h.k.timer t henabled
    exact ⟨step_of_view (.timeout hs) view_timeout rfl, h.k.rtTimerCheck hs⟩

theorem Ok.step (h : Ok s) (hstep : s.Step e s') : Ok s' :=
  ⟨(view_step h hstep).2, h.view.step (view_step h hstep).1⟩

end MutexSys
end RtThread
