import Mathlib.Data.Finset.Card
import RtThread.Ipc.Wait

/-!
# The waiting threads, abstractly

What an IPC object sees of the kernel: which threads are suspended, in which list they wait and in
which order, with what error they will be woken, and their priorities. Each helper of `ipc.c` is one
operation on this view, and `WaitView.Ok` is kept by all of them: the suspended threads inside a
call are those in the suspend lists, and a thread that waits has no error yet.
-/

namespace RtThread
open Function
open List

/-- The abstract state. `waiting` is the list a thread waits in, or has waited in and not left the
call yet. -/
@[ext] structure WaitView (τ ι : Type*) where
  stat : τ → ThreadStat
  error : τ → RtErr
  priority : τ → Fin 32
  initPriority : τ → Fin 32
  wait : ι → List τ
  waiting : τ → Option ι

namespace WaitView
variable {τ ι : Type*}

section Operations
variable (v : WaitView τ ι) (t : τ)

/-- The thread is ready and not inside a call. -/
def Idle : Prop := v.stat t = .ready ∧ v.waiting t = none

variable [DecidableEq τ]

@[simps] def setError (e : RtErr) : WaitView τ ι := { v with error := update v.error t e }

@[simps] def setPriority (p : Fin 32) : WaitView τ ι := { v with priority := update v.priority t p }

@[simps] def timeout : WaitView τ ι :=
  { v with
    stat := update v.stat t .ready
    error := update v.error t .etimeout
    wait := fun i => (v.wait i).erase t }

/-- The thread runs again, behind `rt_schedule`. -/
@[simps] def leave : WaitView τ ι := { v with waiting := update v.waiting t none }

variable [DecidableEq ι] (i : ι)

@[simps] def block (flag : IpcFlag) : WaitView τ ι :=
  { v with
    stat := update v.stat t .suspend
    error := update v.error t .eok
    wait := update v.wait i (waitInsert v.priority t flag (v.wait i))
    waiting := update v.waiting t (some i) }

/-- The thread, the first of the list, is resumed, and the others stay. -/
@[simps] def resume (ts : List τ) : WaitView τ ι :=
  { v with
    stat := update v.stat t .ready
    wait := update v.wait i ts }

/-- The first thread of the list is resumed, if there is one. -/
def resumeFirst : WaitView τ ι :=
  match v.wait i with
  | [] => v
  | t :: ts => v.resume t i ts

end Operations

structure Ok (v : WaitView τ ι) : Prop where
  nodup : ∀ i, (v.wait i).Nodup
  mem : ∀ {t i}, t ∈ v.wait i ↔ v.stat t = .suspend ∧ v.waiting t = some i
  error : ∀ {t i}, t ∈ v.wait i → v.error t = .eok

variable {v v' : WaitView τ ι} {t u : τ} {i j : ι} {flag : IpcFlag} {ts : List τ} {n : Nat}

theorem Idle.ne (h : v.Idle t) (hu : v.waiting u = some i) : t ≠ u := by
  rintro rfl
  cases h.2.symm.trans hu

theorem Ok.not_mem_of_ready (h : Ok v) (hs : v.stat t = .ready) : t ∉ v.wait i := by
  intro hmem
  have hsuspend := (h.mem.mp hmem).1
  rw [hs] at hsuspend
  cases hsuspend

/-! ### The threads that were resumed

A thread that an object resumed is ready and has no error, and it is still inside its call. Those of
one list are counted. -/

/-- The thread waited in the list, was resumed, and has not run yet. -/
def Woken (v : WaitView τ ι) (t : τ) (i : ι) : Prop :=
  v.waiting t = some i ∧ v.stat t = .ready ∧ v.error t = .eok

/-- There are `n` of them. -/
def WokenCount (v : WaitView τ ι) (i : ι) (n : Nat) : Prop :=
  ∃ woken : Finset τ, (∀ t, t ∈ woken ↔ v.Woken t i) ∧ woken.card = n

theorem WokenCount.congr (h : WokenCount v i n) (hiff : ∀ t, v'.Woken t i ↔ v.Woken t i) :
    WokenCount v' i n := by
  obtain ⟨woken, hmem, hcard⟩ := h
  exact ⟨woken, fun t => (hmem t).trans (hiff t).symm, hcard⟩

theorem wokenCount_zero (h : ∀ t, v.waiting t = none) : WokenCount v i 0 :=
  ⟨∅, fun t => by simp [Woken, h], rfl⟩

theorem Ok.not_woken (h : Ok v) (ht : t ∈ v.wait j) : ¬ v.Woken t i := by
  simp [Woken, (h.mem.mp ht).1]

variable [DecidableEq τ]

theorem Ok.setError (h : Ok v) (hs : v.stat t = .ready) (e : RtErr) : Ok (v.setError t e) where
  nodup := h.nodup
  mem := h.mem
  error := by
    intro u i hu
    have hut : u ≠ t := by
      rintro rfl
      exact h.not_mem_of_ready hs hu
    simpa [hut] using h.error hu

theorem Ok.setPriority (h : Ok v) (p : Fin 32) : Ok (v.setPriority t p) := ⟨h.nodup, h.mem, h.error⟩

theorem Ok.mem_timeout (h : Ok v) : u ∈ (v.timeout t).wait i ↔ u ≠ t ∧ u ∈ v.wait i :=
  (h.nodup i).mem_erase_iff

theorem Ok.timeout (h : Ok v) : Ok (v.timeout t) where
  nodup i := (h.nodup i).erase t
  mem := by
    intro u i
    rw [h.mem_timeout, h.mem]
    by_cases hu : u = t <;> simp [hu]
  error := by
    intro u i hu
    rw [h.mem_timeout] at hu
    simpa [hu.1] using h.error hu.2

theorem Ok.leave (h : Ok v) (hs : v.stat t = .ready) : Ok (v.leave t) where
  nodup := h.nodup
  mem := by
    intro u i
    rw [leave_wait, h.mem]
    by_cases hu : u = t
    · subst hu
      simp [hs]
    · simp [hu]
  error := h.error

theorem woken_of_update (hother : ∀ u, u ≠ t → (v'.Woken u i ↔ v.Woken u i))
    (hbefore : ¬ v.Woken t i) (hafter : ¬ v'.Woken t i) : v'.Woken u i ↔ v.Woken u i := by
  by_cases hu : u = t
  · subst hu
    exact iff_of_false hafter hbefore
  · exact hother u hu

theorem Idle.woken_setError (hidle : v.Idle t) {e : RtErr} :
    (v.setError t e).Woken u i ↔ v.Woken u i :=
  woken_of_update (t := t) (fun u hu => by simp [Woken, hu]) (by simp [Woken, hidle.2])
    (by simp [Woken, hidle.2])

theorem woken_timeout (hs : v.stat t = .suspend) : (v.timeout t).Woken u i ↔ v.Woken u i :=
  woken_of_update (t := t) (fun u hu => by simp [Woken, hu]) (by simp [Woken, hs])
    (by simp [Woken])

theorem woken_leave (hnot : ¬ v.Woken t i) : (v.leave t).Woken u i ↔ v.Woken u i :=
  woken_of_update (fun u hu => by simp [Woken, hu]) hnot (by simp [Woken])

theorem woken_of_leave (h : (v.leave t).Woken u i) : v.Woken u i := by
  have hu : u ≠ t := by
    rintro rfl
    simp [Woken] at h
  simpa [Woken, hu] using h

section
variable (h : WokenCount v i n)
include h

theorem WokenCount.setError (hidle : v.Idle t) (e : RtErr) :
    WokenCount (v.setError t e) i n := h.congr fun _ => hidle.woken_setError

theorem WokenCount.timeout (hs : v.stat t = .suspend) :
    WokenCount (v.timeout t) i n := h.congr fun _ => woken_timeout hs

theorem WokenCount.leave (hnot : ¬ v.Woken t i) :
    WokenCount (v.leave t) i n := h.congr fun _ => woken_leave hnot

theorem WokenCount.leave_woken (hwoken : v.Woken t i) :
    ∃ n', n = n' + 1 ∧ WokenCount (v.leave t) i n' := by
  obtain ⟨woken, hmem, hcard⟩ := h
  have ht := (hmem t).mpr hwoken
  refine ⟨(woken.erase t).card, ?_, woken.erase t, fun u => ?_, rfl⟩
  · rw [Finset.card_erase_add_one ht, hcard]
  · rw [Finset.mem_erase, hmem]
    by_cases hu : u = t <;> simp [hu, Woken]

end

variable [DecidableEq ι]

theorem mem_block : u ∈ (v.block t i flag).wait j ↔ (u = t ∧ j = i) ∨ u ∈ v.wait j := by
  by_cases hj : j = i
  · subst hj
    simp
  · simp [hj]

theorem Ok.block (h : Ok v) (hs : v.stat t = .ready) : Ok (v.block t i flag) where
  nodup j := by
    by_cases hj : j = i
    · subst hj
      simp only [block_wait, update_self, (waitInsert_perm v.priority t flag _).nodup_iff,
        nodup_cons]
      exact ⟨h.not_mem_of_ready hs, h.nodup _⟩
    · simpa [hj] using h.nodup j
  mem := by
    intro u j
    rw [mem_block]
    by_cases hu : u = t
    · subst hu
      simp [h.not_mem_of_ready hs, eq_comm]
    · simp [hu, h.mem]
  error := by
    intro u j hu
    by_cases hut : u = t
    · subst hut
      simp
    · have hold := (mem_block.mp hu).resolve_left fun hnew => hut hnew.1
      simpa [hut] using h.error hold

theorem Ok.mem_resume (h : Ok v) (hwait : v.wait i = t :: ts) :
    u ∈ (v.resume t i ts).wait j ↔ u ≠ t ∧ u ∈ v.wait j := by
  have hnodup := h.nodup i
  rw [hwait, nodup_cons] at hnodup
  by_cases hj : j = i
  · subst hj
    simp only [resume_wait, update_self, hwait, mem_cons]
    constructor
    · intro hu
      exact ⟨fun heq => hnodup.1 (heq ▸ hu), .inr hu⟩
    · rintro ⟨hne, hu⟩
      exact hu.resolve_left hne
  · simp only [resume_wait, update_of_ne hj]
    refine ⟨fun hu => ⟨?_, hu⟩, And.right⟩
    rintro rfl
    -- a thread waits in one list only
    have hi : u ∈ v.wait i := by simp [hwait]
    have heq := (h.mem.mp hu).2.symm.trans (h.mem.mp hi).2
    exact hj (Option.some.inj heq)

theorem Ok.resume (h : Ok v) (hwait : v.wait i = t :: ts) : Ok (v.resume t i ts) where
  nodup j := by
    by_cases hj : j = i
    · subst hj
      have hnodup := h.nodup j
      rw [hwait, nodup_cons] at hnodup
      simpa using hnodup.2
    · simpa [hj] using h.nodup j
  mem := by
    intro u j
    rw [h.mem_resume hwait, h.mem]
    by_cases hu : u = t <;> simp [hu]
  error hu := h.error ((h.mem_resume hwait).mp hu).2

theorem resumeFirst_wait_of_ne (hne : j ≠ i) : (v.resumeFirst i).wait j = v.wait j := by
  rw [resumeFirst]
  split
  · rfl
  · simp [hne]

theorem Ok.resumeFirst (h : Ok v) : Ok (v.resumeFirst i) := by
  rw [WaitView.resumeFirst]
  split
  · exact h
  · rename_i hwait
    exact h.resume hwait

theorem Idle.woken_block (hidle : v.Idle t) : (v.block t j flag).Woken u i ↔ v.Woken u i :=
  woken_of_update (t := t) (fun u hu => by simp [Woken, hu]) (by simp [Woken, hidle.2])
    (by simp [Woken])

theorem WokenCount.block (h : WokenCount v i n) (hidle : v.Idle t) :
    WokenCount (v.block t j flag) i n := h.congr fun _ => hidle.woken_block

theorem Ok.woken_resume (h : Ok v) (ht : t ∈ v.wait j) : (v.resume t j ts).Woken t i ↔ j = i := by
  simp [Woken, (h.mem.mp ht).2, h.error ht]

section
variable (h : WokenCount v i n) (hok : Ok v)
include h hok

theorem WokenCount.resume (hwait : v.wait i = t :: ts) :
    WokenCount (v.resume t i ts) i (n + 1) := by
  have hin : t ∈ v.wait i := by simp [hwait]
  obtain ⟨woken, hmem, hcard⟩ := h
  have ht : t ∉ woken := fun ht => hok.not_woken hin ((hmem t).mp ht)
  refine ⟨insert t woken, fun u => ?_, by rw [Finset.card_insert_of_notMem ht, hcard]⟩
  rw [Finset.mem_insert, hmem]
  by_cases hu : u = t
  · simp [hu, hok.woken_resume hin]
  · simp [hu, Woken]

theorem WokenCount.resume_of_ne (hwait : v.wait j = t :: ts)
    (hne : j ≠ i) : WokenCount (v.resume t j ts) i n := by
  have hin : t ∈ v.wait j := by simp [hwait]
  exact h.congr fun _ => woken_of_update (fun u hu => by simp [Woken, hu])
    (hok.not_woken hin) (mt (hok.woken_resume hin).mp hne)

theorem WokenCount.resumeFirst (hwait : v.wait i ≠ []) :
    WokenCount (v.resumeFirst i) i (n + 1) := by
  obtain ⟨t, ts, hcons⟩ := exists_cons_of_ne_nil hwait
  rw [WaitView.resumeFirst, hcons]
  exact h.resume hok hcons

theorem WokenCount.resumeFirst_of_ne (hne : j ≠ i) : WokenCount (v.resumeFirst j) i n := by
  rw [WaitView.resumeFirst]
  split
  · exact h
  · rename_i hcons
    exact h.resume_of_ne hok hcons hne

end

theorem Ok.woken_resumeFirst (h : Ok v) : (v.resumeFirst j).Woken u i ↔
    v.Woken u i ∨ j = i ∧ (v.wait j).head? = some u := by
  rw [WaitView.resumeFirst]
  split
  · rename_i hempty
    simp [hempty]
  · rename_i t ts hcons
    have hin : t ∈ v.wait j := by simp [hcons]
    by_cases hu : u = t
    · subst hu
      simp [h.woken_resume hin, h.not_woken hin, hcons]
    · simp [Woken, hu, hcons, Ne.symm hu]

end WaitView

namespace Kernel
variable {τ ι : Type*}

/-- What an object sees of the kernel, given the list that each thread is waiting in. -/
@[simps] def view (k : Kernel τ ι) (waiting : τ → Option ι) : WaitView τ ι where
  stat t := (k.thread t).stat
  error t := (k.thread t).error
  priority t := (k.thread t).currentPriority
  initPriority t := (k.thread t).initPriority
  wait i := k.list (.wait i)
  waiting := waiting

variable {k : Kernel τ ι} {waiting : τ → Option ι} {t : τ} {i : ι}

theorem view_ok_of_empty (h : ∀ i, k.list (.wait i) = []) : (k.view fun _ => none).Ok where
  nodup i := by simp [h]
  mem := by simp [h]
  error := by simp [h]

variable [DecidableEq τ]

theorem view_of_update {k' : Kernel τ ι} {x : Thread} (hthread : k'.thread = update k.thread t x)
    (waiting waiting' : τ → Option ι) :
    k'.view waiting' =
      { stat := update (k.view waiting).stat t x.stat
        error := update (k.view waiting).error t x.error
        priority := update (k.view waiting).priority t x.currentPriority
        initPriority := update (k.view waiting).initPriority t x.initPriority
        wait := fun i => k'.list (.wait i)
        waiting := waiting' } := by
  unfold view
  rw [hthread]
  exact WaitView.ext (funext (apply_update (fun _ => Thread.stat) k.thread t x))
    (funext (apply_update (fun _ => Thread.error) k.thread t x))
    (funext (apply_update (fun _ => Thread.currentPriority) k.thread t x))
    (funext (apply_update (fun _ => Thread.initPriority) k.thread t x)) rfl rfl

theorem view_setError (e : RtErr) :
    (k.setThread t fun x => { x with error := e }).view waiting =
      (k.view waiting).setError t e := by
  rw [view_of_update (funext (setThread_thread k t _)) waiting]
  exact WaitView.ext (update_eq_self t _) rfl (update_eq_self t _)
    (update_eq_self t _) rfl rfl

variable [DecidableEq ι]

theorem WaitOk.view_changePriority (h : WaitOk k) (p : Fin 32) :
    (k.rtThreadChangePriority t p).view waiting = (k.view waiting).setPriority t p := by
  rw [view_of_update (rtThreadChangePriority_thread p) waiting]
  exact WaitView.ext (update_eq_self t _) (update_eq_self t _) rfl
    (update_eq_self t _) (funext (h.rtThreadChangePriority_wait p)) rfl

theorem WaitOk.view_ipcWait (h : WaitOk k) (hs : (k.thread t).stat = .ready)
    (he : (k.thread t).error = .eok) {flag : IpcFlag} {time : BitVec 32} :
    (k.ipcWait i t flag time).view (update waiting t (some i)) =
      (k.view waiting).block t i flag := by
  rw [view_of_update (ipcWait_thread hs) waiting]
  refine WaitView.ext rfl (congrArg (update (k.view waiting).error t) he) (update_eq_self t _)
    (update_eq_self t _) (funext fun j => ?_) rfl
  simp only [h.ipcWait_wait hs, WaitView.block_wait, update_apply]
  rfl

theorem WaitOk.reset_ipcWait (h : WaitOk k) (hs : (k.thread t).stat = .ready)
    (waiting : τ → Option ι) (i : ι) (flag : IpcFlag) (time : BitVec 32) :
    ((k.setThread t fun x => { x with error := .eok }).ipcWait i t flag time).view
        (update waiting t (some i)) = (k.view waiting).block t i flag ∧
      WaitOk ((k.setThread t fun x => { x with error := .eok }).ipcWait i t flag time) := by
  have hk := h.setError (t := t) .eok
  have hready : ((k.setThread t fun x => { x with error := .eok }).thread t).stat = .ready := by
    simpa using hs
  refine ⟨(hk.view_ipcWait hready (by simp)).trans ?_, hk.ipcWait hready⟩
  rw [view_setError]
  simp [WaitView.block, WaitView.setError]

theorem WaitOk.view_resume (h : WaitOk k) {ts : List τ} (hlist : k.list (.wait i) = t :: ts) :
    (k.rtIpcListResume i).view waiting = (k.view waiting).resume t i ts := by
  rw [view_of_update (h.rtIpcListResume_thread hlist) waiting]
  refine WaitView.ext rfl (update_eq_self t _) (update_eq_self t _)
    (update_eq_self t _) (funext fun j => ?_) rfl
  simp only [h.rtIpcListResume_wait hlist, WaitView.resume_wait, update_apply]
  rfl

theorem WaitOk.view_resumeFirst (h : WaitOk k) :
    (k.rtIpcListResume i).view waiting = (k.view waiting).resumeFirst i := by
  rw [WaitView.resumeFirst]
  split
  · rename_i hempty
    rw [view_wait] at hempty
    rw [Kernel.rtIpcListResume, hempty]
  · rename_i hlist
    exact h.view_resume hlist

theorem view_timeout : (k.rtTimerCheck t).view waiting = (k.view waiting).timeout t := by
  rw [view_of_update rtTimerCheck_thread waiting]
  exact WaitView.ext rfl rfl (update_eq_self t _) (update_eq_self t _)
    (funext rtTimerCheck_wait) rfl

end Kernel
end RtThread
