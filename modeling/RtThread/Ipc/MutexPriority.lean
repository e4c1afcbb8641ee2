import Mathlib.Data.Fintype.Basic
import RtThread.Ipc.MutexSteps

/-!
# Priority inheritance

Two laws of priority inheritance: an owner is at least as urgent as the threads that wait for its
mutexes, and a thread that owns no mutex has its own priority. `ipc.c` raises only the owner itself,
and a mutex remembers the priority its owner had when it got it, so both laws depend on the order of
the calls. For each law the calls that keep it are characterised exactly.
-/

namespace RtThread
open Function

namespace MutexView
variable {τ μ : Type*} {v v' : MutexView τ μ}
  {e : MutexOp τ μ × Option RtErr}

/-- Owners are at least as urgent as the threads that wait for them. -/
def Inherits (v : MutexView τ μ) : Prop :=
  ∀ m o w, (v.mutex m).owner = some o → w ∈ v.w.wait m → v.w.priority o ≤ v.w.priority w

/-- The calls that keep this. If a thread `t` has to wait and the owner it raises waits for another
thread, that one must be as urgent as `t` already. When an owner gets its old priority back, the
threads that wait for its other mutexes must not be more urgent than that, and the first of the
waiting threads, the next owner, must be as urgent as the others. -/
def InheritSafe (v : MutexView τ μ) : MutexOp τ μ → Prop
  | .take t m time => time ≠ 0 → ∀ o m' o', (v.mutex m).owner = some o →
      v.w.priority t < v.w.priority o → o ∈ v.w.wait m' → (v.mutex m').owner = some o' →
      v.w.priority o' ≤ v.w.priority t
  | .release t m => (v.mutex m).owner = some t → (v.mutex m).hold = 1 →
      (∀ m' w p, m' ≠ m → (v.mutex m').owner = some t → w ∈ v.w.wait m' →
        (v.mutex m).originalPriority = some p → p ≤ v.w.priority w) ∧
      ∀ w u, (v.w.wait m).head? = some w → u ∈ v.w.wait m → v.w.priority w ≤ v.w.priority u
  | .takeEnd _ _ | .timeout _ => True

theorem Inherits.of_same (h : v.Inherits) (howner : ∀ m, (v'.mutex m).owner = (v.mutex m).owner)
    (hwait : ∀ m w, w ∈ v'.w.wait m → w ∈ v.w.wait m) (hpriority : v'.w.priority = v.w.priority) :
    v'.Inherits := by
  intro m o w ho hw
  rw [howner] at ho
  rw [hpriority]
  exact h m o w ho (hwait m w hw)

def OwnsNone (v : MutexView τ μ) (t : τ) : Prop := ∀ m, (v.mutex m).owner ≠ some t

/-- A thread that owns no mutex has the priority it was created with. -/
def Restored (v : MutexView τ μ) : Prop :=
  ∀ t, v.OwnsNone t → v.w.priority t = v.w.initPriority t

theorem Restored.of_owned (h : v.Restored) (hinit : v'.w.initPriority = v.w.initPriority)
    (hkeep : ∀ t, v'.OwnsNone t → v.OwnsNone t ∧ v'.w.priority t = v.w.priority t) :
    v'.Restored := by
  intro t ht
  obtain ⟨hnone, hpriority⟩ := hkeep t ht
  rw [hpriority, hinit]
  exact h t hnone

variable {t : τ} {m : μ} {p : Fin 32}

theorem inheritSafe_release_iff (ho : (v.mutex m).owner = some t)
    (hhold : (v.mutex m).hold = 1) (hp : (v.mutex m).originalPriority = some p) :
    v.InheritSafe (.release t m) ↔
      (∀ m' w, m' ≠ m → (v.mutex m').owner = some t → w ∈ v.w.wait m' → p ≤ v.w.priority w) ∧
      ∀ w u, (v.w.wait m).head? = some w → u ∈ v.w.wait m → v.w.priority w ≤ v.w.priority u := by
  constructor
  · intro hsafe
    exact ⟨fun m' w hm ho' hw => (hsafe ho hhold).1 m' w p hm ho' hw hp, (hsafe ho hhold).2⟩
  · rintro ⟨hothers, hfirst⟩ _ _
    refine ⟨fun m' w p' hm ho' hw hp' => ?_, hfirst⟩
    obtain rfl : p = p' := Option.some.inj (hp.symm.trans hp')
    exact hothers m' w hm ho' hw

variable [DecidableEq τ]

theorem lowered_iff (h : Ok v) (hinherits : v.Inherits) (hidle : v.w.Idle t) :
    (∀ m', m' ≠ m → ∀ o w, (v.mutex m').owner = some o → w ∈ v.w.wait m' →
      update v.w.priority t p o ≤ update v.w.priority t p w) ↔
    ∀ m' w, m' ≠ m → (v.mutex m').owner = some t → w ∈ v.w.wait m' → p ≤ v.w.priority w := by
  have hnot : ∀ {m' w}, w ∈ v.w.wait m' → w ≠ t := by
    rintro m' w hw rfl
    exact h.w.not_mem_of_ready hidle.1 hw
  constructor
  · intro hafter m' w hm ho hw
    simpa [hnot hw] using hafter m' hm t w ho hw
  · intro hsafe m' hm o w ho hw
    by_cases hot : o = t
    · subst hot
      simpa [hnot hw] using hsafe m' w hm ho hw
    · simpa [hnot hw, hot] using hinherits m' o w ho hw

variable [DecidableEq μ]

theorem inherits_block_iff (h : Ok v) (hinherits : v.Inherits) {o : τ} {time : BitVec 32}
    (ho : (v.mutex m).owner = some o) (hne : o ≠ t) (htime : time ≠ 0) :
    Inherits ⟨(v.w.setPriority o (min (v.w.priority t) (v.w.priority o))).block t m
      (v.mutex m).flag, v.mutex⟩ ↔ v.InheritSafe (.take t m time) := by
  constructor
  · intro hafter _ o1 m' o' ho1 hlt hmem ho'
    obtain rfl : o = o1 := Option.some.inj (ho.symm.trans ho1)
    have hne' : o' ≠ o := by
      rintro rfl
      exact (h.held ho').2.2 hmem
    have hle := hafter m' o' o ho' (WaitView.mem_block.mpr (.inr hmem))
    simpa [hne', min_eq_left hlt.le] using hle
  · intro hsafe m' o' w ho' hw
    rcases WaitView.mem_block.mp hw with ⟨rfl, rfl⟩ | hmem
    · -- the thread that waits now
      obtain rfl : o = o' := Option.some.inj (ho.symm.trans ho')
      simp [hne.symm]
    · have hle := hinherits m' o' w ho' hmem
      by_cases hwo : w = o
      · -- the owner that was raised waits itself
        subst hwo
        have hne' : o' ≠ w := by
          rintro rfl
          exact (h.held ho').2.2 hmem
        have hbelow : v.w.priority o' ≤ v.w.priority t := by
          by_cases hlt : v.w.priority t < v.w.priority w
          · exact hsafe htime w m' o' ho hlt hmem ho'
          · exact hle.trans (not_lt.mp hlt)
        simp [hne', hle, hbelow]
      · by_cases ho'o : o' = o
        · subst ho'o
          simp [hwo, hle]
        · simp [hwo, ho'o, hle]

theorem inherits_step_iff (h : Ok v) (hinherits : v.Inherits) (hstep : v.Step e v') :
    v'.Inherits ↔ v.InheritSafe e.1 := by
  cases hstep with
  | @again t m time hidle ho =>
    refine iff_of_true (hinherits.of_same (fun m' => ?_) (fun _ _ hw => hw) rfl) ?_
    · by_cases hm : m' = m
      · subst hm
        simp
      · simp [hm]
    · intro _ o m' o' ho' hlt
      obtain rfl : t = o := Option.some.inj (ho.symm.trans ho')
      exact absurd hlt (lt_irrefl _)
  | @acquire t m time hidle ho =>
    refine iff_of_true (fun m' o w ho' hw => ?_) ?_
    · by_cases hm : m' = m
      · subst hm
        simp [(h.free ho).2] at hw
      · exact hinherits m' o w (by simpa [hm] using ho') hw
    · intro _ o m' o' ho'
      cases ho.symm.trans ho'
  | refuse hidle ho hne =>
    exact iff_of_true (hinherits.of_same (fun _ => rfl) (fun _ _ hw => hw) rfl)
      fun htime => absurd rfl htime
  | block hidle ho hne htime => exact inherits_block_iff h hinherits ho hne htime
  | takeEnd hs hw =>
    exact iff_of_true (hinherits.of_same (fun _ => rfl) (fun _ _ hw => hw) rfl) trivial
  | foreign hidle ho =>
    exact iff_of_true (hinherits.of_same (fun _ => rfl) (fun _ _ hw => hw) rfl)
      fun ho' => absurd ho' ho
  | @lower t m hidle ho hhold =>
    refine iff_of_true (hinherits.of_same (fun m' => ?_) (fun _ _ hw => hw) rfl)
      fun _ hhold' => absurd hhold' hhold
    by_cases hm : m' = m
    · subst hm
      simp
    · simp [hm]
  | @free t m p hidle ho hhold hp hw =>
    rw [inheritSafe_release_iff ho hhold hp, ← lowered_iff h hinherits hidle]
    constructor
    · intro hafter
      refine ⟨fun m' hm o w ho' hw' => ?_, by simp [hw]⟩
      exact hafter m' o w (by simpa [hm] using ho') hw'
    · rintro ⟨hothers, -⟩ m' o w ho' hw'
      have hm : m' ≠ m := by
        rintro rfl
        simp [rtMutexInit] at ho'
      exact hothers m' hm o w (by simpa [hm] using ho') hw'
  | @handOver t m p u us hidle ho hhold hp hw =>
    have hnot : ∀ {x}, x ∈ v.w.wait m → x ≠ t := by
      rintro x hx rfl
      exact h.w.not_mem_of_ready hidle.1 hx
    have hu : u ≠ t := hnot (by simp [hw])
    rw [inheritSafe_release_iff ho hhold hp, ← lowered_iff h hinherits hidle]
    constructor
    · intro hafter
      refine ⟨fun m' hm o w ho' hw' => ?_, fun w x hfirst hx => ?_⟩
      · exact hafter m' o w (by simpa [hm] using ho') (by simpa [hm] using hw')
      · obtain rfl : u = w := by simpa [hw] using hfirst
        rw [hw, List.mem_cons] at hx
        rcases hx with rfl | hx
        · exact le_rfl
        · have hxt : x ≠ t := hnot (by simp [hw, hx])
          simpa [hu, hxt] using hafter m u x (by simp [grant]) (by simpa using hx)
    · rintro ⟨hothers, hfirst⟩ m' o w ho' hw'
      by_cases hm : m' = m
      · subst hm
        obtain rfl : u = o := by simpa [grant] using ho'
        have hwmem : w ∈ v.w.wait m' := by
          rw [hw]
          exact List.mem_cons_of_mem _ (by simpa using hw')
        simpa [hu, hnot hwmem] using hfirst u w (by simp [hw]) hwmem
      · exact hothers m' hm o w (by simpa [hm] using ho') (by simpa [hm] using hw')
  | timeout hs =>
    exact iff_of_true (hinherits.of_same (fun _ => rfl)
      (fun _ _ hw => List.mem_of_mem_erase hw) rfl) trivial

/-- The calls that keep this: when a thread gives its last mutex back, the priority this mutex
remembers must be the initial one, so the thread must not have been raised on behalf of another
mutex when it got it. -/
def RestoreSafe (v : MutexView τ μ) : MutexOp τ μ → Prop
  | .release t m => (v.mutex m).owner = some t → (v.mutex m).hold = 1 →
      (∀ m', m' ≠ m → (v.mutex m').owner ≠ some t) →
      (v.mutex m).originalPriority = some (v.w.initPriority t)
  | .take _ _ _ | .takeEnd _ _ | .timeout _ => True

theorem restored_release_iff (hrestored : v.Restored)
    (ho : (v.mutex m).owner = some t) (hhold : (v.mutex m).hold = 1)
    (hp : (v.mutex m).originalPriority = some p)
    (hpriority : v'.w.priority = update v.w.priority t p)
    (hinit : v'.w.initPriority = v.w.initPriority)
    (hothers : ∀ m', m' ≠ m → (v'.mutex m').owner = (v.mutex m').owner)
    (hlost : (v'.mutex m).owner ≠ some t) : v'.Restored ↔ v.RestoreSafe (.release t m) := by
  have hnone : v'.OwnsNone t ↔ ∀ m', m' ≠ m → (v.mutex m').owner ≠ some t := by
    constructor
    · intro h m' hm
      rw [← hothers m' hm]
      exact h m'
    · intro h m'
      by_cases hm : m' = m
      · subst hm
        exact hlost
      · rw [hothers m' hm]
        exact h m' hm
  constructor
  · intro hafter _ _ hlast
    have := hafter t (hnone.mpr hlast)
    rw [hpriority, hinit, update_self] at this
    rw [hp, this]
  · intro hsafe u hu
    rw [hpriority, hinit]
    by_cases hut : u = t
    · subst hut
      have := hsafe ho hhold (hnone.mp hu)
      rw [update_self]
      exact Option.some.inj (hp.symm.trans this)
    · rw [update_of_ne hut]
      refine hrestored u fun m' => ?_
      by_cases hm : m' = m
      · subst hm
        rw [ho]
        simpa using Ne.symm hut
      · rw [← hothers m' hm]
        exact hu m'

theorem restored_step_iff (h : Ok v) (hrestored : v.Restored) (hstep : v.Step e v') :
    v'.Restored ↔ v.RestoreSafe e.1 := by
  cases hstep with
  | @again t m time hidle ho =>
    refine iff_of_true (hrestored.of_owned rfl fun u hu => ⟨fun m' => ?_, rfl⟩) trivial
    by_cases hm : m' = m
    · subst hm
      simpa using hu m'
    · simpa [hm] using hu m'
  | @acquire t m time hidle ho =>
    refine iff_of_true (hrestored.of_owned rfl fun u hu => ⟨fun m' => ?_, rfl⟩) trivial
    by_cases hm : m' = m
    · subst hm
      simp [ho]
    · simpa [hm] using hu m'
  | refuse => exact iff_of_true (hrestored.of_owned rfl fun u hu => ⟨hu, rfl⟩) trivial
  | @block t m time o hidle ho hne htime =>
    refine iff_of_true (hrestored.of_owned rfl fun u hu => ⟨hu, ?_⟩) trivial
    -- only the owner is raised
    have huo : u ≠ o := by
      rintro rfl
      exact hu m ho
    simp [huo]
  | takeEnd => exact iff_of_true (hrestored.of_owned rfl fun u hu => ⟨hu, rfl⟩) trivial
  | foreign hidle ho =>
    exact iff_of_true (hrestored.of_owned rfl fun u hu => ⟨hu, rfl⟩) fun ho' => absurd ho' ho
  | @lower t m hidle ho hhold =>
    refine iff_of_true (hrestored.of_owned rfl fun u hu => ⟨fun m' => ?_, rfl⟩)
      fun _ hhold' => absurd hhold' hhold
    by_cases hm : m' = m
    · subst hm
      simpa using hu m'
    · simpa [hm] using hu m'
  | @free t m p hidle ho hhold hp hw =>
    refine restored_release_iff hrestored ho hhold hp rfl rfl (fun m' hm => ?_) ?_
    · simp [hm]
    · simp [rtMutexInit]
  | @handOver t m p u us hidle ho hhold hp hw =>
    have hut : u ≠ t := by
      rintro rfl
      exact (h.held ho).2.2 (by simp [hw])
    refine restored_release_iff hrestored ho hhold hp rfl rfl (fun m' hm => ?_) ?_
    · simp [hm]
    · simpa [grant] using hut
  | timeout => exact iff_of_true (hrestored.of_owned rfl fun u hu => ⟨hu, rfl⟩) trivial

end MutexView

namespace MutexSys
variable {τ μ : Type*} [DecidableEq τ] [DecidableEq μ] {s₀ s : MutexSys τ μ}
  {tr : List (MutexOp τ μ × Option RtErr)}

/-- In a run of calls that keep priority inheritance, the owner of a mutex is never less urgent than
a thread that waits for it. The condition on the calls is the weakest one. -/
theorem inherits_of_safe_run (hstart : Start s₀)
    (hrun : Run (StepIf fun s op => s.view.InheritSafe op) s₀ tr s) :
    (∀ m o w, (s.mutex m).owner = some o → w ∈ s.k.list (.wait m) →
      (s.k.thread o).currentPriority ≤ (s.k.thread w).currentPriority) ∧
    ∀ e s', s.Step e s' → (s'.view.Inherits ↔ s.view.InheritSafe e.1) := by
  have hall : Ok s ∧ s.view.Inherits := by
    refine hrun.state_invariant ⟨hstart.ok, ?_⟩ ?_
    · intro m o w _ hw
      simp [view, hstart.empty] at hw
    · rintro s e s' ⟨hok, hinherits⟩ ⟨hstep, hsafe⟩
      have hview := (view_step hok hstep).1
      exact ⟨hok.step hstep, (MutexView.inherits_step_iff hok.view hinherits hview).mpr hsafe⟩
  refine ⟨hall.2, fun e s' hstep => ?_⟩
  exact MutexView.inherits_step_iff hall.1.view hall.2 (view_step hall.1 hstep).1

instance [Fintype τ] [Fintype μ] (v : MutexView τ μ) (op : MutexOp τ μ) :
    Decidable (v.InheritSafe op) :=
  match op with
  | .take _ _ _ | .release _ _ => by unfold MutexView.InheritSafe; infer_instance
  | .takeEnd _ _ | .timeout _ => .isTrue trivial

/-- Two threads of priorities 10 and 5 and two mutexes. The more urgent thread has gone to sleep. -/
def twoAndTwo : MutexSys Bool Bool where
  k := (Kernel.boot Kernel.twoPriorities [false, true]).rtThreadSleep true 10
  mutex _ := rtMutexInit .prio
  taking _ := none

theorem twoAndTwo_start : Start twoAndTwo where
  k := @Kernel.twoPriorities_waitOk Bool _
  empty := by decide +kernel
  mutex _ := ⟨.prio, rfl⟩
  idle _ := rfl

theorem inherits_of_safe_run_two :
    ∃ tr s, Run (StepIf fun s op => s.view.InheritSafe op) twoAndTwo tr s ∧
      true ∈ s.k.list (.wait false) ∧
      (s.k.thread false).currentPriority ≤ (s.k.thread true).currentPriority := by
  have hrun := machine.run_exec (fun s op => s.view.InheritSafe op) twoAndTwo
    [.take false false 0xffffffff, .timeout true, .take true false 0xffffffff]
  refine ⟨_, _, hrun, by decide +kernel, ?_⟩
  exact (inherits_of_safe_run twoAndTwo_start hrun).1 false false true
    (by decide +kernel) (by decide +kernel)

/-- A thread of priority 10 holds both mutexes and is raised to 5 on behalf of the first. When it
gives the second one back it falls to 10, and still a thread of priority 5 waits for it. -/
theorem release_other_loses_inheritance :
    ∃ tr s, Run Step twoAndTwo tr s ∧ (s.mutex false).owner = some false ∧
      true ∈ s.k.list (.wait false) ∧
      (s.k.thread true).currentPriority < (s.k.thread false).currentPriority := by
  have hrun := machine.run_steps twoAndTwo
    [.take false false 0xffffffff, .take false true 0xffffffff, .timeout true,
      .take true false 0xffffffff, .release false true]
  exact ⟨_, _, hrun, by decide +kernel, by decide +kernel, by decide +kernel⟩

/-! The law for threads that own nothing. -/

/-- In a run of calls that restore priorities, every thread that owns no mutex has its initial
priority. The condition on the calls is the weakest one. -/
theorem restored_of_safe_run (hstart : Start s₀)
    (hinit : ∀ t, (s₀.k.thread t).currentPriority = (s₀.k.thread t).initPriority)
    (hrun : Run (StepIf fun s op => s.view.RestoreSafe op) s₀ tr s) :
    (∀ t, (∀ m, (s.mutex m).owner ≠ some t) →
      (s.k.thread t).currentPriority = (s.k.thread t).initPriority) ∧
    ∀ e s', s.Step e s' → (s'.view.Restored ↔ s.view.RestoreSafe e.1) := by
  have hall : Ok s ∧ s.view.Restored := by
    refine hrun.state_invariant ⟨hstart.ok, ?_⟩ ?_
    · intro t _
      exact hinit t
    · rintro s e s' ⟨hok, hrestored⟩ ⟨hstep, hsafe⟩
      have hview := (view_step hok hstep).1
      exact ⟨hok.step hstep, (MutexView.restored_step_iff hok.view hrestored hview).mpr hsafe⟩
  refine ⟨hall.2, fun e s' hstep => ?_⟩
  exact MutexView.restored_step_iff hall.1.view hall.2 (view_step hall.1 hstep).1

instance [Fintype μ] (v : MutexView τ μ) (op : MutexOp τ μ) : Decidable (v.RestoreSafe op) :=
  match op with
  | .release _ _ => by unfold MutexView.RestoreSafe; infer_instance
  | .take _ _ _ | .takeEnd _ _ | .timeout _ => .isTrue trivial

theorem restored_of_safe_run_two :
    ∃ tr s, Run (StepIf fun s op => s.view.RestoreSafe op) twoAndTwo tr s ∧
      (s.mutex false).owner = some true ∧
      (s.k.thread false).currentPriority = (s.k.thread false).initPriority := by
  have hrun := machine.run_exec (fun s op => s.view.RestoreSafe op) twoAndTwo
    [.take false false 0xffffffff, .timeout true, .take true false 0xffffffff, .release false false]
  refine ⟨_, _, hrun, by decide +kernel, ?_⟩
  exact (restored_of_safe_run twoAndTwo_start (by decide +kernel) hrun).1 false (by decide +kernel)

/-- A thread of priority 10 takes the second mutex while it is raised to 5 on behalf of the first,
and gives the first back before the second. The thread of priority 5 gets both in turn, and the
other one is left with priority 5. -/
theorem overlapping_release_keeps_priority :
    ∃ tr s, Run Step twoAndTwo tr s ∧ (∀ m, (s.mutex m).owner ≠ some false) ∧
      (s.k.thread false).currentPriority ≠ (s.k.thread false).initPriority := by
  have hrun := machine.run_steps twoAndTwo
    [.take false false 0xffffffff, .timeout true, .take true false 0xffffffff,
      .take false true 0xffffffff, .release false false, .takeEnd true false, .release true false,
      .take true true 0xffffffff, .release false true]
  exact ⟨_, _, hrun, by decide +kernel, by decide +kernel⟩

end MutexSys
end RtThread
