import RtThread.Ipc.MutexPriority

/-!
# Mutex ownership

The calls of a run are counted. `hold` is how often the owner has taken the mutex and not given it
back (but for a mutex that was handed to a thread which has not returned from `rt_mutex_take` yet),
and nobody else has a mutex to give back. `hold` has eight bits, so the owner must not take the
mutex when it is at 255.
-/

namespace RtThread
open Function (update)
open List
variable {τ μ : Type*} [DecidableEq τ] [DecidableEq μ]

/-- A call `rt_mutex_take(m)` of `t` returned `RT_EOK`. -/
def tookIt (t : τ) (m : μ) : MutexOp τ μ × Option RtErr → Bool
  | (.take t' m' _, some .eok) | (.takeEnd t' m', some .eok) => t' = t ∧ m' = m
  | _ => false

/-- A call `rt_mutex_release(m)` of `t` returned `RT_EOK`. -/
def releasedIt (t : τ) (m : μ) : MutexOp τ μ × Option RtErr → Bool
  | (.release t' m', some .eok) => t' = t ∧ m' = m
  | _ => false

def takes (tr : List (MutexOp τ μ × Option RtErr)) (t : τ) (m : μ) : Nat := tr.countP (tookIt t m)

def releases (tr : List (MutexOp τ μ × Option RtErr)) (t : τ) (m : μ) : Nat :=
  tr.countP (releasedIt t m)

theorem releasedIt_of_took {e : MutexOp τ μ × Option RtErr} {t u : τ} {m : μ}
    (h : tookIt t m e = true) : releasedIt u m e = false := by
  obtain ⟨op, r⟩ := e
  cases op with
  | release => cases h
  | take | takeEnd | timeout => rfl

namespace MutexView
variable {v v' : MutexView τ μ} {e : MutexOp τ μ × Option RtErr}
  {tr : List (MutexOp τ μ × Option RtErr)} {t : τ} {m : μ}

/-- The owner does not take a mutex that it holds 255 times. -/
def HoldSafe (v : MutexView τ μ) : MutexOp τ μ → Prop
  | .take t m _ => (v.mutex m).owner = some t → (v.mutex m).hold ≠ 255
  | .takeEnd _ _ | .release _ _ | .timeout _ => True

/-- `waiting t = some m`, as a number: the mutex was handed over and the call has not returned. -/
def inCall (v : MutexView τ μ) (t : τ) (m : μ) : Nat := if v.w.waiting t = some m then 1 else 0

/-- How often `t` has to give the mutex back. -/
def debt (v : MutexView τ μ) (t : τ) (m : μ) : Nat :=
  if (v.mutex m).owner = some t then (v.mutex m).hold.toNat - v.inCall t m else 0

/-- `hold` counts the takes of the owner that were not given back; nobody else has any. -/
structure Balanced (tr : List (MutexOp τ μ × Option RtErr)) (v : MutexView τ μ) : Prop where
  hold : ∀ m, (v.mutex m).owner ≠ none → (v.mutex m).hold ≠ 0
  count : ∀ t m, takes tr t m = releases tr t m + v.debt t m

theorem debt_of_ne (h : (v.mutex m).owner ≠ some t) : v.debt t m = 0 := if_neg h

theorem takes_snoc : takes (tr ++ [e]) t m = takes tr t m + (tookIt t m e).toNat := by
  cases h : tookIt t m e <;> simp [takes, countP_append, h]

theorem releases_snoc : releases (tr ++ [e]) t m = releases tr t m + (releasedIt t m e).toNat := by
  cases h : releasedIt t m e <;> simp [releases, countP_append, h]

attribute [local simp] tookIt releasedIt inCall debt

theorem tookIt_takeEnd {t' : τ} {m' : μ} {x : RtErr} :
    tookIt t m (.takeEnd t' m', some x) = decide (x = .eok ∧ t' = t ∧ m' = m) := by
  cases x <;> simp

section
variable (hhold : ∀ m, (v.mutex m).owner ≠ none → (v.mutex m).hold ≠ 0) (hsafe : v.HoldSafe e.1)
  (hstep : v.Step e v')
include hhold hsafe hstep

theorem hold_step (m' : μ) : (v'.mutex m').owner ≠ none → (v'.mutex m').hold ≠ 0 := by
  cases hstep with
  | @again t m time hidle ho =>
    have hlt := hsafe ho
    rcases eq_or_ne m' m with rfl | hm
    · simp
      bv_omega
    · simpa [hm] using hhold m'
  | @acquire t m | @handOver t m | @free t m =>
    rcases eq_or_ne m' m with rfl | hm
    · simp [grant, rtMutexInit]
    · simpa [hm] using hhold m'
  | @lower t m hidle ho hne =>
    rcases eq_or_ne m' m with rfl | hm
    · simp
      bv_omega
    · simpa [hm] using hhold m'
  | refuse | block | takeEnd | foreign | timeout => exact hhold m'

theorem debt_step (h : Ok v) (u : τ) (m' : μ) :
    (tookIt u m' e).toNat + v.debt u m' = (releasedIt u m' e).toNat + v'.debt u m' := by
  cases hstep with
  | @again t m time hidle ho =>
    have hlt := hsafe ho
    rcases eq_or_ne m m' with rfl | hm
    · rcases eq_or_ne t u with rfl | hu
      · simp [ho, hidle.2]
        bv_omega
      · simp [ho, hu]
    · simp [hm, hm.symm]
  | @acquire t m time hidle ho =>
    rcases eq_or_ne m m' with rfl | hm
    · rcases eq_or_ne t u with rfl | hu
      · simp [grant, ho, hidle.2]
      · simp [grant, ho, hu]
    · simp [hm, hm.symm]
  | refuse => rfl
  | @block t m time o hidle ho hne =>
    -- the thread that waits is not the owner of the mutex it waits for
    rcases eq_or_ne t u with rfl | hu
    · rcases eq_or_ne m m' with rfl | hm
      · simp [ho, hne]
      · simp [hm, hidle.2]
    · simp [hu.symm]
  | @takeEnd t m hs hw =>
    have hiff := h.handed hs hw
    rw [tookIt_takeEnd]
    rcases eq_or_ne t u with rfl | hu
    · rcases eq_or_ne m m' with rfl | hm
      · by_cases heok : v.w.error t = .eok
        · have hpos := hhold m (by simp [hiff.mp heok])
          simp [heok, hiff.mp heok, hw]
          bv_omega
        · simp [← hiff, heok]
      · simp [hm, hw]
    · simp [hu, hu.symm]
  | foreign => rfl
  | @lower t m hidle ho hne =>
    have hpos := hhold m (by simp [ho])
    rcases eq_or_ne m m' with rfl | hm
    · rcases eq_or_ne t u with rfl | hu
      · simp [ho, hidle.2]
        bv_omega
      · simp [ho, hu]
    · simp [hm, hm.symm]
  | @free t m p hidle ho hone hp hw =>
    rcases eq_or_ne m m' with rfl | hm
    · rcases eq_or_ne t u with rfl | hu
      · simp [rtMutexInit, ho, hone, hidle.2]
      · simp [rtMutexInit, ho, hu]
    · simp [hm, hm.symm]
  | @handOver t m p w ws hidle ho hone hp hw =>
    have hmem : w ∈ v.w.wait m := by simp [hw]
    have hwt : w ≠ t := by
      rintro rfl
      exact (h.held ho).2.2 hmem
    rcases eq_or_ne m m' with rfl | hm
    · rcases eq_or_ne t u with rfl | hu
      · simp [grant, ho, hone, hidle.2, hwt]
      · -- the new owner is still inside its call
        rcases eq_or_ne w u with rfl | hn
        · simp [grant, ho, hu, (h.w.mem.mp hmem).2]
        · simp [grant, ho, hu, hn]
    · simp [hm, hm.symm]
  | timeout => rfl

end

theorem Balanced.step (hb : Balanced tr v) (h : Ok v) (hsafe : v.HoldSafe e.1)
    (hstep : v.Step e v') : Balanced (tr ++ [e]) v' := by
  refine ⟨hold_step hb.hold hsafe hstep, fun t m => ?_⟩
  have hcount := hb.count t m
  have hdebt := debt_step hb.hold hsafe hstep h t m
  rw [takes_snoc, releases_snoc]
  omega

omit [DecidableEq τ] [DecidableEq μ] in
/-- `value`, `owner` and `hold` tell the same: whether the mutex is free. -/
theorem Ok.free_iff (h : Ok v) (hhold : ∀ {t}, (v.mutex m).owner = some t → (v.mutex m).hold ≠ 0) :
    ((v.mutex m).value = 1 ↔ (v.mutex m).owner = none) ∧
      ((v.mutex m).owner = none ↔ (v.mutex m).hold = 0) ∧
      ((v.mutex m).value = 1 → v.w.wait m = []) := by
  cases ho : (v.mutex m).owner with
  | none =>
    obtain ⟨hinit, hwait⟩ := h.free ho
    have hvalue : (v.mutex m).value = 1 := congrArg Mutex.value hinit
    have hzero : (v.mutex m).hold = 0 := congrArg Mutex.hold hinit
    simp [hvalue, hzero, hwait]
  | some t =>
    have hvalue := (h.held ho).1
    simpa [hvalue] using hhold ho

theorem Ok.owner_of_took (h : Ok v) (hstep : v.Step e v') (htook : tookIt t m e = true) :
    (v'.mutex m).owner = some t := by
  cases hstep with
  | again hidle ho =>
    obtain ⟨rfl, rfl⟩ : _ = t ∧ _ = m := by simpa using htook
    simpa using ho
  | acquire hidle ho =>
    obtain ⟨rfl, rfl⟩ : _ = t ∧ _ = m := by simpa using htook
    simp [grant]
  | @takeEnd t' m' hs hw =>
    obtain ⟨heok, rfl, rfl⟩ := of_decide_eq_true (tookIt_takeEnd.symm.trans htook)
    exact (h.handed hs hw).mp heok
  | refuse | block | foreign | lower | free | handOver | timeout => cases htook

/-- A release that makes up for the last take passes the mutex on. -/
theorem owner_of_balanced (hb : Balanced (tr ++ [e]) v') (hstep : v.Step e v')
    (hreleased : releasedIt t m e = true)
    (hequal : takes (tr ++ [e]) t m = releases (tr ++ [e]) t m) :
    (v'.mutex m).owner = (v.w.wait m).head? := by
  cases hstep with
  | @lower t' m' hidle ho hhold =>
    obtain ⟨rfl, rfl⟩ : t' = t ∧ m' = m := by simpa using hreleased
    have hcount := hb.count t' m'
    simp [hequal, ho, hidle.2] at hcount
    bv_omega
  | @free t' m' p hidle ho hhold hp hw =>
    obtain ⟨rfl, rfl⟩ : t' = t ∧ m' = m := by simpa using hreleased
    simp [rtMutexInit, hw]
  | @handOver t' m' p w ws hidle ho hhold hp hw =>
    obtain ⟨rfl, rfl⟩ : t' = t ∧ m' = m := by simpa using hreleased
    simp [grant, hw]
  | again | acquire | refuse | block | takeEnd | foreign | timeout => cases hreleased

end MutexView

namespace MutexSys
variable {s₀ s : MutexSys τ μ} {tr : List (MutexOp τ μ × Option RtErr)}

/-- In a run in which no owner takes a mutex that it holds 255 times, a take succeeds for the owner
only, a thread stays the owner until it has given the mutex back as often as it took it, and then
the mutex goes to the first thread that waits or becomes free. -/
theorem ownership_of_safe_run (hstart : Start s₀)
    (hrun : Run (StepIf fun s op => s.view.HoldSafe op) s₀ tr s) :
    (∀ m, ((s.mutex m).value = 1 ↔ (s.mutex m).owner = none) ∧
      ((s.mutex m).owner = none ↔ (s.mutex m).hold = 0) ∧
      ((s.mutex m).value = 1 → s.k.list (.wait m) = [])) ∧
    (∀ t m, releases tr t m < takes tr t m → (s.mutex m).owner = some t) ∧
    ∀ e s', StepIf (fun s op => s.view.HoldSafe op) s e s' → ∀ t m,
      (tookIt t m e = true → (s'.mutex m).owner = some t ∧
        ∀ u, u ≠ t → takes tr u m ≤ releases tr u m) ∧
      (releasedIt t m e = true → takes (tr ++ [e]) t m = releases (tr ++ [e]) t m →
        (s'.mutex m).owner = (s.k.list (.wait m)).head?) := by
  have hall : Ok s ∧ MutexView.Balanced tr s.view := by
    refine hrun.invariant
      ⟨hstart.ok, fun m => ?_, fun t m => ?_⟩ ?_
    · obtain ⟨flag, hflag⟩ := hstart.mutex m
      simp [view, hflag, rtMutexInit]
    · obtain ⟨flag, hflag⟩ := hstart.mutex m
      simp [takes, releases, MutexView.debt, view, hflag, rtMutexInit]
    · rintro tr s e s' ⟨hok, hb⟩ ⟨hstep, hsafe⟩
      exact ⟨hok.step hstep, hb.step hok.view hsafe (view_step hok hstep).1⟩
  obtain ⟨hok, hb⟩ := hall
  have hmore : ∀ t m, releases tr t m < takes tr t m → (s.mutex m).owner = some t := by
    intro t m hlt
    by_contra ho
    have hcount := hb.count t m
    rw [MutexView.debt_of_ne ho] at hcount
    omega
  refine ⟨fun m => hok.view.free_iff fun ho => hb.hold m (by simp [ho]), hmore, ?_⟩
  rintro e s' ⟨hstep, hsafe⟩ t m
  have hview := (view_step hok hstep).1
  refine ⟨fun htook => ?_, fun hreleased hequal => ?_⟩
  · have ho := hok.view.owner_of_took hview htook
    refine ⟨ho, fun u hu => ?_⟩
    -- the other thread is not the owner afterwards, so it has nothing to give back
    have hdebt := MutexView.debt_step hb.hold hsafe hview hok.view u m
    have hcount := hb.count u m
    rw [releasedIt_of_took htook, MutexView.debt_of_ne (v := s'.view) (by simpa [ho] using hu.symm),
      Bool.toNat_false] at hdebt
    omega
  · exact MutexView.owner_of_balanced (hb.step hok.view hsafe hview) hview hreleased hequal

instance (v : MutexView τ μ) (op : MutexOp τ μ) : Decidable (v.HoldSafe op) :=
  match op with
  | .take t m _ =>
    inferInstanceAs (Decidable ((v.mutex m).owner = some t → (v.mutex m).hold ≠ 255))
  | .takeEnd _ _ | .release _ _ | .timeout _ => .isTrue trivial

theorem ownership_of_safe_run_two :
    ∃ tr s, Run (StepIf fun s op => s.view.HoldSafe op) twoAndTwo tr s ∧
      releases tr false false < takes tr false false ∧ (s.mutex false).owner = some false := by
  have hrun := machine.run_exec (fun s op => s.view.HoldSafe op) twoAndTwo
    [.take false false 0xffffffff, .take false false 0xffffffff, .timeout true,
      .take true false 0xffffffff, .release false false]
  refine ⟨_, _, hrun, by decide +kernel, ?_⟩
  exact (ownership_of_safe_run twoAndTwo_start hrun).2.1 false false (by decide +kernel)

/-- A thread takes a mutex 257 times, which brings `hold` to 1, and gives it back once: the mutex is
free while 256 takes are not made up for. -/
theorem hold_wraps_frees_mutex :
    ∃ tr s, Run Step twoAndTwo tr s ∧ takes tr false false = 257 ∧ releases tr false false = 1 ∧
      (s.mutex false).owner = none := by
  have hrun := machine.run_steps twoAndTwo
    (replicate 257 (.take false false 0) ++ [.release false false])
  exact ⟨_, _, hrun, by decide +kernel, by decide +kernel, by decide +kernel⟩

end MutexSys
end RtThread
