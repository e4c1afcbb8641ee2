import RtThread.Ipc.WaitView

/-!
# Semaphores

`rt_sem_take`, `rt_sem_trytake` and `rt_sem_release`, in steps that are the sections with interrupts
disabled. `rt_sem_trytake` and `rt_sem_release` do not wait and may be called from an interrupt,
whatever the state of the thread that was interrupted.
-/

namespace RtThread
open Function (update)

/-- The fields of `struct rt_semaphore` (`rtdef.h:567-572`). -/
structure Semaphore where
  flag : IpcFlag
  value : BitVec 16

/-- `rt_sem_init` (`ipc.c:211-231`). The argument has 32 bits, the field 16. -/
def rtSemInit (value : BitVec 32) (flag : IpcFlag) : Semaphore := ⟨flag, value.setWidth 16⟩

/-- The threads, the semaphores with their suspend lists, and for each thread the semaphore for
which it waits in `rt_sem_take`. -/
structure SemSys (τ σ : Type*) where
  k : Kernel τ σ
  sem : σ → Semaphore
  taking : τ → Option σ

inductive SemOp (τ σ : Type*)
  /-- the first section of `rt_sem_take(m, time)`, called by the thread `t` -/
  | take (t : τ) (m : σ) (time : BitVec 32)
  /-- what `rt_sem_take` does behind `rt_schedule` -/
  | takeEnd (t : τ) (m : σ)
  /-- `rt_sem_trytake(m)`, also from an interrupt of `t` -/
  | trytake (t : τ) (m : σ)
  /-- `rt_sem_release(m)` -/
  | release (m : σ)
  /-- the timer of `t` expires -/
  | timeout (t : τ)

namespace SemSys
variable {τ σ : Type*} [DecidableEq τ] [DecidableEq σ] (s : SemSys τ σ) (t : τ) (m : σ)

@[simps -fullyApplied] def setValue (value : BitVec 16) : SemSys τ σ :=
  { s with sem := update s.sem m { s.sem m with value := value } }

/-- `rt_sem_take` (`:328-411`) up to `rt_schedule`; the result is there unless the thread has
to wait. -/
def rtSemTake (time : BitVec 32) : Option RtErr × SemSys τ σ :=
  if 0 < (s.sem m).value then
    -- semaphore is available
    (some .eok, s.setValue m ((s.sem m).value - 1))
  else if time = 0 then
    -- no waiting, return with timeout
    (some .etimeout, s)
  else
    let k := s.k.setThread t fun x => { x with error := .eok }
    (none, { s with
      k := k.ipcWait m t (s.sem m).flag time
      taking := update s.taking t (some m) })

/-- `rt_sem_take` behind `rt_schedule`. -/
def rtSemTakeEnd : RtErr × SemSys τ σ :=
  let s' := { s with taking := update s.taking t none }
  if (s.k.thread t).error ≠ .eok then ((s.k.thread t).error, s') else (.eok, s')

/-- `rt_sem_trytake` (`:421-424`). -/
def rtSemTrytake : Option RtErr × SemSys τ σ := s.rtSemTake t m 0

/-- `rt_sem_release` (`:435-469`). -/
def rtSemRelease : RtErr × SemSys τ σ :=
  if s.k.list (.wait m) ≠ [] then (.eok, { s with k := s.k.rtIpcListResume m })
  else (.eok, s.setValue m ((s.sem m).value + 1))

def Enabled : SemOp τ σ → Prop
  | .take t _ _ => (s.k.thread t).stat = .ready ∧ s.taking t = none
  | .takeEnd t m => (s.k.thread t).stat = .ready ∧ s.taking t = some m
  | .trytake _ _ | .release _ => True
  | .timeout t => (s.k.thread t).timerActivated = true

def apply : SemOp τ σ → Option RtErr × SemSys τ σ
  | .take t m time => s.rtSemTake t m time
  | .takeEnd t _ => (some (s.rtSemTakeEnd t).1, (s.rtSemTakeEnd t).2)
  | .trytake t m => s.rtSemTrytake t m
  | .release m => (some (s.rtSemRelease m).1, (s.rtSemRelease m).2)
  | .timeout t => (none, { s with k := s.k.rtTimerCheck t })

/-- The semaphores as a machine. The result of a step is what the call that ends in it returns. -/
def machine : Machine (SemSys τ σ) (SemOp τ σ) (Option RtErr) := ⟨Enabled, apply⟩

def StepIf (P : SemSys τ σ → SemOp τ σ → Prop) (s : SemSys τ σ) (e : SemOp τ σ × Option RtErr)
    (s' : SemSys τ σ) : Prop :=
  machine.StepIf P s e s'

def Step (s : SemSys τ σ) (e : SemOp τ σ × Option RtErr) (s' : SemSys τ σ) : Prop :=
  machine.Step s e s'

instance (s : SemSys τ σ) (op : SemOp τ σ) : Decidable (machine.Enabled s op) :=
  match op with
  | .take .. | .takeEnd .. => instDecidableAnd
  | .trytake .. | .release _ => .isTrue trivial
  | .timeout _ => decEq _ _

/-- Semaphores with the given values and a scheduler in order; no thread is in a suspend list. -/
structure Start (s : SemSys τ σ) (value : σ → Nat) : Prop where
  k : s.k.WaitOk
  empty : ∀ m, s.k.list (.wait m) = []
  value_le : ∀ m, value m ≤ 65535
  sem : ∀ m, ∃ flag, s.sem m = rtSemInit (BitVec.ofNat 32 (value m)) flag
  idle : ∀ t, s.taking t = none

end SemSys
end RtThread
