import RtThread.Ipc.MessageQueue

/-!
# The steps of message queue calls

The queue and the calls that are under way, without the threads: what each step of the code does to
the slots and to the call that takes it.
-/

namespace RtThread
open Function

def MqPc.Slotless : MqPc → Prop
  | .idle | .waiting _ _ _ => True
  | .sending _ _ _ _ | .receiving _ _ _ => False

/-- The steps in which `rt_mq_recv` looks at the queue. -/
def MqOp.Receives {τ ε : Type*} (op : MqOp τ ε) (a : τ ⊕ ε) : Prop :=
  (∃ self size timeout, op = .recv a self size timeout) ∨
    ∃ t size timeout tickDelta, op = .recvAgain t size timeout tickDelta ∧ a = .inl t

/-- The slot before the copy: `rt_mq_send` sets `msg->next` to NULL. -/
def MessageQueue.prepare (mq : MessageQueue) : MqSend → Nat → MessageQueue
  | .send, msg => { mq with next := update mq.next msg none }
  | .urgent, _ => mq

def MessageQueue.link (mq : MessageQueue) : MqSend → Nat → MessageQueue
  | .send, msg => mq.linkBack msg
  | .urgent, msg => mq.linkFront msg

/-- The abstract state: the queue, and where the calls are. -/
structure MqView (α : Type*) where
  mq : MessageQueue
  pc : α → MqPc

namespace MqView
variable {τ ε : Type*} [DecidableEq τ] [DecidableEq ε]

/-- What the steps do that have no effect on the queue, whatever is in it: a send that is refused, a
thread that leaves `rt_mq_recv` with an error, an unknown command, timers and ticks. -/
inductive Idles : MqOp τ ε × MqOutcome → Prop
  | take {a kind buffer e} : Idles (.take a kind buffer, .returned e)
  | fail {t size timeout tickDelta e} :
      e ≠ .eok → Idles (.recvAgain t size timeout tickDelta, .returned e)
  | control {cmd} : cmd ≠ 1 → Idles (.control cmd, .returned .error)
  | timeout {t} : Idles (.timeout t, .proceeds)
  | tick : Idles (.tick, .proceeds)

inductive Step (v : MqView (τ ⊕ ε)) : MqOp τ ε × MqOutcome → MqView (τ ⊕ ε) → Prop
  | take {a kind buffer msg} : v.pc a = .idle → buffer.length ≤ v.mq.msgSize.toNat →
      v.mq.msgQueueFree = some msg → Step v (.take a kind buffer, .proceeds)
        ⟨v.mq.takeFree msg, update v.pc a (.sending kind msg buffer false)⟩
  | copy {a kind msg buffer} : v.pc a = .sending kind msg buffer false →
      Step v (.copy a kind msg buffer, .proceeds)
        ⟨(v.mq.prepare kind msg).copyIn msg buffer, update v.pc a (.sending kind msg buffer true)⟩
  | link {a kind msg buffer} : v.pc a = .sending kind msg buffer true →
      Step v (.link a kind msg buffer, .returned .eok) ⟨v.mq.link kind msg, update v.pc a .idle⟩
  | unlink {op a msg size} : op.Receives a → (v.pc a).Slotless → v.mq.entry ≠ 0 →
      v.mq.msgQueueHead = some msg → Step v (op, .proceeds)
        ⟨{ v.mq.moveHead msg with entry := v.mq.entry - 1 },
          update v.pc a (.receiving msg size none)⟩
  | fault {op a v'} : op.Receives a → v.mq.entry ≠ 0 → v.mq.msgQueueHead = none →
      Step v (op, .fault) v'
  /-- there is no message: the call returns, or waits -/
  | empty {op a r x} : op.Receives a → (v.pc a).Slotless → v.mq.entry = 0 →
      r = .returned .etimeout ∨ r = .blocked → MqPc.Slotless x →
      Step v (op, r) ⟨v.mq, update v.pc a x⟩
  | read {a msg size} : v.pc a = .receiving msg size none → Step v (.recvCopy a msg size, .proceeds)
        ⟨v.mq, update v.pc a
          (.receiving msg size (some (v.mq.bytes msg (min size v.mq.msgSize.toNat))))⟩
  | release {a msg size out} : v.pc a = .receiving msg size (some out) →
      Step v (.recvEnd a msg size out, .received out) ⟨v.mq.putFree msg, update v.pc a .idle⟩
  | reset : Step v (.control 1, .returned .eok) ⟨v.mq.reset, v.pc⟩
  | stay {e a x} : Idles e → (v.pc a).Slotless → MqPc.Slotless x →
      Step v e ⟨v.mq, update v.pc a x⟩
  /-- a step without a call -/
  | skip {e} : Idles e → Step v e v

end MqView

namespace MqSys
variable {τ ε : Type*} [DecidableEq τ] [DecidableEq ε]

@[simps] def view (s : MqSys τ ε) : MqView (τ ⊕ ε) := ⟨s.mq, s.pc⟩

variable {s s' : MqSys τ ε} {a : τ ⊕ ε} {t : τ} {op : MqOp τ ε} {r : MqOutcome} {size : Nat}
  {timeout tickDelta : BitVec 32} {e : MqOp τ ε × MqOutcome}

theorem takeSlot_step {kind : MqSend} {buffer : List (BitVec 8)} (hpc : s.pc a = .idle)
    (htake : s.takeSlot a kind buffer = (r, s')) :
    s.view.Step (.take a kind buffer, r) s'.view := by
  rw [takeSlot] at htake
  split at htake
  · cases htake
    exact .skip .take
  · rename_i hsize
    split at htake
    · cases htake
      exact .skip .take
    · rename_i msg hfree
      cases htake
      exact .take hpc (Nat.le_of_not_lt hsize) hfree

/-- The states agree but for the call of `a`, which has no slot in either. -/
structure LooksLike (s : MqSys τ ε) (v : MqView (τ ⊕ ε)) (a : τ ⊕ ε) : Prop where
  mq : s.mq = v.mq
  pc : ∀ x, update s.pc a x = update v.pc a x
  slotless : (s.pc a).Slotless
  slotless' : (v.pc a).Slotless

variable {v : MqView (τ ⊕ ε)}

theorem unlinkMessage_step (hop : op.Receives a) (hv : LooksLike s v a)
    (hentry : s.mq.entry ≠ 0) (hunlink : s.unlinkMessage a size = (r, s')) :
    v.Step (op, r) s'.view := by
  rw [unlinkMessage] at hunlink
  split at hunlink
  · rename_i hhead
    cases hunlink
    rw [hv.mq] at hentry hhead
    exact .fault hop hentry hhead
  · rename_i msg hhead
    cases hunlink
    rw [view, hv.pc, hv.mq]
    rw [hv.mq] at hentry hhead
    exact .unlink hop hv.slotless' hentry hhead

theorem empty_step (hop : op.Receives a) (hv : LooksLike s v a)
    (hentry : s.mq.entry = 0) (hr : r = .returned .etimeout ∨ r = .blocked) {x : MqPc}
    (hx : x.Slotless) : v.Step (op, r) ⟨s.mq, update s.pc a x⟩ := by
  rw [hv.pc, hv.mq]
  rw [hv.mq] at hentry
  exact .empty hop hv.slotless' hentry hr hx

theorem recvLoop_step (hop : op.Receives a) (hv : LooksLike s v a)
    (hloop : s.recvLoop a t size timeout tickDelta = (r, s')) : v.Step (op, r) s'.view := by
  rw [recvLoop] at hloop
  split at hloop
  · rename_i hentry
    split at hloop
    · cases hloop
      have hempty := empty_step hop hv hentry (.inl rfl) hv.slotless
      rwa [update_eq_self] at hempty
    · cases hloop
      exact empty_step hop hv hentry (.inr rfl) trivial
  · rename_i hentry
    exact unlinkMessage_step hop hv hentry hloop

theorem rtMqRecv_step (hpc : s.pc a = .idle) (hrecv : s.rtMqRecv a t size timeout = (r, s')) :
    s.view.Step (.recv a t size timeout, r) s'.view := by
  have hop : (MqOp.recv a t size timeout).Receives a := .inl ⟨_, _, _, rfl⟩
  have hslotless : (s.pc a).Slotless := by
    rw [hpc]
    trivial
  have hv : LooksLike s s.view a := ⟨rfl, fun _ => rfl, hslotless, hslotless⟩
  rw [rtMqRecv] at hrecv
  split at hrecv
  · rename_i hnow
    cases hrecv
    have hempty := empty_step hop hv hnow.1 (.inl rfl) hslotless
    rwa [update_eq_self] at hempty
  · exact recvLoop_step hop hv hrecv

theorem rtMqRecvAgain_step (hpc : s.pc (.inl t) = .waiting size timeout tickDelta)
    (hagain : s.rtMqRecvAgain t size timeout tickDelta = (r, s')) :
    s.view.Step (.recvAgain t size timeout tickDelta, r) s'.view := by
  have hslotless : (s.pc (.inl t)).Slotless := by
    rw [hpc]
    trivial
  rw [rtMqRecvAgain] at hagain
  split at hagain
  · rename_i herror
    cases hagain
    exact .stay (.fail herror) hslotless trivial
  · -- the loop runs with the call marked as idle, and overwrites that
    have hv : LooksLike { s with pc := update s.pc (.inl t) .idle } s.view (.inl t) :=
      ⟨rfl, fun x => update_idem _ _ _, by simp [MqPc.Slotless], hslotless⟩
    exact recvLoop_step (.inr ⟨_, _, _, _, rfl, rfl⟩) hv hagain

theorem view_step (hstep : s.Step e s') : s.view.Step e s'.view := by
  obtain ⟨op, r⟩ := e
  obtain ⟨henabled, happly⟩ := hstep
  cases op with
  | take a kind buffer =>
    cases kind with
    | send | urgent => exact takeSlot_step henabled.2 happly
  | copy a kind msg buffer =>
    cases happly
    cases kind with
    | send | urgent => exact .copy henabled.2
  | link a kind msg buffer =>
    cases happly
    cases kind with
    | send | urgent => exact .link henabled.2
  | recv a self size timeout =>
    cases a with
    | inl t =>
      obtain ⟨-, hpc, rfl⟩ := henabled
      exact rtMqRecv_step hpc happly
    | inr i => exact rtMqRecv_step henabled.1 happly
  | recvAgain t size timeout tickDelta => exact rtMqRecvAgain_step henabled.2 happly
  | recvCopy a msg size =>
    cases happly
    have hsize : (if s.mq.msgSize.toNat < size then s.mq.msgSize.toNat else size) =
        min size s.mq.msgSize.toNat := by
      split <;> omega
    simp only [hsize]
    exact .read henabled.2
  | recvEnd a msg size out =>
    cases happly
    exact .release henabled.2
  | control cmd =>
    simp only [machine, apply, rtMqControl] at happly
    split at happly
    · rename_i hcmd
      cases happly
      subst hcmd
      exact .reset
    · rename_i hcmd
      cases happly
      exact .skip (.control hcmd)
  | timeout t =>
    cases happly
    exact .skip .timeout
  | tick =>
    cases happly
    exact .skip .tick

end MqSys
end RtThread
