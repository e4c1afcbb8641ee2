import RtThread.Ipc.WaitView

/-!
# Mailboxes

`rt_mb_send_wait`, `rt_mb_send` and `rt_mb_recv`, in steps that are the sections with interrupts
disabled. When the thread of a waiting call runs again it looks at the mailbox once more: another
thread may have been faster. The functions may be called from an interrupt when `timeout` is 0.
-/

namespace RtThread
open Function (update)

/-- The fields of `struct rt_mailbox` (`rtdef.h:618-631`); the two lists of suspended threads are
lists of the kernel. -/
structure Mailbox where
  flag : IpcFlag
  msgPool : Nat → BitVec 32
  size : BitVec 16
  entry : BitVec 16
  inOffset : BitVec 16
  outOffset : BitVec 16

/-- `rt_mb_init` (`ipc.c:1255-1283`). The argument `size` has 32 bits, the field 16. -/
def rtMbInit (msgpool : Nat → BitVec 32) (size : BitVec 32) (flag : IpcFlag) : Mailbox where
  flag := flag
  msgPool := msgpool
  size := size.setWidth 16
  entry := 0
  inOffset := 0
  outOffset := 0

namespace Mailbox
variable (mb : Mailbox)

/-- A mail is stored (`:1498-1505`). -/
@[simps -fullyApplied] def put (value : BitVec 32) : Mailbox where
  flag := mb.flag
  msgPool := update mb.msgPool mb.inOffset.toNat value
  size := mb.size
  entry := mb.entry + 1
  inOffset := if mb.size ≤ mb.inOffset + 1 then 0 else mb.inOffset + 1
  outOffset := mb.outOffset

/-- The mail that is read next (`:1646`). -/
def front : BitVec 32 := mb.msgPool mb.outOffset.toNat

/-- A mail is taken out (`:1648-1653`). -/
@[simps -fullyApplied] def get : Mailbox where
  flag := mb.flag
  msgPool := mb.msgPool
  size := mb.size
  entry := mb.entry - 1
  inOffset := mb.inOffset
  outOffset := if mb.size ≤ mb.outOffset + 1 then 0 else mb.outOffset + 1

end Mailbox

/-- The two lists of a mailbox: `suspend_sender_thread` and `parent.suspend_thread`. -/
inductive MbSide
  | send | recv
  deriving DecidableEq

/-- `rt_mb_send_wait` with its `value`, or `rt_mb_recv`. -/
inductive MbCall
  | send (value : BitVec 32)
  | recv
  deriving DecidableEq

def MbCall.side : MbCall → MbSide
  | .send _ => .send
  | .recv => .recv

/-- The arguments and locals of a call that waits. -/
structure MbLocals (β : Type*) where
  mb : β
  call : MbCall
  timeout : BitVec 32
  tickDelta : BitVec 32

def MbLocals.list {β : Type*} (l : MbLocals β) : β × MbSide := (l.mb, l.call.side)

/-- The result of a call, and what `rt_mb_recv` stored in `*value`. -/
abbrev MbResult := RtErr × Option (BitVec 32)

/-- The threads, the mailboxes, the calls that wait, and `rt_tick`. -/
structure MbSys (τ β : Type*) where
  k : Kernel τ (β × MbSide)
  mb : β → Mailbox
  calling : τ → Option (MbLocals β)
  tick : BitVec 32

inductive MbOp (τ β : Type*)
  /-- the first section of a call by the thread `t` -/
  | call (t : τ) (m : β) (c : MbCall) (timeout : BitVec 32)
  /-- the thread `t` runs again, behind `rt_schedule` -/
  | again (t : τ) (m : β) (c : MbCall)
  /-- `rt_mb_send(m, value)` or `rt_mb_recv(m, .., 0)`, also from an interrupt of `t` -/
  | nowait (t : τ) (m : β) (c : MbCall)
  /-- the timer of `t` expires -/
  | timeout (t : τ)
  /-- `rt_tick_increase` -/
  | tick

namespace MbSys
variable {τ β : Type*} [DecidableEq τ] [DecidableEq β] (s : MbSys τ β) (t : τ) (m : β)

/-- `rt_ipc_list_resume` of a list, if there is a thread in it. -/
def wake (i : β × MbSide) : MbSys τ β :=
  if s.k.list (.wait i) ≠ [] then { s with k := s.k.rtIpcListResume i } else s

variable (c : MbCall) (value timeout tickDelta : BitVec 32)

/-- The rest of `rt_mb_send_wait` behind the loop (`:1498-1524`). -/
def sendMail : MbSys τ β :=
  { s with mb := update s.mb m ((s.mb m).put value) }.wake (m, .recv)

/-- The rest of `rt_mb_recv` behind the loop (`:1645-1676`). -/
def recvMail : MbSys τ β :=
  { s with mb := update s.mb m (s.mb m).get }.wake (m, .send)

/-- The rest of the loop body when there is a waiting time: suspend the thread, remember the tick
and start the timer (`:1450-1476` and `1597-1623`). -/
def wait : MbSys τ β :=
  { s with
    k := s.k.ipcWait (m, c.side) t (s.mb m).flag timeout
    calling := update s.calling t
      (some ⟨m, c, timeout, if 0 < timeout.toInt then s.tick else tickDelta⟩) }

def setError (e : RtErr) : MbSys τ β :=
  { s with k := s.k.setThread t fun x => { x with error := e } }

/-- `rt_mb_send_wait` from the test of the loop on (`:1436`). -/
def sendLoop : Option MbResult × MbSys τ β :=
  if (s.mb m).entry = (s.mb m).size then
    -- reset error number in thread
    let s := s.setError t .eok
    if timeout = 0 then (some (.efull, none), s)
    else (none, s.wait t m (.send value) timeout tickDelta)
  else (some (.eok, none), s.sendMail m value)

/-- `rt_mb_send_wait` (`:1406-1525`) up to `rt_schedule`; the result is there unless the thread
has to wait. With the timeout 0 it is `rt_mb_send` (`:1537-1540`). -/
def rtMbSendWait : Option MbResult × MbSys τ β :=
  -- for non-blocking call
  if (s.mb m).entry = (s.mb m).size ∧ timeout = 0 then (some (.efull, none), s)
  else s.sendLoop t m value timeout 0

/-- `rt_mb_recv` from the test of the loop on (`:1581`). -/
def recvLoop : Option MbResult × MbSys τ β :=
  if (s.mb m).entry = 0 then
    -- reset error number in thread
    let s := s.setError t .eok
    if timeout = 0 then (some (.etimeout, none), s.setError t .etimeout)
    else (none, s.wait t m .recv timeout tickDelta)
  else (some (.eok, some (s.mb m).front), s.recvMail m)

/-- `rt_mb_recv` (`:1553-1677`) up to `rt_schedule`. -/
def rtMbRecv : Option MbResult × MbSys τ β :=
  -- for non-blocking call
  if (s.mb m).entry = 0 ∧ timeout = 0 then (some (.etimeout, none), s)
  else s.recvLoop t m timeout 0

def rtMbCall : Option MbResult × MbSys τ β :=
  match c with
  | .send value => s.rtMbSendWait t m value timeout
  | .recv => s.rtMbRecv t m timeout

def rtMbLoop : Option MbResult × MbSys τ β :=
  match c with
  | .send value => s.sendLoop t m value timeout tickDelta
  | .recv => s.recvLoop t m timeout tickDelta

/-- The thread runs again behind `rt_schedule`: the call returns the error that the thread was woken
with, or looks at the mailbox again with what is left of the waiting time. -/
def rtMbAgain (l : MbLocals β) : Option MbResult × MbSys τ β :=
  let s' := { s with calling := update s.calling t none }
  if (s.k.thread t).error ≠ .eok then (some ((s.k.thread t).error, none), s')
  else
    let left := recalculate l.timeout l.tickDelta s.tick
    s'.rtMbLoop t l.mb l.call left.1 left.2

def Enabled : MbOp τ β → Prop
  | .call t _ _ _ => (s.k.thread t).stat = .ready ∧ s.calling t = none
  | .again t m c =>
    (s.k.thread t).stat = .ready ∧ (s.calling t).map (fun l => (l.mb, l.call)) = some (m, c)
  | .nowait _ _ _ | .tick => True
  | .timeout t => (s.k.thread t).timerActivated = true

def apply : MbOp τ β → Option MbResult × MbSys τ β
  | .call t m c timeout => s.rtMbCall t m c timeout
  | .again t _ _ =>
    match s.calling t with
    | none => (none, s)
    | some l => s.rtMbAgain t l
  | .nowait t m c => s.rtMbCall t m c 0
  | .timeout t => (none, { s with k := s.k.rtTimerCheck t })
  | .tick => (none, { s with tick := s.tick + 1 })

/-- The mailboxes as a machine. The result of a step is what the call that ends in it returns. -/
def machine : Machine (MbSys τ β) (MbOp τ β) (Option MbResult) := ⟨Enabled, apply⟩

def Step (s : MbSys τ β) (e : MbOp τ β × Option MbResult) (s' : MbSys τ β) : Prop :=
  machine.Step s e s'

instance (s : MbSys τ β) (op : MbOp τ β) : Decidable (machine.Enabled s op) :=
  match op with
  | .call t _ _ _ =>
    decidable_of_iff ((s.k.thread t).stat = .ready ∧ (s.calling t).isNone)
      (and_congr_right fun _ => Option.isNone_iff_eq_none)
  | .again _ _ _ => instDecidableAnd
  | .nowait _ _ _ | .tick => .isTrue trivial
  | .timeout _ => decEq _ _

/-- Mailboxes made with the given sizes, and a scheduler in order; nobody waits. -/
structure Start (s : MbSys τ β) (size : β → BitVec 32) : Prop where
  k : s.k.WaitOk
  empty : ∀ i, s.k.list (.wait i) = []
  mb : ∀ m, ∃ msgpool flag, s.mb m = rtMbInit msgpool (size m) flag
  idle : ∀ t, s.calling t = none

end MbSys
end RtThread
