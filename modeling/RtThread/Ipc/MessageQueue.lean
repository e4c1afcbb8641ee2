import RtThread.Basic
import RtThread.Ipc.WaitView

/-!
# Message queues

`rt_mq_init`, `rt_mq_send`, `rt_mq_urgent`, `rt_mq_recv` and `rt_mq_control`. A message is copied
with interrupts enabled, so a call has several sections, and between them it holds a slot of the
pool that is in none of the lists. The steps are the sections and the copies. An interrupt never
waits.

A slot is named by its number: slot `i` is at `msg_pool + i * (msg_size + 4)`. The field `next` of
the slots and the `msg_size` bytes behind it are part of the state of the queue.
-/

namespace RtThread
open Function (update)

/-- The fields of `struct rt_messagequeue` (`rtdef.h:639-653`), and of the slots of its pool. -/
structure MessageQueue where
  flag : IpcFlag
  msgSize : BitVec 16
  maxMsgs : BitVec 16
  entry : BitVec 16
  msgQueueHead : Option Nat
  msgQueueTail : Option Nat
  msgQueueFree : Option Nat
  /-- `msg->next` -/
  next : Nat → Option Nat
  /-- the bytes at `msg + 1` -/
  data : Nat → Nat → BitVec 8

namespace MessageQueue
variable (mq : MessageQueue) (msg : Nat)

/-- A slot becomes the first of the free list (`ipc.c:1779-1780`, `2215-2216` and `2264-2265`). -/
def putFree : MessageQueue :=
  { mq with
    next := update mq.next msg mq.msgQueueFree
    msgQueueFree := some msg }

/-- The first slot of the free list, `msg`, is taken out (`:1955` and `2043`). -/
def takeFree : MessageQueue := { mq with msgQueueFree := mq.next msg }

/-- `rt_memcpy(msg + 1, buffer, size)`; `size` is the length of the buffer. -/
def copyIn (buffer : List (BitVec 8)) : MessageQueue :=
  { mq with data := update mq.data msg fun j => buffer.getD j (mq.data msg j) }

/-- The first `size` bytes of a slot, as `rt_memcpy(buffer, msg + 1, size)` reads them. -/
def bytes (size : Nat) : List (BitVec 8) := (List.range size).map (mq.data msg)

/-- The slot becomes the last of the queue (`:1967-1981`). -/
def linkBack : MessageQueue :=
  { mq with
    next :=
      match mq.msgQueueTail with
      | none => mq.next
      | some last => update mq.next last (some msg)
    msgQueueTail := some msg
    msgQueueHead := if mq.msgQueueHead = none then some msg else mq.msgQueueHead
    entry := mq.entry + 1 }

/-- The slot becomes the first of the queue (`:2055-2063`). -/
def linkFront : MessageQueue :=
  { mq with
    next := update mq.next msg mq.msgQueueHead
    msgQueueHead := some msg
    msgQueueTail := if mq.msgQueueTail = none then some msg else mq.msgQueueTail
    entry := mq.entry + 1 }

/-- The first slot of the queue, `msg`, is taken out (`:2197-2201` and `2257-2261`). -/
def moveHead : MessageQueue :=
  { mq with
    msgQueueHead := mq.next msg
    msgQueueTail := if mq.msgQueueTail = some msg then none else mq.msgQueueTail }

/-- The loop of `RT_IPC_CMD_RESET` (`:2252-2266`), at most `n` times. -/
def resetLoop : Nat → MessageQueue → MessageQueue
  | 0, mq => mq
  | n + 1, mq =>
    match mq.msgQueueHead with
    | none => mq
    | some msg => resetLoop n ((mq.moveHead msg).putFree msg)

/-- What `RT_IPC_CMD_RESET` does to the queue. There are at most `max_msgs` messages. -/
def reset : MessageQueue := { resetLoop mq.maxMsgs.toNat mq with entry := 0 }

end MessageQueue

/-- `rt_mq_init` (`:1740-1787`), with what was in the pool before. `sizeof(struct
rt_mq_message)` is 4. -/
def rtMqInit (next : Nat → Option Nat) (data : Nat → Nat → BitVec 8) (msgSize poolSize : Nat)
    (flag : IpcFlag) : MessageQueue :=
  let size := BitVec.ofNat 16 (rtAlign msgSize rtAlignSize)
  let mq : MessageQueue :=
    { flag := flag
      msgSize := size
      maxMsgs := BitVec.ofNat 16 (poolSize / (size.toNat + 4))
      entry := 0
      msgQueueHead := none
      msgQueueTail := none
      msgQueueFree := none
      next := next
      data := data }
  (List.range mq.maxMsgs.toNat).foldl MessageQueue.putFree mq

/-- `rt_mq_send` or `rt_mq_urgent`. -/
inductive MqSend
  | send | urgent
  deriving DecidableEq

inductive MqPc
  | idle
  /-- in `rt_mq_send` or `rt_mq_urgent`, with a slot, before or behind the copy -/
  | sending (kind : MqSend) (msg : Nat) (buffer : List (BitVec 8)) (copied : Bool)
  /-- waiting in `rt_mq_recv` -/
  | waiting (size : Nat) (timeout tickDelta : BitVec 32)
  /-- in `rt_mq_recv`, with a slot, and with what was copied from it -/
  | receiving (msg : Nat) (size : Nat) (out : Option (List (BitVec 8)))
  deriving DecidableEq

inductive MqOutcome
  | returned (e : RtErr)
  /-- `rt_mq_recv` returns `RT_EOK`, and this is in the buffer -/
  | received (out : List (BitVec 8))
  /-- the thread waits -/
  | blocked
  /-- the call goes on -/
  | proceeds
  /-- a null pointer is dereferenced -/
  | fault
  deriving DecidableEq

/-- The threads `τ`, the queue, the calls of threads and of interrupts `ε`, and `rt_tick`. -/
structure MqSys (τ ε : Type*) where
  k : Kernel τ Unit
  mq : MessageQueue
  pc : τ ⊕ ε → MqPc
  tick : BitVec 32

inductive MqOp (τ ε : Type*)
  /-- the first section of a send -/
  | take (a : τ ⊕ ε) (kind : MqSend) (buffer : List (BitVec 8))
  /-- the copy of a send -/
  | copy (a : τ ⊕ ε) (kind : MqSend) (msg : Nat) (buffer : List (BitVec 8))
  /-- the second section of a send -/
  | link (a : τ ⊕ ε) (kind : MqSend) (msg : Nat) (buffer : List (BitVec 8))
  /-- the first section of a receive; `self` is `rt_thread_self()` -/
  | recv (a : τ ⊕ ε) (self : τ) (size : Nat) (timeout : BitVec 32)
  /-- a thread that waited in `rt_mq_recv` runs again -/
  | recvAgain (t : τ) (size : Nat) (timeout tickDelta : BitVec 32)
  /-- the copy of a receive -/
  | recvCopy (a : τ ⊕ ε) (msg : Nat) (size : Nat)
  /-- the last section of a receive -/
  | recvEnd (a : τ ⊕ ε) (msg : Nat) (size : Nat) (out : List (BitVec 8))
  /-- `rt_mq_control` -/
  | control (cmd : BitVec 8)
  /-- the timer of `t` expires -/
  | timeout (t : τ)
  /-- `rt_tick_increase` -/
  | tick

namespace MqSys
variable {τ ε : Type*} [DecidableEq τ] [DecidableEq ε] (s : MqSys τ ε) (a : τ ⊕ ε) (t : τ)
variable (kind : MqSend) (msg : Nat) (buffer : List (BitVec 8)) (size : Nat)
  (timeout tickDelta : BitVec 32)

/-- The first section of `rt_mq_send` and `rt_mq_urgent` (`:1935-1958` and `2023-2046`). -/
def takeSlot : MqOutcome × MqSys τ ε :=
  -- greater than one message size
  if s.mq.msgSize.toNat < buffer.length then (.returned .error, s)
  else
    match s.mq.msgQueueFree with
    -- message queue is full
    | none => (.returned .efull, s)
    | some msg =>
      (.proceeds, { s with
        mq := s.mq.takeFree msg
        pc := update s.pc a (.sending kind msg buffer false) })

/-- The first section of `rt_mq_send` (`:1926-1958`). -/
def rtMqSend : MqOutcome × MqSys τ ε := s.takeSlot a .send buffer

/-- The first section of `rt_mq_urgent` (`:2014-2046`). -/
def rtMqUrgent : MqOutcome × MqSys τ ε := s.takeSlot a .urgent buffer

/-- The copy (`:1960-1963` and `2049`); `rt_mq_send` also sets `msg->next` to NULL. -/
def copyMessage : MqOutcome × MqSys τ ε :=
  let mq :=
    match kind with
    | .send => { s.mq with next := update s.mq.next msg none }
    | .urgent => s.mq
  (.proceeds, { s with
    mq := mq.copyIn msg buffer
    pc := update s.pc a (.sending kind msg buffer true) })

/-- The second section: the message is linked, and a thread that waits is resumed
(`:1966-2000` and `2052-2082`). -/
def linkMessage : MqOutcome × MqSys τ ε :=
  let mq :=
    match kind with
    | .send => s.mq.linkBack msg
    | .urgent => s.mq.linkFront msg
  (.returned .eok, { s with
    mq := mq
    k := if s.k.list (.wait ()) ≠ [] then s.k.rtIpcListResume () else s.k
    pc := update s.pc a .idle })

/-- `rt_mq_recv` behind the loop, up to the copy (`:2194-2207`). -/
def unlinkMessage : MqOutcome × MqSys τ ε :=
  match s.mq.msgQueueHead with
  | none => (.fault, s)
  | some msg =>
    (.proceeds, { s with
      mq := { s.mq.moveHead msg with entry := s.mq.entry - 1 }
      pc := update s.pc a (.receiving msg size none) })

def setError (e : RtErr) : MqSys τ ε :=
  { s with k := s.k.setThread t fun x => { x with error := e } }

/-- `rt_mq_recv` from the test of the loop on (`:2129`). -/
def recvLoop : MqOutcome × MqSys τ ε :=
  if s.mq.entry = 0 then
    -- reset error number in thread
    let s := s.setError t .eok
    if timeout = 0 then (.returned .etimeout, s.setError t .etimeout)
    else
      let tickDelta := if 0 < timeout.toInt then s.tick else tickDelta
      (.blocked, { s with
        k := s.k.ipcWait () t s.mq.flag timeout
        pc := update s.pc a (.waiting size timeout tickDelta) })
  else s.unlinkMessage a size

/-- `rt_mq_recv` (`:2097-2224`) up to `rt_schedule` or the copy. -/
def rtMqRecv : MqOutcome × MqSys τ ε :=
  -- for non-blocking call
  if s.mq.entry = 0 ∧ timeout = 0 then (.returned .etimeout, s)
  else s.recvLoop a t size timeout 0

/-- `rt_mq_recv` behind `rt_schedule`. -/
def rtMqRecvAgain : MqOutcome × MqSys τ ε :=
  let s' := { s with pc := update s.pc (.inl t) .idle }
  if (s.k.thread t).error ≠ .eok then (.returned (s.k.thread t).error, s')
  else
    let left := recalculate timeout tickDelta s.tick
    s'.recvLoop (.inl t) t size left.1 left.2

/-- The copy of `rt_mq_recv` (`:2209-2210`). -/
def rtMqRecvCopy : MqOutcome × MqSys τ ε :=
  let size' := if s.mq.msgSize.toNat < size then s.mq.msgSize.toNat else size
  (.proceeds, { s with pc := update s.pc a (.receiving msg size (some (s.mq.bytes msg size'))) })

/-- The last section of `rt_mq_recv` (`:2212-2218`). -/
def rtMqRecvEnd (out : List (BitVec 8)) : MqOutcome × MqSys τ ε :=
  (.received out, { s with
    mq := s.mq.putFree msg
    pc := update s.pc a .idle })

/-- `rt_mq_control` (`:2236-2281`); `RT_IPC_CMD_RESET` is 1. -/
def rtMqControl (cmd : BitVec 8) : MqOutcome × MqSys τ ε :=
  if cmd = 1 then (.returned .eok, { s with k := s.k.rtIpcListResumeAll (), mq := s.mq.reset })
  else (.returned .error, s)

/-- A thread runs when it is ready. -/
def CanRun : τ ⊕ ε → Prop
  | .inl t => (s.k.thread t).stat = .ready
  | .inr _ => True

def Enabled : MqOp τ ε → Prop
  | .take a _ _ => s.CanRun a ∧ s.pc a = .idle
  | .copy a kind msg buffer => s.CanRun a ∧ s.pc a = .sending kind msg buffer false
  | .link a kind msg buffer => s.CanRun a ∧ s.pc a = .sending kind msg buffer true
  | .recv (.inl t) self _ _ => s.CanRun (.inl t) ∧ s.pc (.inl t) = .idle ∧ self = t
  | .recv (.inr i) _ _ timeout => s.pc (.inr i) = .idle ∧ timeout = 0
  | .recvAgain t size timeout tickDelta =>
    s.CanRun (.inl t) ∧ s.pc (.inl t) = .waiting size timeout tickDelta
  | .recvCopy a msg size => s.CanRun a ∧ s.pc a = .receiving msg size none
  | .recvEnd a msg size out => s.CanRun a ∧ s.pc a = .receiving msg size (some out)
  | .control _ | .tick => True
  | .timeout t => (s.k.thread t).timerActivated = true

instance : Decidable (s.CanRun a) :=
  match a with
  | .inl _ => decEq _ _
  | .inr _ => .isTrue trivial

def apply : MqOp τ ε → MqOutcome × MqSys τ ε
  | .take a .send buffer => s.rtMqSend a buffer
  | .take a .urgent buffer => s.rtMqUrgent a buffer
  | .copy a kind msg buffer => s.copyMessage a kind msg buffer
  | .link a kind msg _ => s.linkMessage a kind msg
  | .recv a self size timeout => s.rtMqRecv a self size timeout
  | .recvAgain t size timeout tickDelta => s.rtMqRecvAgain t size timeout tickDelta
  | .recvCopy a msg size => s.rtMqRecvCopy a msg size
  | .recvEnd a msg _ out => s.rtMqRecvEnd a msg out
  | .control cmd => s.rtMqControl cmd
  | .timeout t => (.proceeds, { s with k := s.k.rtTimerCheck t })
  | .tick => (.proceeds, { s with tick := s.tick + 1 })

def machine : Machine (MqSys τ ε) (MqOp τ ε) MqOutcome := ⟨Enabled, apply⟩

def Step (s : MqSys τ ε) (e : MqOp τ ε × MqOutcome) (s' : MqSys τ ε) : Prop := machine.Step s e s'

instance (s : MqSys τ ε) (op : MqOp τ ε) : Decidable (machine.Enabled s op) :=
  match op with
  | .take .. | .copy .. | .link .. | .recvAgain .. | .recvCopy ..
  | .recvEnd .. | .recv (.inl _) _ _ _ | .recv (.inr _) _ _ _ =>
    instDecidableAnd
  | .control _ | .tick => .isTrue trivial
  | .timeout _ => decEq _ _

/-- A queue made by `rt_mq_init`, and a scheduler in order; no call is under way. -/
structure Start (s : MqSys τ ε) (msgSize poolSize : Nat) : Prop where
  k : s.k.WaitOk
  empty : s.k.list (.wait ()) = []
  mq : ∃ next data flag, s.mq = rtMqInit next data msgSize poolSize flag
  idle : ∀ a, s.pc a = .idle

end MqSys
end RtThread
