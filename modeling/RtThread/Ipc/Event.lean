import Mathlib.Logic.Function.Iterate
import RtThread.Lib.Successor
import RtThread.Ipc.Wait

/-!
# Events

`rt_event_init`, `rt_event_send`, `rt_event_recv` and `rt_event_control`, in steps that are the
sections with interrupts disabled. A thread waits until all of the flags it is interested in are
set, or one of them; it tests that itself before it waits, and `rt_event_send` tests it for every
waiting thread.
-/

namespace RtThread
open Function (update)

/-- `RT_EVENT_FLAG_AND` (`rtdef.h:598`). -/
def rtEventFlagAnd : BitVec 8 := 0x01

/-- `RT_EVENT_FLAG_OR` (`rtdef.h:599`). -/
def rtEventFlagOr : BitVec 8 := 0x02

/-- `RT_EVENT_FLAG_CLEAR` (`rtdef.h:600`). -/
def rtEventFlagClear : BitVec 8 := 0x04

/-- The fields of `struct rt_event` (`rtdef.h:605-610`). -/
structure Event where
  flag : IpcFlag
  set : BitVec 32

/-- `rt_event_init` (`ipc.c:889-906`). -/
def rtEventInit (flag : IpcFlag) : Event := ⟨flag, 0⟩

/-- The threads, the events with their suspend lists, and for each thread what it waits for in
`rt_event_recv`. -/
structure EventSys (τ ε : Type*) where
  k : Kernel τ ε
  event : ε → Event
  /-- `thread->event_set` -/
  eventSet : τ → BitVec 32
  /-- `thread->event_info` -/
  eventInfo : τ → BitVec 8
  receiving : τ → Option ε

/-- `rt_event_send` at the head of its loop: `n` is the thread whose node it has come to, `none` if
that is the header of the list. -/
structure SendLoop (τ ε : Type*) where
  sys : EventSys τ ε
  n : Option τ

/-- What `rt_event_recv` returns, and what it stores at `recved`, if it does. -/
abbrev Received := RtErr × Option (BitVec 32)

inductive EventOp (τ ε : Type*)
  /-- the first section of `rt_event_recv(i, set, option, time, &recved)`, called by `t` -/
  | recv (t : τ) (i : ε) (set : BitVec 32) (option : BitVec 8) (time : BitVec 32)
  /-- what `rt_event_recv` does behind `rt_schedule` -/
  | recvEnd (t : τ)
  /-- `rt_event_send(i, set)` -/
  | send (i : ε) (set : BitVec 32)
  /-- `rt_event_control(i, RT_IPC_CMD_RESET, arg)` -/
  | reset (i : ε)
  /-- the timer of `t` expires -/
  | timeout (t : τ)

/-- The `status` that `rt_event_recv` computes (`:1123-1137`). -/
def recvStatus (eventSet set : BitVec 32) (option : BitVec 8) : RtErr :=
  if option &&& rtEventFlagAnd ≠ 0 then
    if eventSet &&& set = set then .eok else .error
  else if option &&& rtEventFlagOr ≠ 0 then
    if eventSet &&& set ≠ 0 then .eok else .error
  else .error

/-- The `status` that `rt_event_send` computes for a thread, and `thread->event_set` after that
(`:1029-1048`). -/
def sendStatus (set threadSet : BitVec 32) (threadInfo : BitVec 8) : RtErr × BitVec 32 :=
  if threadInfo &&& rtEventFlagAnd ≠ 0 then
    if threadSet &&& set = threadSet then (.eok, threadSet) else (.error, threadSet)
  else if threadInfo &&& rtEventFlagOr ≠ 0 then
    -- save received event set
    if threadSet &&& set ≠ 0 then (.eok, threadSet &&& set) else (.error, threadSet)
  else (.error, threadSet)

namespace EventSys
variable {τ ε : Type*} [DecidableEq τ] [DecidableEq ε] (s : EventSys τ ε) (t : τ) (i : ε)
variable (set : BitVec 32)

@[simps -fullyApplied] def setSet : EventSys τ ε :=
  { s with event := update s.event i { s.event i with set := set } }

@[simps -fullyApplied] def setError (e : RtErr) : EventSys τ ε :=
  { s with k := s.k.setThread t fun x => { x with error := e } }

/-- `rt_event_recv` (`:1093-1201`) up to `rt_schedule`; the result is there unless the thread
has to wait. -/
def rtEventRecv (option : BitVec 8) (time : BitVec 32) : Option Received × EventSys τ ε :=
  if set = 0 then (some (.error, none), s)
  else
    -- reset thread error
    let s := s.setError t .eok
    if recvStatus (s.event i).set set option = .eok then
      let recved := (s.event i).set &&& set
      let s :=
        if option &&& rtEventFlagClear ≠ 0 then s.setSet i ((s.event i).set &&& ~~~set) else s
      (some ((s.k.thread t).error, some recved), s)
    else if time = 0 then
      -- no waiting
      let s := s.setError t .etimeout
      (some ((s.k.thread t).error, none), s)
    else
      -- fill thread event info
      (none, { s with
        eventSet := update s.eventSet t set
        eventInfo := update s.eventInfo t option
        k := s.k.ipcWait i t (s.event i).flag time
        receiving := update s.receiving t (some i) })

/-- `rt_event_recv` behind `rt_schedule`. -/
def rtEventRecvEnd : Received × EventSys τ ε :=
  let s' := { s with receiving := update s.receiving t none }
  if (s.k.thread t).error ≠ .eok then (((s.k.thread t).error, none), s')
  else (((s.k.thread t).error, some (s.eventSet t)), s')

/-- What a round of the loop of `rt_event_send` does for the thread (`:1027-1065`). -/
def deliver : EventSys τ ε :=
  let (status, threadSet) := sendStatus (s.event i).set (s.eventSet t) (s.eventInfo t)
  let s := { s with eventSet := update s.eventSet t threadSet }
  -- condition is satisfied, resume thread
  if status = .eok then
    let s :=
      if s.eventInfo t &&& rtEventFlagClear ≠ 0 then
        s.setSet i ((s.event i).set &&& ~~~s.eventSet t)
      else s
    { s with k := (s.k.rtThreadResume t).2 }
  else s

/-- A round of the loop of `rt_event_send` (`:1024-1066`); nothing happens once it has ended.
The next node is read before the thread is resumed. -/
def sendRound (c : SendLoop τ ε) : SendLoop τ ε :=
  match c.n with
  | none => c
  | some t => ⟨c.sys.deliver t i, (c.sys.k.list (.wait i)).nextOf t⟩

/-- `rt_event_send` after `m` rounds of its loop, for a set that is not 0. -/
def sendRounds (m : Nat) : SendLoop τ ε :=
  (sendRound i)^[m] ⟨s.setSet i ((s.event i).set ||| set), (s.k.list (.wait i)).head?⟩

/-- `rt_event_send` (`:998-1077`). -/
def rtEventSend : RtErr × EventSys τ ε :=
  if set = 0 then (.error, s)
  else (.eok, (s.sendRounds i set (s.k.list (.wait i)).length).sys)

/-- `rt_event_control` (`:1213-1238`) with `RT_IPC_CMD_RESET`. -/
def rtEventControlReset : RtErr × EventSys τ ε :=
  let s := { s with k := s.k.rtIpcListResumeAll i }
  (.eok, s.setSet i 0)

def Enabled : EventOp τ ε → Prop
  | .recv t _ _ _ _ => (s.k.thread t).stat = .ready ∧ s.receiving t = none
  | .recvEnd t => (s.k.thread t).stat = .ready ∧ s.receiving t ≠ none
  | .send _ _ | .reset _ => True
  | .timeout t => (s.k.thread t).timerActivated = true

def apply : EventOp τ ε → Option Received × EventSys τ ε
  | .recv t i set option time => s.rtEventRecv t i set option time
  | .recvEnd t => (some (s.rtEventRecvEnd t).1, (s.rtEventRecvEnd t).2)
  | .send i set => (some ((s.rtEventSend i set).1, none), (s.rtEventSend i set).2)
  | .reset i => (some ((s.rtEventControlReset i).1, none), (s.rtEventControlReset i).2)
  | .timeout t => (none, { s with k := s.k.rtTimerCheck t })

/-- The events as a machine. The result of a step is what the call that ends in it returns. -/
def machine : Machine (EventSys τ ε) (EventOp τ ε) (Option Received) := ⟨Enabled, apply⟩

def Step (s : EventSys τ ε) (e : EventOp τ ε × Option Received) (s' : EventSys τ ε) : Prop :=
  machine.Step s e s'

instance (s : EventSys τ ε) (op : EventOp τ ε) : Decidable (machine.Enabled s op) :=
  match op with
  | .recv .. | .recvEnd _ => instDecidableAnd
  | .send .. | .reset _ => .isTrue trivial
  | .timeout _ => decEq _ _

/-- The scheduler is in order, and no thread waits. -/
structure Start (s : EventSys τ ε) : Prop where
  k : s.k.WaitOk
  empty : ∀ i, s.k.list (.wait i) = []

end EventSys
end RtThread
