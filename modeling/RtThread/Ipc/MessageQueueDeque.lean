import RtThread.Lib.NodeList
import RtThread.Lib.Partition
import RtThread.Ipc.MessageQueueSteps

/-!
# A message queue is a bounded deque

`MqSpec` is what a queue is for: a deque of messages, where `rt_mq_send` adds at the back and
`rt_mq_urgent` at the front, and the messages that receivers took out and have not returned yet. The
link to the code says where every slot of the pool is: in the free list, in the queue, or with one
call that is under way.
-/

namespace RtThread
open Function
open MessageQueue
open List

/-- The messages in the queue, and those that calls of `rt_mq_recv` are about to return. -/
structure MqSpec (α : Type*) where
  deque : List (List (BitVec 8))
  taken : α → Option (List (BitVec 8))

namespace MqSpec
variable {τ ε : Type*} [DecidableEq τ] [DecidableEq ε]

def init : MqSpec (τ ⊕ ε) := ⟨[], fun _ => none⟩

def add (deque : List (List (BitVec 8))) (buffer : List (BitVec 8)) :
    MqSend → List (List (BitVec 8))
  | .send => deque ++ [buffer]
  | .urgent => buffer :: deque

/-- The steps of a deque for at most `maxMsgs` messages of at most `msgSize` bytes. A receiver gets
the bytes of its message as far as its buffer allows, and then what is behind them in the slot. -/
inductive Step (maxMsgs msgSize : Nat) (g : MqSpec (τ ⊕ ε)) :
    MqOp τ ε × MqOutcome → MqSpec (τ ⊕ ε) → Prop
  | link {a kind msg buffer} : buffer.length ≤ msgSize → g.deque.length < maxMsgs →
      Step maxMsgs msgSize g (.link a kind msg buffer, .returned .eok)
        { g with deque := add g.deque buffer kind }
  | unlink {op a x xs} : op.Receives a → g.deque = x :: xs →
      Step maxMsgs msgSize g (op, .proceeds) ⟨xs, update g.taken a (some x)⟩
  | receive {a msg size out x} : g.taken a = some x → out.length = min size msgSize →
      out.take x.length = x.take out.length →
      Step maxMsgs msgSize g (.recvEnd a msg size out, .received out)
        { g with taken := update g.taken a none }
  | reset : Step maxMsgs msgSize g (.control 1, .returned .eok) { g with deque := [] }
  /-- a receive that finds nothing -/
  | empty {op a r} : op.Receives a → g.deque = [] → r = .returned .etimeout ∨ r = .blocked →
      Step maxMsgs msgSize g (op, r) g
  /-- a send gets a slot, or a message is copied -/
  | take {a kind buffer} : Step maxMsgs msgSize g (.take a kind buffer, .proceeds) g
  | copy {a kind msg buffer} : Step maxMsgs msgSize g (.copy a kind msg buffer, .proceeds) g
  | read {a msg size} : Step maxMsgs msgSize g (.recvCopy a msg size, .proceeds) g
  | idle {e} : MqView.Idles e → Step maxMsgs msgSize g e g

end MqSpec

/-- A slot is in one of the lists, or a call has it. -/
inductive SlotPlace (α : Type*)
  | free
  | queue
  | send (a : α)
  | recv (a : α)
  deriving DecidableEq

namespace MqPc

def sendSlot : MqPc → Option Nat
  | .sending _ msg _ _ => some msg
  | .idle | .waiting _ _ _ | .receiving _ _ _ => none

def recvSlot : MqPc → Option Nat
  | .receiving msg _ _ => some msg
  | .idle | .waiting _ _ _ | .sending _ _ _ _ => none

section
variable {kind : MqSend} {msg size : Nat} {buffer : List (BitVec 8)} {copied : Bool}
  {out : Option (List (BitVec 8))}

@[simp] theorem sendSlot_idle : idle.sendSlot = none := rfl
@[simp] theorem recvSlot_idle : idle.recvSlot = none := rfl
@[simp] theorem sendSlot_sending : (sending kind msg buffer copied).sendSlot = some msg := rfl
@[simp] theorem recvSlot_sending : (sending kind msg buffer copied).recvSlot = none := rfl
@[simp] theorem sendSlot_receiving : (receiving msg size out).sendSlot = none := rfl
@[simp] theorem recvSlot_receiving : (receiving msg size out).recvSlot = some msg := rfl

end

theorem Slotless.sendSlot {x : MqPc} (h : x.Slotless) : x.sendSlot = none := by
  cases x with
  | idle | waiting => rfl
  | sending | receiving => exact h.elim

theorem Slotless.recvSlot {x : MqPc} (h : x.Slotless) : x.recvSlot = none := by
  cases x with
  | idle | waiting => rfl
  | sending | receiving => exact h.elim

end MqPc

def slotsIn {α : Type*} (pc : α → MqPc) (free queue : List Nat) : SlotPlace α → List Nat
  | .free => free
  | .queue => queue
  | .send a => (pc a).sendSlot.toList
  | .recv a => (pc a).recvSlot.toList

namespace MessageQueue
variable (mq : MessageQueue)

def Stores (msg : Nat) (x : List (BitVec 8)) : Prop :=
  x.length ≤ mq.msgSize.toNat ∧ mq.bytes msg x.length = x

/-- What a call knows of its slot. `taken` is the message that it took out, if it receives. -/
def CallOk (taken : Option (List (BitVec 8))) : MqPc → Prop
  | .idle | .waiting _ _ _ => True
  | .sending kind msg buffer copied =>
    buffer.length ≤ mq.msgSize.toNat ∧
      (copied = true → mq.Stores msg buffer ∧ (kind = .send → mq.next msg = none))
  | .receiving msg size out =>
    ∃ x, taken = some x ∧ mq.Stores msg x ∧
      ∀ o, out = some o → o = mq.bytes msg (min size mq.msgSize.toNat)

variable {mq} {mq' : MessageQueue} {taken : Option (List (BitVec 8))} {x : MqPc} {msg : Nat}

theorem Stores.congr {m : List (BitVec 8)} (h : mq.Stores msg m) (hsize : mq'.msgSize = mq.msgSize)
    (hdata : mq'.data msg = mq.data msg) : mq'.Stores msg m := by
  rw [Stores, hsize, bytes, hdata]
  exact h

theorem CallOk.congr (h : mq.CallOk taken x) (hsize : mq'.msgSize = mq.msgSize)
    (hslot : ∀ i, x.sendSlot = some i ∨ x.recvSlot = some i →
      mq'.data i = mq.data i ∧ mq'.next i = mq.next i) : mq'.CallOk taken x := by
  cases x with
  | idle | waiting => trivial
  | sending kind msg buffer copied =>
    obtain ⟨hdata, hnext⟩ := hslot msg (.inl rfl)
    obtain ⟨hlen, hcopied⟩ := h
    refine ⟨by rwa [hsize], fun hc => ⟨(hcopied hc).1.congr hsize hdata, fun hk => ?_⟩⟩
    rw [hnext]
    exact (hcopied hc).2 hk
  | receiving msg size out =>
    obtain ⟨hdata, hnext⟩ := hslot msg (.inr rfl)
    obtain ⟨m, htaken, hstores, hout⟩ := h
    refine ⟨m, htaken, hstores.congr hsize hdata, fun o ho => ?_⟩
    rw [hout o ho, bytes, bytes, hdata, hsize]

theorem CallOk.of_slotless (h : x.Slotless) : mq.CallOk taken x := by
  cases x with
  | idle | waiting => trivial
  | sending | receiving => exact h.elim

theorem take_bytes (j size : Nat) : (mq.bytes msg size).take j = mq.bytes msg (min j size) := by
  rw [bytes, bytes, ← map_take, take_range]

theorem stores_copyIn {buffer : List (BitVec 8)} (hlen : buffer.length ≤ mq.msgSize.toNat) :
    (mq.copyIn msg buffer).Stores msg buffer := by
  refine ⟨hlen, ext_getElem (by simp [bytes]) fun j hj hj' => ?_⟩
  simp [bytes, copyIn, hj']

end MessageQueue

namespace MqView
variable {α : Type*} {v v' : MqView α} {free queue : List Nat} {a b : α} {msg i : Nat}

/-- The two lists of the queue, and the slots of the calls, are all slots. -/
structure Lists (v : MqView α) (free queue : List Nat) : Prop where
  split : SplitInto (· < v.mq.maxMsgs.toNat) (slotsIn v.pc free queue)
  freeFrom : NodesFrom v.mq.next v.mq.msgQueueFree free
  queueFrom : NodesFrom v.mq.next v.mq.msgQueueHead queue
  tail : v.mq.msgQueueTail = queue.getLast?

/-- The link between the queue and the abstract deque. -/
structure Ok (v : MqView α) (g : MqSpec α) (free queue : List Nat) : Prop
    extends Lists v free queue where
  entry : v.mq.entry.toNat = queue.length
  stored : Forall₂ v.mq.Stores queue g.deque
  calls : ∀ a, v.mq.CallOk (g.taken a) (v.pc a)

variable {g : MqSpec α} {pc : α → MqPc} {p : SlotPlace α} {mq : MessageQueue} {x : MqPc}
  {taken : α → Option (List (BitVec 8))} {kind : MqSend} {buffer : List (BitVec 8)}

attribute [local simp] slotsIn

theorem Lists.queue_eq_nil (h : Lists v free queue) (hhead : v.mq.msgQueueHead = none) :
    queue = [] :=
  head?_eq_none_iff.mp (h.queueFrom.eq_head?.symm.trans hhead)

theorem Lists.slot_ne (h : Lists v free queue)
    (hi : i ∈ slotsIn v.pc free queue p) (hsend : p ≠ .send b) (hrecv : p ≠ .recv b) {j : Nat}
    (hj : (v.pc b).sendSlot = some j ∨ (v.pc b).recvSlot = some j) : j ≠ i := by
  rintro rfl
  rcases hj with hj | hj
  · have hin : j ∈ slotsIn v.pc free queue (.send b) := by simp [hj]
    exact hsend (h.split.unique hi hin)
  · have hin : j ∈ slotsIn v.pc free queue (.recv b) := by simp [hj]
    exact hrecv (h.split.unique hi hin)

theorem Lists.call_frame (h : Lists v free queue) {taken : Option (List (BitVec 8))}
    (hcall : v.mq.CallOk taken (v.pc b))
    (hsize : mq.msgSize = v.mq.msgSize) (hi : i ∈ slotsIn v.pc free queue p)
    (hsend : p ≠ .send b) (hrecv : p ≠ .recv b)
    (hother : ∀ j, j ≠ i → mq.data j = v.mq.data j ∧ mq.next j = v.mq.next j) :
    mq.CallOk taken (v.pc b) :=
  hcall.congr hsize fun j hj => hother j (h.slot_ne hi hsend hrecv hj)

theorem Ok.stored_frame (h : Ok v g free queue)
    (hsize : mq.msgSize = v.mq.msgSize) (hdata : ∀ j ∈ queue, mq.data j = v.mq.data j) :
    Forall₂ mq.Stores queue g.deque := by
  have hstored := h.stored
  generalize g.deque = deque at hstored ⊢
  clear h
  induction hstored with
  | nil => exact .nil
  | cons hfirst _ ih =>
    exact .cons (hfirst.congr hsize (hdata _ mem_cons_self))
      (ih fun j hj => hdata j (mem_cons_of_mem _ hj))

theorem Lists.not_mem_free (h : Lists v free queue) (hi : i ∈ slotsIn v.pc free queue p)
    (hp : p ≠ .free) : i ∉ free :=
  h.split.not_mem hi hp

theorem Lists.not_mem_queue (h : Lists v free queue) (hi : i ∈ slotsIn v.pc free queue p)
    (hp : p ≠ .queue) : i ∉ queue :=
  h.split.not_mem hi hp

def linked (queue : List Nat) (msg : Nat) : MqSend → List Nat
  | .send => queue ++ [msg]
  | .urgent => msg :: queue

theorem perm_linked (kind : MqSend) : (linked queue msg kind).Perm (msg :: queue) := by
  cases kind with
  | send => exact perm_append_singleton msg queue
  | urgent => exact .refl _

theorem Lists.link_next (h : Lists v free queue) (kind : MqSend) (hi : i ∉ queue) (hne : i ≠ msg) :
    (v.mq.link kind msg).next i = v.mq.next i := by
  cases kind with
  | send =>
    cases hlast : v.mq.msgQueueTail with
    | none => simp [link, linkBack, hlast]
    | some last =>
      have hil : i ≠ last := by
        rintro rfl
        exact hi (mem_of_getLast? (h.tail.symm.trans hlast))
      simp [link, linkBack, hlast, hil]
  | urgent => simp [link, linkFront, hne]

theorem Lists.linkBack (h : Lists v free queue) (hqueue : msg ∉ queue)
    (hnext : v.mq.next msg = none) :
    NodesFrom (v.mq.linkBack msg).next (v.mq.linkBack msg).msgQueueHead (queue ++ [msg]) ∧
      (v.mq.linkBack msg).msgQueueTail = (queue ++ [msg]).getLast? := by
  refine ⟨?_, by simp [MessageQueue.linkBack]⟩
  have hfrom := h.queueFrom
  have hhead := hfrom.eq_head?
  have htail := h.tail
  cases hlast : queue.getLast? with
  | none =>
    obtain rfl := getLast?_eq_none_iff.mp hlast
    simp [linkBack, hhead, htail, hnext]
  | some last =>
    have hne : queue ≠ [] := by
      rintro rfl
      cases hlast
    have hsome : v.mq.msgQueueHead ≠ none := by
      rw [hhead]
      simpa using hne
    rw [hlast] at htail
    simp only [MessageQueue.linkBack, htail, hsome, if_false]
    exact hfrom.append hlast (h.split.nodup .queue) hqueue hnext

theorem Lists.linkFront (h : Lists v free queue) (hqueue : msg ∉ queue) :
    NodesFrom (v.mq.linkFront msg).next (v.mq.linkFront msg).msgQueueHead (msg :: queue) ∧
      (v.mq.linkFront msg).msgQueueTail = (msg :: queue).getLast? := by
  refine ⟨h.queueFrom.push hqueue, ?_⟩
  have htail := h.tail
  cases queue with
  | nil => simp [linkFront, htail]
  | cons i queue =>
    rw [getLast?_cons_cons, ← htail]
    have hsome : v.mq.msgQueueTail ≠ none := by simp [htail]
    simp [linkFront, hsome]

theorem Lists.moveHead (h : Lists v free (i :: queue)) (hhead : v.mq.msgQueueHead = some msg) :
    i = msg ∧ NodesFrom v.mq.next (v.mq.moveHead msg).msgQueueHead queue ∧
      (v.mq.moveHead msg).msgQueueTail = queue.getLast? := by
  have hfrom := h.queueFrom
  rw [hhead] at hfrom
  obtain ⟨heq, hrest⟩ := hfrom
  cases heq
  refine ⟨rfl, hrest, ?_⟩
  have htail := h.tail
  have hnodup : (msg :: queue).Nodup := h.split.nodup .queue
  cases queue with
  | nil => simp [moveHead, htail]
  | cons j queue =>
    rw [getLast?_cons_cons] at htail
    have hne : v.mq.msgQueueTail ≠ some msg := by
      rw [htail]
      intro hlast
      exact (nodup_cons.mp hnodup).1 (mem_of_getLast? hlast)
    simp only [moveHead, hne, if_false]
    exact htail

variable [DecidableEq α]

theorem slotsIn_update {free' queue' : List Nat} {r : SlotPlace α}
    (hfree : r = .free → free' = free) (hqueue : r = .queue → queue' = queue)
    (hsend : r = .send a → x.sendSlot = (pc a).sendSlot)
    (hrecv : r = .recv a → x.recvSlot = (pc a).recvSlot) :
    slotsIn (update pc a x) free' queue' r = slotsIn pc free queue r := by
  cases r with
  | free => exact hfree rfl
  | queue => exact hqueue rfl
  | send b =>
    by_cases hb : b = a
    · subst hb
      simp [hsend]
    · simp [hb]
  | recv b =>
    by_cases hb : b = a
    · subst hb
      simp [hrecv]
    · simp [hb]

theorem slotsIn_update_same (hsend : x.sendSlot = (pc a).sendSlot)
    (hrecv : x.recvSlot = (pc a).recvSlot) :
    slotsIn (update pc a x) free queue = slotsIn pc free queue :=
  funext fun _ => slotsIn_update (fun _ => rfl) (fun _ => rfl) (fun _ => hsend) fun _ => hrecv

theorem calls_update (hother : ∀ b, b ≠ a → mq.CallOk (taken b) (pc b)) (hx : mq.CallOk (taken a) x)
    (b : α) : mq.CallOk (taken b) (update pc a x b) := by
  by_cases hb : b = a
  · subst hb
    rwa [update_self]
  · rw [update_of_ne hb]
    exact hother b hb

theorem Ok.take (h : Ok v g free queue) (hpc : v.pc a = .idle)
    (hlen : buffer.length ≤ v.mq.msgSize.toNat) (hfree : v.mq.msgQueueFree = some msg) :
    ∃ free', Ok ⟨v.mq.takeFree msg, update v.pc a (.sending kind msg buffer false)⟩ g
      free' queue := by
  have hfrom := h.freeFrom
  rw [hfree] at hfrom
  cases free with
  | nil => cases hfrom
  | cons i free' =>
    obtain ⟨heq, hrest⟩ := hfrom
    cases heq
    refine ⟨free', ⟨⟨?_, hrest, h.queueFrom, h.tail⟩, h.entry, h.stored, calls_update ?_ ?_⟩⟩
    · refine h.split.move (p := .free) (q := .send a) (.refl _) (by simp) ?_ fun r hr hr' => ?_
      · simp [hpc]
      · exact slotsIn_update (absurd · hr) (fun _ => rfl) (absurd · hr') fun _ => by simp [hpc]
    · exact fun b _ => (h.calls b).congr rfl fun _ _ => ⟨rfl, rfl⟩
    · exact ⟨hlen, nofun⟩

theorem Ok.copy (h : Ok v g free queue) (hpc : v.pc a = .sending kind msg buffer false) :
    Ok ⟨(v.mq.prepare kind msg).copyIn msg buffer, update v.pc a (.sending kind msg buffer true)⟩
      g free queue := by
  have hin : msg ∈ slotsIn v.pc free queue (.send a) := by simp [hpc]
  have hcall := h.calls a
  rw [hpc] at hcall
  have hfree : msg ∉ free := h.not_mem_free hin (by simp)
  have hqueue : msg ∉ queue := h.not_mem_queue hin (by simp)
  have hsize : ((v.mq.prepare kind msg).copyIn msg buffer).msgSize = v.mq.msgSize := by
    cases kind <;> rfl
  have hother : ∀ j, j ≠ msg → ((v.mq.prepare kind msg).copyIn msg buffer).data j = v.mq.data j ∧
      ((v.mq.prepare kind msg).copyIn msg buffer).next j = v.mq.next j := by
    intro j hj
    cases kind <;> simp [prepare, copyIn, hj]
  have hnext : ∀ {p : Option Nat} {l : List Nat}, msg ∉ l → NodesFrom v.mq.next p l →
      NodesFrom ((v.mq.prepare kind msg).copyIn msg buffer).next p l := by
    intro p l hl hfrom
    refine hfrom.congr fun j hj => (hother j ?_).2
    rintro rfl
    exact hl hj
  have hsame : slotsIn (update v.pc a (.sending kind msg buffer true)) free queue =
      slotsIn v.pc free queue :=
    slotsIn_update_same (by simp [hpc]) (by simp [hpc])
  refine ⟨⟨?_, ?_, ?_, ?_⟩, ?_, ?_, calls_update (fun b hb => ?_) ?_⟩
  · rw [hsame]
    cases kind <;> exact h.split
  · cases kind <;> exact hnext hfree h.freeFrom
  · cases kind <;> exact hnext hqueue h.queueFrom
  · cases kind <;> exact h.tail
  · cases kind <;> exact h.entry
  · refine h.stored_frame hsize fun j hj => (hother j ?_).1
    rintro rfl
    exact hqueue hj
  · have hne : a ≠ b := Ne.symm hb
    exact h.call_frame (h.calls b) hsize hin (by simpa using hne) (by simp) hother
  · cases kind with
    | send =>
      refine ⟨hcall.1, fun _ => ⟨stores_copyIn hcall.1, fun _ => ?_⟩⟩
      simp [prepare, copyIn]
    | urgent =>
      exact ⟨hcall.1, fun _ => ⟨stores_copyIn hcall.1, nofun⟩⟩

theorem Ok.link (h : Ok v g free queue) (hpc : v.pc a = .sending kind msg buffer true) :
    Ok ⟨v.mq.link kind msg, update v.pc a .idle⟩ { g with deque := MqSpec.add g.deque buffer kind }
      free (linked queue msg kind) ∧ g.deque.length < v.mq.maxMsgs.toNat := by
  have hin : msg ∈ slotsIn v.pc free queue (.send a) := by simp [hpc]
  have hcall := h.calls a
  rw [hpc] at hcall
  obtain ⟨hstores, hnext⟩ := hcall.2 rfl
  have hqueue : msg ∉ queue := h.not_mem_queue hin (by simp)
  have hfree : msg ∉ free := h.not_mem_free hin (by simp)
  have hroom : queue.length < v.mq.maxMsgs.toNat :=
    h.split.length_lt (p := SlotPlace.queue) hin (by simp)
  have hlinked : NodesFrom (v.mq.link kind msg).next (v.mq.link kind msg).msgQueueHead
      (linked queue msg kind) ∧
      (v.mq.link kind msg).msgQueueTail = (linked queue msg kind).getLast? := by
    cases kind with
    | send => exact h.linkBack hqueue (hnext rfl)
    | urgent => exact h.linkFront hqueue
  refine ⟨⟨⟨?_, ?_, hlinked.1, hlinked.2⟩, ?_, ?_, calls_update (fun b hb => ?_) trivial⟩, ?_⟩
  · have hmax : (v.mq.link kind msg).maxMsgs = v.mq.maxMsgs := by cases kind <;> rfl
    rw [hmax]
    refine h.split.move (p := .send a) (q := .queue) ?_ (by simp) (perm_linked kind)
      fun r hr hr' => ?_
    · simp [hpc]
    · exact slotsIn_update (fun _ => rfl) (absurd · hr') (absurd · hr) fun _ => by simp [hpc]
  · have hfrom : NodesFrom (v.mq.link kind msg).next v.mq.msgQueueFree free := by
      refine h.freeFrom.congr fun j hj => h.link_next kind ?_ ?_
      · exact h.not_mem_queue (p := .free) hj (by simp)
      · rintro rfl
        exact hfree hj
    cases kind <;> exact hfrom
  · have hentry : (v.mq.link kind msg).entry = v.mq.entry + 1 := by cases kind <;> rfl
    have hold := h.entry
    rw [hentry, (perm_linked kind).length_eq, length_cons]
    bv_omega
  · cases kind with
    | send => exact rel_append h.stored (.cons hstores .nil)
    | urgent => exact .cons hstores h.stored
  · have hne : SlotPlace.send a ≠ .send b := by simpa using Ne.symm hb
    refine (h.calls b).congr (by cases kind <;> rfl) fun j hj => ⟨by cases kind <;> rfl, ?_⟩
    refine h.link_next kind (fun hjq => ?_) (h.slot_ne hin hne (by simp) hj)
    exact h.slot_ne (p := .queue) hjq (by simp) (by simp) hj rfl
  · rw [← h.stored.length_eq]
    exact hroom

section
variable (h : Ok v g free queue) {size : Nat}
include h

theorem Ok.unlink (hpc : (v.pc a).Slotless) (hentry : v.mq.entry ≠ 0)
    (hhead : v.mq.msgQueueHead = some msg) :
    ∃ x xs queue', g.deque = x :: xs ∧ Ok ⟨{ v.mq.moveHead msg with entry := v.mq.entry - 1 },
        update v.pc a (.receiving msg size none)⟩ ⟨xs, update g.taken a (some x)⟩ free queue' := by
  have hlen := h.entry
  have hstored := h.stored
  cases queue with
  | nil =>
    have hzero : v.mq.entry.toNat = 0 := hlen
    exact absurd (BitVec.eq_of_toNat_eq hzero) hentry
  | cons i queue =>
    obtain ⟨rfl, hfrom, htail⟩ := h.moveHead hhead
    generalize hdeque : g.deque = deque at hstored
    cases hstored with
    | @cons _ x _ xs hfirst hrest =>
      refine ⟨x, xs, queue, rfl, ⟨⟨?_, h.freeFrom, hfrom, htail⟩, ?_, hrest, calls_update ?_ ?_⟩⟩
      · refine h.split.move (p := .queue) (q := .recv a) (.refl _) (by simp) ?_ fun r hr hr' => ?_
        · simp [hpc.recvSlot]
        · exact slotsIn_update (fun _ => rfl) (absurd · hr) (fun _ => hpc.sendSlot.symm)
            (absurd · hr')
      · have hne : v.mq.entry.toNat = queue.length + 1 := hlen
        bv_omega
      · intro b hb
        simp only [update_of_ne hb]
        exact (h.calls b).congr rfl fun _ _ => ⟨rfl, rfl⟩
      · simp only [update_self]
        exact ⟨x, rfl, hfirst, nofun⟩

theorem Ok.release {out : List (BitVec 8)} (hpc : v.pc a = .receiving msg size (some out)) :
    Ok ⟨v.mq.putFree msg, update v.pc a .idle⟩ { g with taken := update g.taken a none }
      (msg :: free) queue ∧
    ∃ x, g.taken a = some x ∧ out.length = min size v.mq.msgSize.toNat ∧
      out.take x.length = x.take out.length := by
  have hin : msg ∈ slotsIn v.pc free queue (.recv a) := by simp [hpc]
  have hcall := h.calls a
  rw [hpc] at hcall
  obtain ⟨x, htaken, hstores, hout⟩ := hcall
  have hqueue : msg ∉ queue := h.not_mem_queue hin (by simp)
  have hfree : msg ∉ free := h.not_mem_free hin (by simp)
  refine ⟨⟨⟨?_, h.freeFrom.push hfree, h.queueFrom.update hqueue _, h.tail⟩, h.entry,
    h.stored, calls_update ?_ trivial⟩, x, htaken, ?_, ?_⟩
  · refine h.split.move (p := .recv a) (q := .free) ?_ (by simp) (.refl _) fun r hr hr' => ?_
    · simp [hpc]
    · exact slotsIn_update (absurd · hr') (fun _ => rfl) (fun _ => by simp [hpc]) (absurd · hr)
  · intro b hb
    have hne : SlotPlace.recv a ≠ .recv b := by simpa using Ne.symm hb
    simp only [update_of_ne hb]
    refine h.call_frame (h.calls b) rfl hin (by simp) hne fun j hj => ⟨rfl, ?_⟩
    simp [putFree, hj]
  · rw [hout out rfl, bytes, length_map, length_range]
  · obtain ⟨-, hx⟩ := hstores
    rw [hout out rfl, take_bytes, ← hx, take_bytes]
    simp [bytes, Nat.min_comm]

theorem Ok.read (hpc : v.pc a = .receiving msg size none) : Ok ⟨v.mq, update v.pc a
      (.receiving msg size (some (v.mq.bytes msg (min size v.mq.msgSize.toNat))))⟩ g
        free queue := by
  have hcall := h.calls a
  rw [hpc] at hcall
  obtain ⟨x, htaken, hstores, -⟩ := hcall
  refine ⟨⟨?_, h.freeFrom, h.queueFrom, h.tail⟩, h.entry, h.stored,
    calls_update (fun b _ => h.calls b) ⟨x, htaken, hstores, ?_⟩⟩
  · rw [slotsIn_update_same (by simp [hpc]) (by simp [hpc])]
    exact h.split
  · intro o ho
    exact (Option.some.inj ho).symm

theorem Ok.slotless (hpc : (v.pc a).Slotless)
    (hx : x.Slotless) : Ok ⟨v.mq, update v.pc a x⟩ g free queue := by
  refine ⟨⟨?_, h.freeFrom, h.queueFrom, h.tail⟩, h.entry, h.stored,
    calls_update (fun b _ => h.calls b) (.of_slotless hx)⟩
  rw [slotsIn_update_same (by rw [hx.sendSlot, hpc.sendSlot]) (by rw [hx.recvSlot, hpc.recvSlot])]
  exact h.split

end

theorem Lists.resetStep (h : Lists v free (i :: queue)) (hhead : v.mq.msgQueueHead = some msg) :
    Lists ⟨(v.mq.moveHead msg).putFree msg, v.pc⟩ (msg :: free) queue := by
  obtain ⟨rfl, hfrom, htail⟩ := h.moveHead hhead
  have hin : i ∈ slotsIn v.pc free (i :: queue) .queue := by simp
  have hnodup : (i :: queue).Nodup := h.split.nodup .queue
  refine ⟨?_, h.freeFrom.push (h.not_mem_free hin (by simp)),
    hfrom.update (nodup_cons.mp hnodup).1 _, htail⟩
  refine h.split.move (p := .queue) (q := .free) (.refl _) (by simp) (.refl _) fun r hr hr' => ?_
  cases r with
  | free => exact absurd rfl hr'
  | queue => exact absurd rfl hr
  | send | recv => rfl

theorem Lists.resetLoop (h : Lists v free queue) {n : Nat} (hn : queue.length ≤ n)
    (hcalls : ∀ b, v.mq.CallOk (taken b) (v.pc b)) :
    ∃ free', Lists ⟨resetLoop n v.mq, v.pc⟩ free' [] ∧
      ∀ b, (resetLoop n v.mq).CallOk (taken b) (v.pc b) := by
  induction n generalizing v free queue with
  | zero =>
    obtain rfl := length_eq_zero_iff.mp (Nat.le_zero.mp hn)
    exact ⟨free, h, hcalls⟩
  | succ n ih =>
    rw [resetLoop]
    split
    · rename_i hhead
      obtain rfl := h.queue_eq_nil hhead
      exact ⟨free, h, hcalls⟩
    · rename_i msg hhead
      cases queue with
      | nil => cases hhead.symm.trans h.queueFrom
      | cons i queue =>
        have hin : i ∈ slotsIn v.pc free (i :: queue) .queue := by simp
        refine ih (h.resetStep hhead)
          (Nat.le_of_succ_le_succ hn) fun b => ?_
        obtain ⟨rfl, -⟩ := h.moveHead hhead
        refine h.call_frame (hcalls b) rfl hin (by simp) (by simp) fun j hj => ⟨rfl, ?_⟩
        simp [putFree, MessageQueue.moveHead, hj]

theorem Ok.reset (h : Ok v g free queue) :
    ∃ free', Ok ⟨v.mq.reset, v.pc⟩ { g with deque := [] } free' [] := by
  obtain ⟨free', hlists, hcalls⟩ := h.toLists.resetLoop (h.split.length_le .queue) h.calls
  exact ⟨free', ⟨hlists.split, hlists.freeFrom, hlists.queueFrom, hlists.tail⟩, rfl, .nil,
    fun b => (hcalls b).congr rfl fun _ _ => ⟨rfl, rfl⟩⟩

end MqView

namespace MessageQueue

end MessageQueue

namespace MqView
variable {τ ε : Type*} [DecidableEq τ] [DecidableEq ε] {v v' : MqView (τ ⊕ ε)}
  {g : MqSpec (τ ⊕ ε)} {e : MqOp τ ε × MqOutcome} {free queue : List Nat}

end MqView

theorem foldl_putFree (mq : MessageQueue) (n : Nat) (hfree : mq.msgQueueFree = none) :
    ∃ next free, (range n).foldl putFree mq = { mq with next := next, msgQueueFree := free } ∧
      NodesFrom next free (range n).reverse := by
  induction n with
  | zero => exact ⟨mq.next, mq.msgQueueFree, rfl, hfree⟩
  | succ n ih =>
    obtain ⟨next, free, heq, hfrom⟩ := ih
    refine ⟨update next n free, some n, ?_, ?_⟩
    · rw [range_succ, foldl_append, heq]
      rfl
    · rw [range_succ, reverse_append]
      exact hfrom.push (by simp)

theorem rtMqInit_lists (next : Nat → Option Nat) (data : Nat → Nat → BitVec 8)
    (msgSize poolSize : Nat) (flag : IpcFlag) (mq : MessageQueue)
    (hmq : mq = rtMqInit next data msgSize poolSize flag) :
    NodesFrom mq.next mq.msgQueueFree (range mq.maxMsgs.toNat).reverse ∧
      mq.msgQueueHead = none ∧ mq.msgQueueTail = none ∧ mq.entry = 0 := by
  rw [rtMqInit] at hmq
  generalize BitVec.ofNat 16 (rtAlign msgSize rtAlignSize) = size at hmq
  generalize BitVec.ofNat 16 (poolSize / (size.toNat + 4)) = max at hmq
  obtain ⟨next', free, heq, hfrom⟩ :=
    foldl_putFree ⟨flag, size, max, 0, none, none, none, next, data⟩ max.toNat rfl
  have hlast := hmq.trans heq
  subst hlast
  exact ⟨hfrom, rfl, rfl, rfl⟩

namespace MqSys
variable {τ ε : Type*} {s₀ s : MqSys τ ε}
  {tr : List (MqOp τ ε × MqOutcome)} {msgSize poolSize : Nat}

attribute [local simp] slotsIn

theorem Start.ok (h : Start s msgSize poolSize) :
    s.view.Ok MqSpec.init (range s.mq.maxMsgs.toNat).reverse [] := by
  obtain ⟨next, data, flag, hinit⟩ := h.mq
  obtain ⟨hfree, hhead, htail, hentry⟩ := rtMqInit_lists _ _ _ _ _ s.mq hinit
  refine ⟨⟨⟨fun p => ?_, fun {p i} hi => ?_, fun {i} hi => ?_⟩, hfree, hhead, htail⟩,
    congrArg BitVec.toNat hentry, .nil, fun a => ?_⟩
  · cases p with
    | free => simpa using nodup_range
    | queue => exact nodup_nil
    | send a | recv a => simp [h.idle a]
  · cases p with
    | free => simpa using hi
    | queue => cases hi
    | send a | recv a => simp [h.idle a] at hi
  · refine ⟨.free, by simpa using hi, fun p hp => ?_⟩
    cases p with
    | free => rfl
    | queue => cases hp
    | send a | recv a => simp [h.idle a] at hp
  · rw [view_pc, h.idle a]
    trivial

variable [DecidableEq τ] [DecidableEq ε]

end MqSys
end RtThread
