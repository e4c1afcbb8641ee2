import RtThread.Drivers.DataQueue

/-!
# A data queue is a bounded queue

Runs of threads and interrupts that push and pop. As long as every item is pushed in a state with
`DataQueue.PushOk`, what was pushed is what was popped followed by what is stored, and at most
`size` items are stored.
-/

namespace RtThread
open Function
open List

inductive DataQueuePc (α : Type*)
  | idle
  /-- behind `rt_schedule` in `rt_data_queue_push` -/
  | pushing (x : α) (timeout : BitVec 32)
  /-- behind `rt_schedule` in `rt_data_queue_pop` -/
  | popping (timeout : BitVec 32)

inductive DataQueueOp (τ α : Type*)
  /-- `rt_data_queue_push`, called by the thread `t` -/
  | push (t : τ) (x : α) (timeout : BitVec 32)
  /-- `rt_data_queue_push` with the timeout 0, in an interrupt -/
  | pushIsr (x : α)
  /-- `rt_data_queue_pop`, called by the thread `t` -/
  | pop (t : τ) (timeout : BitVec 32)
  /-- `rt_data_queue_pop` with the timeout 0, in an interrupt -/
  | popIsr
  /-- the thread runs again, behind `rt_schedule` -/
  | wakeup (t : τ)
  /-- the timer of `t` expires -/
  | timeout (t : τ)

structure DataQueueSys (τ α : Type*) extends DataQueueState τ α where
  pc : τ → DataQueuePc α

namespace DataQueuePc
variable {α : Type*}

def isIdle : DataQueuePc α → Bool
  | .idle => true
  | .pushing _ _ | .popping _ => false

def isPushing : DataQueuePc α → Bool
  | .pushing _ _ => true
  | .idle | .popping _ => false

end DataQueuePc

namespace DataQueueSys
variable {τ α : Type*} [DecidableEq τ]

section Functions
variable (s : DataQueueSys τ α) (t : τ)

/-- The state after a section of the thread `t`, which waits at `pc` or returns. -/
def settle (pc : DataQueuePc α) (out : DataQueueResult α × DataQueueState τ α) :
    DataQueueResult α × DataQueueSys τ α :=
  match out with
  | (.void, state) => (.void, ⟨state, update s.pc t pc⟩)
  | (r, state) => (r, ⟨state, update s.pc t .idle⟩)

/-- The thread `t` runs again (`dataqueue.c:115-118` and `205-209`). -/
def wakeup : DataQueueResult α × DataQueueSys τ α :=
  match s.pc t with
  | .idle => (.void, s)
  | .pushing x timeout =>
    if (s.k.thread t).error ≠ .eok then
      (.fails (s.k.thread t).error, { s with pc := update s.pc t .idle })
    else s.settle t (.pushing x timeout) (s.rtDataQueuePush t x timeout)
  | .popping timeout =>
    if (s.k.thread t).error ≠ .eok then
      (.fails (s.k.thread t).error, { s with pc := update s.pc t .idle })
    else s.settle t (.popping timeout) (s.rtDataQueuePop t timeout)

def Enabled : DataQueueOp τ α → Prop
  | .push t _ _ | .pop t _ => (s.k.thread t).stat = .ready ∧ (s.pc t).isIdle = true
  | .wakeup t => (s.k.thread t).stat = .ready ∧ (s.pc t).isIdle = false
  | .pushIsr _ | .popIsr => True
  | .timeout t => (s.k.thread t).timerActivated = true

def apply : DataQueueOp τ α → DataQueueResult α × DataQueueSys τ α
  | .push t x timeout => s.settle t (.pushing x timeout) (s.rtDataQueuePush t x timeout)
  | .pushIsr x => (s.rtDataQueuePushIsr x).map id fun state => ⟨state, s.pc⟩
  | .pop t timeout => s.settle t (.popping timeout) (s.rtDataQueuePop t timeout)
  | .popIsr => s.rtDataQueuePopIsr.map id fun state => ⟨state, s.pc⟩
  | .wakeup t => s.wakeup t
  | .timeout t => (.void, { s with k := s.k.rtTimerCheck t })

def isPush : DataQueueOp τ α → Bool
  | .push _ _ _ | .pushIsr _ => true
  | .wakeup t => (s.pc t).isPushing
  | .pop _ _ | .popIsr | .timeout _ => false

end Functions

def machine : Machine (DataQueueSys τ α) (DataQueueOp τ α) (DataQueueResult α) := ⟨Enabled, apply⟩

instance (s : DataQueueSys τ α) (op : DataQueueOp τ α) : Decidable (machine.Enabled s op) :=
  match op with
  | .push .. | .pop .. | .wakeup _ => instDecidableAnd
  | .pushIsr _ | .popIsr => .isTrue trivial
  | .timeout _ => decEq _ _

inductive Effect (q : DataQueue α) : Bool → DataQueueResult α → DataQueue α → Prop
  /-- nothing -/
  | void {push : Bool} : Effect q push .void q
  | fails {push : Bool} (e : RtErr) : Effect q push (.fails e) q
  /-- the item is stored, and the queue was not full -/
  | pushed (x : α) (event : Option DataQueueEvent) (hroom : q.difference ≠ q.size.toNat) :
      Effect q true (.pushed x event) (q.put x)
  /-- the item at `get_index` is taken out, and the queue was not empty -/
  | popped (event : Option DataQueueEvent) (hitem : q.getIndex ≠ q.putIndex) :
      Effect q false (.popped q.front event) q.skip

variable {s : DataQueueSys τ α} {t : τ} {state : DataQueueState τ α}

theorem effect_store (hroom : state.q.difference ≠ state.q.size.toNat)
    (x : α) : Effect state.q true (state.store x).1 (state.store x).2.q := by
  obtain ⟨event, hresult, hq⟩ := state.store_spec x
  rw [hresult, hq]
  exact .pushed x event hroom

theorem effect_take (hitem : state.q.getIndex ≠ state.q.putIndex) :
    Effect state.q false state.take.1 state.take.2.q := by
  obtain ⟨event, hresult, hq⟩ := state.take_spec
  rw [hresult, hq]
  exact .popped event hitem

theorem effect_push (state : DataQueueState τ α) (t : τ) (x : α) (timeout : BitVec 32) :
    Effect state.q true (state.rtDataQueuePush t x timeout).1
      (state.rtDataQueuePush t x timeout).2.q := by
  rw [DataQueueState.rtDataQueuePush]
  split
  · split
    · exact .fails _
    · exact .void
  · rename_i hroom
    exact effect_store hroom x

theorem effect_pop (state : DataQueueState τ α) (t : τ) (timeout : BitVec 32) :
    Effect state.q false (state.rtDataQueuePop t timeout).1
      (state.rtDataQueuePop t timeout).2.q := by
  rw [DataQueueState.rtDataQueuePop]
  split
  · split
    · exact .fails _
    · exact .void
  · rename_i hitem
    exact effect_take hitem

theorem settle_result (pc : DataQueuePc α) (out : DataQueueResult α × DataQueueState τ α) :
    (s.settle t pc out).1 = out.1 ∧ (s.settle t pc out).2.q = out.2.q := by
  unfold settle
  split <;> exact ⟨rfl, rfl⟩

theorem effect_settle {push : Bool} {pc : DataQueuePc α}
    {out : DataQueueResult α × DataQueueState τ α} (h : Effect s.q push out.1 out.2.q) :
    Effect s.q push (s.settle t pc out).1 (s.settle t pc out).2.q := by
  obtain ⟨hresult, hq⟩ := s.settle_result (t := t) pc out
  rw [hresult, hq]
  exact h

theorem effect_apply (s : DataQueueSys τ α) (op : DataQueueOp τ α) :
    Effect s.q (s.isPush op) (s.apply op).1 (s.apply op).2.q := by
  cases op with
  | push t x timeout => exact effect_settle (effect_push s.toDataQueueState t x timeout)
  | pushIsr x =>
    change Effect s.q true (s.rtDataQueuePushIsr x).1 (s.rtDataQueuePushIsr x).2.q
    rw [DataQueueState.rtDataQueuePushIsr]
    split
    · exact .fails _
    · rename_i hroom
      exact effect_store hroom x
  | pop t timeout => exact effect_settle (effect_pop s.toDataQueueState t timeout)
  | popIsr =>
    change Effect s.q false s.rtDataQueuePopIsr.1 s.rtDataQueuePopIsr.2.q
    rw [DataQueueState.rtDataQueuePopIsr]
    split
    · exact .fails _
    · rename_i hitem
      exact effect_take hitem
  | wakeup t =>
    rw [apply, wakeup, isPush]
    split
    · exact .void
    · rename_i x timeout hpc
      rw [hpc]
      split
      · exact .fails _
      · exact effect_settle (effect_push s.toDataQueueState t x timeout)
    · rename_i timeout hpc
      rw [hpc]
      split
      · exact .fails _
      · exact effect_settle (effect_pop s.toDataQueueState t timeout)
  | timeout t => exact .void

abbrev History (τ α : Type*) := List (DataQueueOp τ α × DataQueueResult α)

def pushedItem : DataQueueResult α → Option α
  | .pushed x _ => some x
  | .void | .fails _ | .popped _ _ => none

def poppedItem : DataQueueResult α → Option α
  | .popped x _ => some x
  | .void | .fails _ | .pushed _ _ => none

variable (tr : History τ α) (e : DataQueueOp τ α × DataQueueResult α)

def pushes : List α := tr.filterMap fun e => pushedItem e.2

def pops : List α := tr.filterMap fun e => poppedItem e.2

omit [DecidableEq τ] in
theorem pushes_snoc : pushes (tr ++ [e]) = pushes tr ++ (pushedItem e.2).toList :=
  filterMap_snoc _ tr e

omit [DecidableEq τ] in
theorem pops_snoc : pops (tr ++ [e]) = pops tr ++ (poppedItem e.2).toList :=
  filterMap_snoc _ tr e

/-- The queue is a bounded queue for what happened: nothing was lost, doubled or overwritten, and
`rt_data_queue_peak` shows what is popped next. -/
structure IsFifo (tr : History τ α) (q : DataQueue α) : Prop where
  history : pushes tr = pops tr ++ q.stored
  bounded : q.stored.length ≤ q.size.toNat
  peak : q.rtDataQueuePeak = q.stored.head?
  next : ∀ x, q.rtDataQueuePeak = some x →
    ∀ (k : Kernel τ DataQueueList) (t : τ) (timeout : BitVec 32),
    ∃ event, (DataQueueState.rtDataQueuePop ⟨k, q⟩ t timeout).1 = .popped x event

/-- A step of `rt_data_queue_push` is taken only when an item can be pushed. -/
def PushOk (s : DataQueueSys τ α) (op : DataQueueOp τ α) : Prop :=
  s.isPush op = true → s.q.PushOk

instance (s : DataQueueSys τ α) (op : DataQueueOp τ α) : Decidable (s.PushOk op) :=
  inferInstanceAs (Decidable (_ → _))

/-- The ring buffer of the queue, after what happened. -/
def Inv (n : Nat) (tr : History τ α) (q : DataQueue α) : Prop :=
  ∃ r : RingBuffer α n, q.Holds r ∧ pushes tr = pops tr ++ r.items

omit [DecidableEq τ] in
theorem Inv.effect {n : Nat} {tr : History τ α} {q q' : DataQueue α} {push : Bool}
    {e : DataQueueOp τ α × DataQueueResult α} (h : Inv n tr q) (heffect : Effect q push e.2 q')
    (hok : push = true → q.PushOk) : Inv n (tr ++ [e]) q' := by
  obtain ⟨op, result⟩ := e
  obtain ⟨r, hr, htr⟩ := h
  simp only [Inv, pushes_snoc, pops_snoc, htr]
  cases heffect with
  | void | fails e => exact ⟨r, hr, by simp [pushedItem, poppedItem]⟩
  | pushed x event hroom =>
    obtain ⟨hcount, hput⟩ := hr.put hroom (hok rfl) x
    refine ⟨r.push x hcount, hput, ?_⟩
    simp [r.items_push, pushedItem, poppedItem]
  | popped event hitem =>
    obtain ⟨hcount, hfront, hskip⟩ := hr.skip hitem
    refine ⟨r.pop hcount, hskip, ?_⟩
    simp [r.items_pop hcount, ← hfront, pushedItem, poppedItem]

theorem Inv.isFifo {n : Nat} {tr : History τ α} {q : DataQueue α} (h : Inv n tr q) :
    IsFifo tr q := by
  obtain ⟨r, hr, htr⟩ := h
  refine ⟨by rw [hr.stored, htr], ?_, hr.peak, ?_⟩
  · rw [hr.stored, r.length_items, hr.size]
    exact r.count_le
  · intro x hx k t timeout
    rw [DataQueue.rtDataQueuePeak] at hx
    split at hx
    · cases hx
    · rename_i hitem
      cases hx
      obtain ⟨event, hresult, -⟩ := DataQueueState.take_spec ⟨k, q⟩
      refine ⟨event, ?_⟩
      rw [DataQueueState.rtDataQueuePop, if_neg hitem]
      exact hresult

/-- A queue after `rt_data_queue_init`, and threads that do not use it yet. -/
structure Start (size : BitVec 16) (s : DataQueueSys τ α) : Prop where
  q : ∃ lwm evtNotify queue, s.q = .rtDataQueueInit size lwm evtNotify queue
  pc : ∀ t, s.pc t = .idle

/-- In a run in which items are pushed only when they can be, the queue is a bounded queue. -/
theorem isFifo_of_pushOk {size : BitVec 16} (hsize : 1 ≤ size.toNat) {s₀ : DataQueueSys τ α}
    (hstart : Start size s₀) {tr : History τ α} (hrun : Run (machine.StepIf PushOk) s₀ tr s) :
    IsFifo tr s.q := by
  have hinv : Inv size.toNat tr s.q := by
    refine hrun.invariant ?_ ?_
    · obtain ⟨lwm, evtNotify, queue, hq⟩ := hstart.q
      rw [hq]
      exact ⟨_, DataQueue.init_holds hsize lwm evtNotify queue, rfl⟩
    · intro tr s e s' h hstep
      obtain ⟨⟨-, happly⟩, hok⟩ := hstep
      have heffect := effect_apply s e.1
      have happly' : s.apply e.1 = (e.2, s') := happly
      rw [happly'] at heffect
      exact h.effect heffect hok
  exact hinv.isFifo

/-- A queue of one item that two threads share, with its counters and its array. -/
def oneItem (get put : BitVec 16) (queue : Nat → Bool) : DataQueueSys Bool Bool where
  k := Kernel.boot Kernel.twoPriorities [false, true]
  q := ⟨1, 0, get, put, queue, false⟩
  pc _ := .idle

theorem oneItem_start (queue : Nat → Bool) : Start 1 (oneItem 0 0 queue) where
  q := ⟨0, false, queue, rfl⟩
  pc _ := rfl

theorem oneItem_list (get put : BitVec 16) (queue : Nat → Bool) (i : DataQueueList) :
    (oneItem get put queue).k.list (.wait i) = [] := by
  cases i <;> rfl

theorem oneItem_push (get put : BitVec 16) (hroom : (put.toNat : Int) - get.toNat ≠ 1)
    (queue : Nat → Bool) (x : Bool) :
    machine.Step (oneItem get put queue) (.pushIsr x, .pushed x none)
      (oneItem get (put + 1) (update queue 0 x)) := by
  have hfull : (oneItem get put queue).q.difference ≠ (oneItem get put queue).q.size.toNat := hroom
  have hput : (oneItem get put queue).q.put x = (oneItem get (put + 1) (update queue 0 x)).q := by
    simp [oneItem, DataQueue.put, Nat.mod_one]
  refine ⟨trivial, ?_⟩
  change (oneItem get put queue).apply (.pushIsr x) = _
  rw [apply, DataQueueState.rtDataQueuePushIsr, if_neg hfull, DataQueueState.store]
  simp only [oneItem_list, hput]
  rfl

theorem oneItem_pop {get put : BitVec 16} (hitem : get ≠ put) (queue : Nat → Bool)
    (hlow : (put.toNat : Int) - (get + 1).toNat ≤ 0) :
    machine.Step (oneItem get put queue) (.popIsr, .popped (queue 0) none)
      (oneItem (get + 1) put queue) := by
  have hempty : (oneItem get put queue).q.getIndex ≠ (oneItem get put queue).q.putIndex := hitem
  have hresume : (oneItem get put queue).k.rtIpcListResume .push = (oneItem get put queue).k := by
    rw [Kernel.rtIpcListResume, oneItem_list]
  have hfront : (oneItem get put queue).q.front = queue 0 := by
    simp [oneItem, DataQueue.front, Nat.mod_one]
  have hlwm : (oneItem get put queue).q.skip.difference ≤
    (oneItem get put queue).q.skip.lwm.toNat := hlow
  refine ⟨trivial, ?_⟩
  change (oneItem get put queue).apply .popIsr = _
  rw [apply, DataQueueState.rtDataQueuePopIsr, if_neg hempty, DataQueueState.take]
  simp only [if_pos hlwm, hresume, hfront]
  rfl

theorem oneItem_cycles {n : Nat} (hn : n ≤ 65535) :
    ∃ tr, Run machine.Step (oneItem 0 0 fun _ => false) tr
      (oneItem (BitVec.ofNat 16 n) (BitVec.ofNat 16 n) fun _ => false) ∧ pushes tr = pops tr := by
  induction n with
  | zero => exact ⟨[], .nil, rfl⟩
  | succ n ih =>
    obtain ⟨tr, hrun, htr⟩ := ih (by omega)
    have hsucc : BitVec.ofNat 16 n + 1 = BitVec.ofNat 16 (n + 1) := (BitVec.ofNat_add n 1).symm
    have hne : BitVec.ofNat 16 n ≠ BitVec.ofNat 16 (n + 1) := by bv_omega
    have hpush := oneItem_push (BitVec.ofNat 16 n) (BitVec.ofNat 16 n) (by omega)
      (fun _ => false) false
    rw [update_eq_self, hsucc] at hpush
    have hpop := oneItem_pop hne (fun _ => false) (by rw [hsucc]; omega)
    rw [hsucc] at hpop
    refine ⟨_, (hrun.snoc hpush).snoc hpop, ?_⟩
    simp only [pushes_snoc, pops_snoc, htr, pushedItem, poppedItem, Option.toList, append_nil]

/-- A queue of one item and two threads: one waits for the item of the other. -/
theorem isFifo_of_pushOk_wait :
    ∃ tr s, Run (machine.StepIf PushOk) (oneItem 0 0 fun _ => false) tr s ∧ pops tr = [true] ∧
      IsFifo tr s.q := by
  have hrun := machine.run_exec PushOk (oneItem 0 0 fun _ => false)
    [.pop false 10, .push true true 0, .wakeup false]
  exact ⟨_, _, hrun, by decide +kernel, isFifo_of_pushOk (by decide) (oneItem_start _) hrun⟩

/-- After `put_index` has wrapped, a queue of one item takes a second one, and the first one is
overwritten. -/
theorem wrap_overwrites_item : ∃ tr s, Start 1 (oneItem 0 0 fun _ => false) ∧
      Run machine.Step (oneItem 0 0 fun _ => false) tr s ∧
      pushes tr = pops tr ++ [false, true] ∧ s.q.rtDataQueuePeak = some true ∧
      ¬ IsFifo tr s.q := by
  obtain ⟨tr, hrun, htr⟩ := oneItem_cycles (Nat.le_refl 65535)
  have hfirst := oneItem_push (BitVec.ofNat 16 65535) (BitVec.ofNat 16 65535)
    (by decide) (fun _ => false) false
  have hsecond := oneItem_push (BitVec.ofNat 16 65535) (BitVec.ofNat 16 65535 + 1)
    (by decide) (update (fun _ => false) 0 false) true
  have hpushes : pushes (tr ++ [(.pushIsr false, .pushed false none)] ++
      [(.pushIsr true, .pushed true none)]) = pops (tr ++ [(.pushIsr false, .pushed false none)] ++
      [(.pushIsr true, .pushed true none)]) ++ [false, true] := by
    simp only [pushes_snoc, pops_snoc, htr, pushedItem, poppedItem, Option.toList, append_nil]
    exact append_assoc _ _ _
  refine ⟨_, _, oneItem_start _, (hrun.snoc hfirst).snoc hsecond, hpushes, by decide, ?_⟩
  intro hfifo
  have hhistory := hfifo.history
  have hpeak := hfifo.peak
  rw [hpushes, append_cancel_left_eq] at hhistory
  rw [← hhistory] at hpeak
  revert hpeak
  decide

end DataQueueSys
end RtThread
