import RtThread.Drivers.DataQueueFifo

/-!
# Serial transmission by DMA

`_serial_dma_tx` and the `RT_SERIAL_EVENT_TX_DMADONE` interrupt of `serial.c`. A writer pushes its
buffer to the data queue, tests `tx_dma->activated` in a second section, and starts a transfer of
its own buffer if it has found none. The interrupt pops the buffer at the head of the queue, which
it takes to be the one that was transmitted, and starts the next one.

The two agree as long as the writer that finds no transfer is the one whose buffer is the first.
-/

namespace RtThread
open Function
open List

inductive DmaTxPc (α : Type*)
  | idle
  /-- behind `rt_schedule` in `rt_data_queue_push` -/
  | pushing (x : α)
  /-- the buffer is pushed, and `activated` is to be tested -/
  | testing (x : α)
  /-- `activated` was set, and the transfer is to be started -/
  | starting (x : α)
  deriving DecidableEq

inductive DmaTxOp (τ α : Type*)
  /-- `rt_serial_write` of the buffer `x`, up to the end of its first section -/
  | write (t : τ) (x : α)
  /-- the thread runs again, behind `rt_schedule` in `rt_data_queue_push` -/
  | wakeup (t : τ)
  /-- the test of `activated` -/
  | test (t : τ)
  /-- the call of `dma_transmit` -/
  | start (t : τ)
  /-- the interrupt at the end of a transfer -/
  | dmaDone

structure DmaTxOut (α : Type*) where
  /-- the buffer that was pushed -/
  pushed : Option α := none
  /-- the buffer that `dma_transmit` was called with -/
  transmitted : Option α := none
  /-- the buffer whose transfer has ended -/
  finished : Option α := none
  /-- what `tx_complete` is called with; `some none` is a `last_data_ptr` that was not set -/
  reported : Option (Option α) := none
  deriving DecidableEq

/-- `struct rt_serial_tx_dma` (`serial.h:140-144`), the threads, where they are, and the transfers
that were started and have not ended. -/
structure DmaTx (τ α : Type*) extends DataQueueState τ α where
  activated : Bool
  flying : List α
  pc : τ → DmaTxPc α

namespace DmaTxPc
variable {α : Type*}

def isIdle : DmaTxPc α → Bool
  | .idle => true
  | .pushing _ | .testing _ | .starting _ => false

def isPushing : DmaTxPc α → Bool
  | .pushing _ => true
  | .idle | .testing _ | .starting _ => false

def isTesting : DmaTxPc α → Bool
  | .testing _ => true
  | .idle | .pushing _ | .starting _ => false

def isStarting : DmaTxPc α → Bool
  | .starting _ => true
  | .idle | .pushing _ | .testing _ => false

variable {pc : DmaTxPc α}

theorem isIdle_iff : pc.isIdle = true ↔ pc = .idle := by
  cases pc <;> simp [isIdle]

theorem isPushing_iff : pc.isPushing = true ↔ ∃ x, pc = .pushing x := by
  cases pc <;> simp [isPushing]

theorem isTesting_iff : pc.isTesting = true ↔ ∃ x, pc = .testing x := by
  cases pc <;> simp [isTesting]

theorem isStarting_iff : pc.isStarting = true ↔ ∃ x, pc = .starting x := by
  cases pc <;> simp [isStarting]

end DmaTxPc

namespace DmaTx
variable {τ α : Type*}

section Functions
variable [DecidableEq τ] (s : DmaTx τ α) (t : τ)

def waitingForever : BitVec 32 := -1

/-- The section of `rt_data_queue_push` that the thread `t` is in, and what it does next
(`serial.c:302-303` and `321-325`). -/
def push (x : α) : DmaTxOut α × DmaTx τ α :=
  match s.rtDataQueuePush t x waitingForever with
  | (.void, state) => ({}, { s with toDataQueueState := state, pc := update s.pc t (.pushing x) })
  | (.pushed x _, state) =>
    ({ pushed := some x }, { s with toDataQueueState := state, pc := update s.pc t (.testing x) })
  | (_, state) => ({}, { s with toDataQueueState := state, pc := update s.pc t .idle })

/-- The thread `t` runs again in `rt_data_queue_push`. -/
def wakeup : DmaTxOut α × DmaTx τ α :=
  match s.pc t with
  | .pushing x =>
    if (s.k.thread t).error ≠ .eok then ({}, { s with pc := update s.pc t .idle }) else s.push t x
  | _ => ({}, s)

/-- The test of `activated` (`:305-317`). -/
def test : DmaTxOut α × DmaTx τ α :=
  match s.pc t with
  | .testing x =>
    if s.activated ≠ true then
      ({}, { s with activated := true, pc := update s.pc t (.starting x) })
    else ({}, { s with pc := update s.pc t .idle })
  | _ => ({}, s)

/-- The call of `dma_transmit` (`:312`). -/
def start : DmaTxOut α × DmaTx τ α :=
  match s.pc t with
  | .starting x =>
    ({ transmitted := some x }, { s with flying := s.flying ++ [x], pc := update s.pc t .idle })
  | _ => ({}, s)

/-- `rt_hw_serial_isr` with `RT_SERIAL_EVENT_TX_DMADONE` (`:728-755`). -/
def dmaDone : DmaTxOut α × DmaTx τ α :=
  let state := s.rtDataQueuePopIsr.2
  let last := DataQueueSys.poppedItem s.rtDataQueuePopIsr.1
  match state.q.rtDataQueuePeak with
  | some x =>
    ({ transmitted := some x, finished := s.flying.head?, reported := some last },
      { s with toDataQueueState := state, activated := true, flying := s.flying.tail ++ [x] })
  | none =>
    ({ finished := s.flying.head?, reported := some last },
      { s with toDataQueueState := state, activated := false, flying := s.flying.tail })

def Enabled : DmaTxOp τ α → Prop
  | .write t _ => (s.k.thread t).stat = .ready ∧ (s.pc t).isIdle = true
  | .wakeup t => (s.k.thread t).stat = .ready ∧ (s.pc t).isPushing = true
  | .test t => (s.k.thread t).stat = .ready ∧ (s.pc t).isTesting = true
  | .start t => (s.k.thread t).stat = .ready ∧ (s.pc t).isStarting = true
  | .dmaDone => s.flying.isEmpty = false

def apply : DmaTxOp τ α → DmaTxOut α × DmaTx τ α
  | .write t x => s.push t x
  | .wakeup t => s.wakeup t
  | .test t => s.test t
  | .start t => s.start t
  | .dmaDone => s.dmaDone

/-- A buffer is pushed in order, and a writer that finds no transfer has pushed the first buffer of
the queue. -/
def Safe : DmaTxOp τ α → Prop
  | .write _ _ | .wakeup _ => s.q.PushOk
  | .test t => s.activated = false → s.q.rtDataQueuePeak.map .testing = some (s.pc t)
  | .start _ | .dmaDone => True

instance [DecidableEq α] (op : DmaTxOp τ α) : Decidable (s.Safe op) :=
  match op with
  | .write .. | .wakeup _ => inferInstanceAs (Decidable s.q.PushOk)
  | .test _ => inferInstanceAs (Decidable (_ → _))
  | .start _ | .dmaDone => .isTrue trivial

def machine : Machine (DmaTx τ α) (DmaTxOp τ α) (DmaTxOut α) := ⟨Enabled, apply⟩

instance (s : DmaTx τ α) (op : DmaTxOp τ α) : Decidable (machine.Enabled s op) :=
  match op with
  | .write .. | .wakeup _ | .test _ | .start _ => instDecidableAnd
  | .dmaDone => decEq _ _

end Functions

/-- Where the transmission is, for the buffers in the queue. -/
inductive Phase (activated : Bool) (flying items : List α) (pc : τ → DmaTxPc α) : Prop
  /-- there is nothing to transmit, or a writer is to test `activated` -/
  | free (hactivated : activated = false) (hflying : flying = [])
      (htesting : items ≠ [] → ∃ u, (pc u).isTesting = true)
      (hstarting : ∀ u, (pc u).isStarting = false)
  /-- the first buffer is that of the writer that is to start the transfer -/
  | starting (t : τ) (x : α) (rest : List α) (hactivated : activated = true) (hflying : flying = [])
      (hitems : items = x :: rest) (hpc : pc t = .starting x)
      (hstarting : ∀ u, u ≠ t → (pc u).isStarting = false)
  /-- the first buffer is transmitted -/
  | flying (x : α) (rest : List α) (hactivated : activated = true) (hflying : flying = [x])
      (hitems : items = x :: rest) (hstarting : ∀ u, (pc u).isStarting = false)

namespace Phase
variable {activated : Bool} {flying items : List α} {pc : τ → DmaTxPc α} {t : τ} {x : α}

theorem flying_prefix (h : Phase activated flying items pc) :
    flying <+: items ∧ flying.length ≤ 1 := by
  cases h with
  | free _ hflying | starting _ _ _ _ hflying => simp [hflying]
  | flying x rest _ hflying hitems => simp [hflying, hitems]

theorem items_eq_nil (h : Phase activated flying items pc) (hflying : flying = [])
    (htesting : ∀ u, (pc u).isTesting = false) (hstarting : ∀ u, (pc u).isStarting = false) :
    items = [] := by
  cases h with
  | free _ _ hpushed =>
    by_contra hne
    obtain ⟨u, hu⟩ := hpushed hne
    rw [htesting] at hu
    cases hu
  | starting t x _ _ _ _ hpc =>
    have hstart := hstarting t
    rw [hpc] at hstart
    cases hstart
  | flying x rest _ hx =>
    rw [hflying] at hx
    cases hx

theorem flying_of_ne_nil (h : Phase activated flying items pc) (hne : flying ≠ []) :
    ∃ x rest, flying = [x] ∧ items = x :: rest ∧ ∀ u, (pc u).isStarting = false := by
  cases h with
  | free _ hflying | starting _ _ _ _ hflying => exact absurd hflying hne
  | flying x rest _ hflying hitems hstarting => exact ⟨x, rest, hflying, hitems, hstarting⟩

theorem next {rest : List α} (hstarting : ∀ u, (pc u).isStarting = false) :
    Phase rest.head?.isSome rest.head?.toList rest pc := by
  cases rest with
  | nil => exact .free rfl rfl (absurd rfl) hstarting
  | cons y rest => exact .flying y rest rfl rfl rfl hstarting

variable [DecidableEq τ]

theorem update_eq_false {f : DmaTxPc α → Bool} {v : DmaTxPc α} {u : τ} (hv : f v = false)
    (h : u ≠ t → f (pc u) = false) : f (update pc t v u) = false := by
  by_cases hu : u = t
  · rwa [hu, update_self]
  · rw [update_of_ne hu]
    exact h hu

theorem settle (h : Phase activated flying items pc) {v : DmaTxPc α}
    (hold : activated = false → (pc t).isTesting = false) (hstart : (pc t).isStarting = false)
    (hv : v.isStarting = false) : Phase activated flying items (update pc t v) := by
  cases h with
  | free hactivated hflying htesting hstarting =>
    refine .free hactivated hflying (fun hitems => ?_)
      fun u => update_eq_false hv fun _ => hstarting u
    obtain ⟨u, hu⟩ := htesting hitems
    have hne : u ≠ t := by
      rintro rfl
      rw [hold hactivated] at hu
      cases hu
    exact ⟨u, by rwa [update_of_ne hne]⟩
  | starting t' x rest hactivated hflying hitems hx hstarting =>
    have hne : t' ≠ t := by
      intro heq
      rw [← heq, hx] at hstart
      cases hstart
    exact .starting t' x rest hactivated hflying hitems (by rw [update_of_ne hne, hx])
      fun u hu => update_eq_false hv fun _ => hstarting u hu
  | flying x rest hactivated hflying hitems hstarting =>
    exact .flying x rest hactivated hflying hitems fun u => update_eq_false hv fun _ => hstarting u

theorem push (h : Phase activated flying items pc) (hstart : (pc t).isStarting = false) (x : α) :
    Phase activated flying (items ++ [x]) (update pc t (.testing x)) := by
  cases h with
  | free hactivated hflying _ hstarting =>
    exact .free hactivated hflying (fun _ => ⟨t, by rw [update_self]; rfl⟩)
      fun u => update_eq_false rfl fun _ => hstarting u
  | starting t' y rest hactivated hflying hitems hy hstarting =>
    have hphase : Phase activated flying (items ++ [x]) pc :=
      .starting t' y (rest ++ [x]) hactivated hflying (by simp [hitems]) hy hstarting
    exact hphase.settle (by simp [hactivated]) hstart rfl
  | flying y rest hactivated hflying hitems hstarting =>
    have hphase : Phase activated flying (items ++ [x]) pc :=
      .flying y (rest ++ [x]) hactivated hflying (by simp [hitems]) hstarting
    exact hphase.settle (by simp [hactivated]) hstart rfl

theorem activate (h : Phase false flying items pc) (hfirst : items.head? = some x) :
    Phase true flying items (update pc t (.starting x)) := by
  obtain ⟨rest, hitems⟩ := head?_eq_some_iff.mp hfirst
  cases h with
  | free _ hflying _ hstarting =>
    exact .starting t x rest rfl hflying hitems (update_self ..)
      fun u hu => by rw [update_of_ne hu]; exact hstarting u
  | starting _ _ _ hactivated | flying _ _ hactivated => cases hactivated

theorem start (h : Phase activated flying items pc) (hpc : pc t = .starting x) :
    Phase activated (flying ++ [x]) items (update pc t .idle) := by
  have hstart : (pc t).isStarting = true := by rw [hpc]; rfl
  cases h with
  | free _ _ _ hstarting | flying _ _ _ _ _ hstarting =>
    rw [hstarting] at hstart
    cases hstart
  | starting t' y rest hactivated hflying hitems hy hstarting =>
    have heq : t = t' := by
      by_contra hne
      rw [hstarting t hne] at hstart
      cases hstart
    subst heq
    rw [hpc, DmaTxPc.starting.injEq] at hy
    subst hy
    exact .flying x rest hactivated (by simp [hflying]) hitems
      fun u => update_eq_false rfl fun hu => hstarting u hu

end Phase

abbrev History (τ α : Type*) := List (DmaTxOp τ α × DmaTxOut α)

def pushes (tr : History τ α) : List α := tr.filterMap fun e => e.2.pushed

/-- The buffers that `dma_transmit` was called with, in order. -/
def transmits (tr : History τ α) : List α := tr.filterMap fun e => e.2.transmitted

/-- The buffers whose transfer has ended, in order. -/
def finishes (tr : History τ α) : List α := tr.filterMap fun e => e.2.finished

/-- The transmission is in order for what happened. -/
structure InOrder (tr : History τ α) (s : DmaTx τ α) : Prop where
  /-- what is transmitted is what was pushed, in the same order, and nothing twice -/
  order : transmits tr <+: pushes tr
  /-- everything is transmitted when no writer and no transfer is on the way -/
  complete : s.flying = [] → (∀ t, (s.pc t).isTesting = false) →
    (∀ t, (s.pc t).isStarting = false) → transmits tr = pushes tr
  /-- there are never two transfers -/
  single : s.flying.length ≤ 1
  /-- `tx_complete` is called with the buffer whose transfer has ended -/
  reports : ∀ e ∈ tr, e.2.reported = e.2.finished.map some

/-- The ring buffer of the queue, after what happened. -/
structure Inv (tr : History τ α) (s : DmaTx τ α) (r : RingBuffer α 8) : Prop where
  holds : s.q.Holds r
  pushes : pushes tr = finishes tr ++ r.items
  transmits : transmits tr = finishes tr ++ s.flying
  phase : Phase s.activated s.flying r.items s.pc
  reports : ∀ e ∈ tr, e.2.reported = e.2.finished.map some

variable {tr : History τ α} {s s' : DmaTx τ α} {r r' : RingBuffer α 8} {t : τ}
  {op : DmaTxOp τ α} {out : DmaTxOut α}

theorem Inv.inOrder (h : Inv tr s r) : InOrder tr s where
  order := by
    rw [h.transmits, h.pushes]
    exact (prefix_append_right_inj _).mpr h.phase.flying_prefix.1
  complete hflying htesting hstarting := by
    rw [h.transmits, h.pushes, hflying, h.phase.items_eq_nil hflying htesting hstarting]
  single := h.phase.flying_prefix.2
  reports := h.reports

/-- A step keeps the account: what is pushed and what ends are the two ends of the queue. -/
theorem Inv.snoc (h : Inv tr s r) (holds : s'.q.Holds r')
    (hitems : r.items ++ out.pushed.toList = out.finished.toList ++ r'.items)
    (hflying : s.flying ++ out.transmitted.toList = out.finished.toList ++ s'.flying)
    (hphase : Phase s'.activated s'.flying r'.items s'.pc)
    (hreport : out.reported = out.finished.map some) : Inv (tr ++ [(op, out)]) s' r' where
  holds := holds
  pushes := by
    rw [DmaTx.pushes, finishes, filterMap_snoc, filterMap_snoc, append_assoc]
    rw [← hitems, ← append_assoc, ← DmaTx.pushes, ← finishes, h.pushes]
  transmits := by
    rw [DmaTx.transmits, finishes, filterMap_snoc, filterMap_snoc, append_assoc]
    rw [← hflying, ← append_assoc, ← DmaTx.transmits, ← finishes, h.transmits]
  phase := hphase
  reports := by
    intro e he
    rcases mem_append.mp he with hold | hnew
    · exact h.reports e hold
    · rw [mem_singleton.mp hnew]
      exact hreport

/-- A device after `rt_serial_open` with `RT_DEVICE_FLAG_DMA_TX` (`:429-434`). -/
def rtSerialOpen (k : Kernel τ DataQueueList) (queue : Nat → α) : DmaTx τ α where
  k := k
  q := .rtDataQueueInit 8 4 false queue
  activated := false
  flying := []
  pc _ := .idle

theorem rtSerialOpen_inv (k : Kernel τ DataQueueList) (queue : Nat → α) :
    Inv [] (rtSerialOpen k queue) (RingBuffer.empty queue (n := 8) (by decide)) where
  holds := DataQueue.init_holds (show 0 < (8 : BitVec 16).toNat by decide) 4 false queue
  pushes := rfl
  transmits := rfl
  phase := .free rfl rfl (absurd rfl) fun _ => rfl
  reports := by simp

variable [DecidableEq τ]

theorem Inv.push (h : Inv tr s r) (htest : (s.pc t).isTesting = false)
    (hstart : (s.pc t).isStarting = false) (hok : s.q.PushOk) (x : α) :
    ∃ r', Inv (tr ++ [(op, (s.push t x).1)]) (s.push t x).2 r' := by
  have heffect := DataQueueSys.effect_push s.toDataQueueState t x waitingForever
  rw [DmaTx.push]
  generalize s.rtDataQueuePush t x waitingForever = result at heffect ⊢
  obtain ⟨result, state⟩ := result
  generalize hq : state.q = q' at heffect
  have hstays : ∀ v : DmaTxPc α, v.isStarting = false →
      Phase s.activated s.flying r.items (update s.pc t v) := fun v hv =>
    h.phase.settle (fun _ => htest) hstart hv
  cases heffect with
  | void | fails e => exact ⟨r, h.snoc (hq ▸ h.holds) (by simp) (by simp) (hstays _ rfl) rfl⟩
  | pushed y event hroom =>
    obtain ⟨hcount, hput⟩ := h.holds.put hroom hok y
    refine ⟨r.push y hcount, h.snoc (hq ▸ hput) ?_ (by simp) ?_ rfl⟩
    · simp [r.items_push]
    · rw [r.items_push]
      exact h.phase.push hstart y

theorem Inv.test (h : Inv tr s r) {x : α} (hpc : s.pc t = .testing x) (hsafe : s.Safe (.test t)) :
    Inv (tr ++ [(op, (s.test t).1)]) (s.test t).2 r := by
  rw [DmaTx.test, hpc]
  dsimp only
  have hphase := h.phase
  split
  · rename_i hactivated
    rw [ne_eq, Bool.not_eq_true] at hactivated
    rw [hactivated] at hphase
    have hfirst := hsafe hactivated
    rw [h.holds.peak, h.holds.stored, hpc, Option.map_eq_some_iff] at hfirst
    obtain ⟨_, hfirst, ⟨⟩⟩ := hfirst
    exact h.snoc h.holds (by simp) (by simp) (hphase.activate hfirst) rfl
  · rename_i hactivated
    rw [ne_eq, not_not] at hactivated
    have hsettle := hphase.settle (v := .idle) (by simp [hactivated]) (by rw [hpc]; rfl) rfl
    exact h.snoc h.holds (by simp) (by simp) hsettle rfl

theorem Inv.start (h : Inv tr s r) {x : α} (hpc : s.pc t = .starting x) :
    Inv (tr ++ [(op, (s.start t).1)]) (s.start t).2 r := by
  rw [DmaTx.start, hpc]
  exact h.snoc h.holds (by simp) rfl (h.phase.start hpc) rfl

/-- The end of a transfer. What is popped is what was transmitted, and the next one is the buffer
that is then the first. -/
theorem Inv.dmaDone (h : Inv tr s r) (hne : s.flying ≠ []) :
    ∃ r', Inv (tr ++ [(op, s.dmaDone.1)]) s.dmaDone.2 r' := by
  obtain ⟨x, rest, hflying, hitems, hstarting⟩ := h.phase.flying_of_ne_nil hne
  have hcount := r.length_items
  rw [hitems, length_cons] at hcount
  have hitem : s.q.getIndex ≠ s.q.putIndex := by
    have := h.holds.count
    bv_omega
  obtain ⟨hpos, hfront, hskip⟩ := h.holds.skip hitem
  obtain ⟨event, hresult, hq⟩ := s.take_spec
  have hpop : s.rtDataQueuePopIsr = s.take := if_neg hitem
  have hrest := r.items_pop hpos
  rw [hitems, List.cons.injEq] at hrest
  have hphase : Phase _ _ rest s.pc := Phase.next hstarting
  have hpeak : s.take.2.q.rtDataQueuePeak = rest.head? := by
    rw [hq, hskip.peak, hskip.stored, ← hrest.2]
  have hx : s.q.front = x := by rw [hfront, hrest.1]
  refine ⟨r.pop hpos, ?_⟩
  simp only [DmaTx.dmaDone, hpop, hpeak, hresult, hx, DataQueueSys.poppedItem]
  rw [← hq] at hskip
  rw [hrest.2] at hphase
  cases rest with
  | nil | cons y rest =>
    refine h.snoc hskip ?_ ?_ ?_ ?_
    · simp [hitems, hflying, ← hrest.2]
    · simp [hflying]
    · simpa [hflying, ← hrest.2] using hphase
    · simp [hflying]

theorem Inv.apply (h : Inv tr s r) (henabled : s.Enabled op) (hsafe : s.Safe op) :
    ∃ r', Inv (tr ++ [(op, (s.apply op).1)]) (s.apply op).2 r' := by
  cases op with
  | write t x =>
    have hpc := DmaTxPc.isIdle_iff.mp henabled.2
    exact h.push (by rw [hpc]; rfl) (by rw [hpc]; rfl) hsafe x
  | wakeup t =>
    obtain ⟨x, hpc⟩ := DmaTxPc.isPushing_iff.mp henabled.2
    have htest : (s.pc t).isTesting = false := by rw [hpc]; rfl
    have hstart : (s.pc t).isStarting = false := by rw [hpc]; rfl
    simp only [DmaTx.apply, DmaTx.wakeup, hpc]
    split
    · have hsettle := h.phase.settle (v := .idle) (fun _ => htest) hstart rfl
      exact ⟨r, h.snoc h.holds (by simp) (by simp) hsettle rfl⟩
    · exact h.push htest hstart hsafe x
  | test t =>
    obtain ⟨x, hpc⟩ := DmaTxPc.isTesting_iff.mp henabled.2
    exact ⟨r, h.test hpc hsafe⟩
  | start t =>
    obtain ⟨x, hpc⟩ := DmaTxPc.isStarting_iff.mp henabled.2
    exact ⟨r, h.start hpc⟩
  | dmaDone => exact h.dmaDone (isEmpty_eq_false_iff.mp henabled)

/-- If each writer that finds no transfer has pushed the first buffer of the queue, the buffers are
transmitted in the order in which they were pushed. -/
theorem inOrder_of_safe {k : Kernel τ DataQueueList} {queue : Nat → α}
    (hrun : Run (machine.StepIf Safe) (rtSerialOpen k queue) tr s) : InOrder tr s := by
  have hinv : ∃ r, Inv tr s r := by
    refine hrun.invariant ⟨_, rtSerialOpen_inv k queue⟩ ?_
    intro tr s e s' ⟨r, h⟩ ⟨⟨henabled, happly⟩, hsafe⟩
    have hnext := h.apply henabled hsafe
    have happly' : s.apply e.1 = (e.2, s') := happly
    rw [happly'] at hnext
    exact hnext
  obtain ⟨r, h⟩ := hinv
  exact h.inOrder

def twoWriters : DmaTx Bool Nat :=
  rtSerialOpen (Kernel.boot Kernel.twoPriorities [false, true]) fun _ => 0

/-- The second writer pushes between the push of the first one and its test. -/
theorem inOrder_of_safe_two :
    ∃ tr s, Run (machine.StepIf Safe) twoWriters tr s ∧ transmits tr = [1, 2] ∧ InOrder tr s := by
  have hrun := machine.run_exec Safe twoWriters
    [.write true 1, .write false 2, .test true, .start true, .test false, .dmaDone, .dmaDone]
  exact ⟨_, _, hrun, by decide +kernel, inOrder_of_safe hrun⟩

/-- The second writer pushes and tests between the push of the first one and its test. Its buffer is
transmitted twice, the first buffer never. -/
theorem second_writer_overtakes :
    ∃ tr s, Run machine.Step twoWriters tr s ∧ pushes tr = [1, 2] ∧ transmits tr = [2, 2] ∧
      s.flying = [] ∧ (∀ t, (s.pc t).isIdle = true) ∧ ¬ InOrder tr s := by
  have hrun := machine.run_steps twoWriters
    [.write true 1, .write false 2, .test false, .start false, .test true, .dmaDone, .dmaDone]
  refine ⟨_, _, hrun, by decide +kernel, by decide +kernel, by decide +kernel,
    by decide +kernel, fun h => ?_⟩
  have horder := h.order
  revert horder
  decide +kernel

end DmaTx
end RtThread
