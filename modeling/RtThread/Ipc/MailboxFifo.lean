import RtThread.Lib.RingBuffer
import RtThread.Ipc.MailboxSteps

/-!
# A mailbox is a bounded queue

The offsets and the count of a mailbox are those of a ring buffer, and what was received along a run
followed by what is stored is what was accepted, in the order of the sections that did it.
-/

namespace RtThread
open RingBuffer
open Function

namespace Mailbox

/-- The fields of the mailbox are those of the ring buffer. -/
structure Holds (mb : Mailbox) {n : Nat} (r : RingBuffer (BitVec 32) n) : Prop where
  size : mb.size.toNat = n
  msgPool : mb.msgPool = r.cell
  entry : mb.entry.toNat = r.count
  inOffset : mb.inOffset.toNat = r.last
  outOffset : mb.outOffset.toNat = r.first

variable {mb : Mailbox} {n : Nat} {r : RingBuffer (BitVec 32) n}

theorem Holds.put (h : Holds mb r) (hgo : ¬ mb.Blocks .send) (value : BitVec 32) :
    ∃ hroom, (mb.put value).Holds (r.push value hroom) := by
  have hne : mb.entry ≠ mb.size := hgo
  have hcount := r.count_le
  have hroom : r.count < n := by
    rw [← h.entry, ← h.size] at hcount ⊢
    bv_omega
  refine ⟨hroom, h.size, ?_, ?_, ?_, h.outOffset⟩
  · rw [put_msgPool, push_cell, h.msgPool, h.inOffset]
  · have hentry := h.entry
    have hsize := h.size
    rw [put_entry, push_count]
    bv_omega
  · rw [put_inOffset, toNat_advance, h.size, h.inOffset, push_last]
    rw [h.inOffset, h.size]
    exact r.last_lt

theorem Holds.get (h : Holds mb r) (hgo : ¬ mb.Blocks .recv) :
    ∃ hitem, mb.get.Holds (r.pop hitem) := by
  have hne : mb.entry ≠ 0 := hgo
  have hentry := h.entry
  have hitem : 0 < r.count := by bv_omega
  refine ⟨hitem, h.size, h.msgPool, ?_, h.inOffset, ?_⟩
  · simp only [get_entry, pop_count]
    bv_omega
  · rw [get_outOffset, toNat_advance, h.size, h.outOffset, pop_first]
    rw [h.outOffset, h.size]
    exact r.first_lt

theorem Holds.front (h : Holds mb r) : mb.front = r.cell r.first := by
  rw [Mailbox.front, h.msgPool, h.outOffset]

end Mailbox

section Trace
variable {τ β : Type*} [DecidableEq β]

/-- The mailbox and the call of a section. -/
def MbOp.target : MbOp τ β → Option (β × MbCall)
  | .call _ m c _ | .again _ m c | .nowait _ m c => some (m, c)
  | .timeout _ | .tick => none

/-- The value that a successful send put into the mailbox `m`. -/
def acceptedIn (m : β) (e : MbOp τ β × Option MbResult) : Option (BitVec 32) :=
  match e.1.target, e.2 with
  | some (m', .send value), some (.eok, _) => if m' = m then some value else none
  | _, _ => none

/-- The value that a successful receive got out of the mailbox `m`. -/
def receivedFrom (m : β) (e : MbOp τ β × Option MbResult) : Option (BitVec 32) :=
  match e.1.target, e.2 with
  | some (m', .recv), some (.eok, value) => if m' = m then value else none
  | _, _ => none

/-- The values that were accepted, in the order of the accepting sections. -/
def accepted (tr : List (MbOp τ β × Option MbResult)) (m : β) : List (BitVec 32) :=
  tr.filterMap (acceptedIn m)

def received (tr : List (MbOp τ β × Option MbResult)) (m : β) : List (BitVec 32) :=
  tr.filterMap (receivedFrom m)

/-- What was received, and then what is stored, is what was accepted. -/
def Fifo (tr : List (MbOp τ β × Option MbResult)) (m : β) (mb : Mailbox) (n : Nat) : Prop :=
  ∃ r : RingBuffer (BitVec 32) n, mb.Holds r ∧ accepted tr m = received tr m ++ r.items

variable {tr : List (MbOp τ β × Option MbResult)} {m m' : β} {op : MbOp τ β} {c : MbCall}
  {e : MbOp τ β × Option MbResult} {mb : Mailbox} {n : Nat}

theorem Fifo.of_silent (h : Fifo tr m mb n)
    (hsilent : ∀ c out, e.1.target = some (m, c) → e.2 ≠ some (.eok, out)) :
    Fifo (tr ++ [e]) m mb n := by
  have hnone : acceptedIn m e = none ∧ receivedFrom m e = none := by
    rw [acceptedIn, receivedFrom]
    constructor
    · split
      · rename_i m' value out htarget hresult
        refine if_neg ?_
        rintro rfl
        exact hsilent _ _ htarget hresult
      · rfl
    · split
      · rename_i m' out htarget hresult
        refine if_neg ?_
        rintro rfl
        exact hsilent _ _ htarget hresult
      · rfl
  obtain ⟨r, hholds, heq⟩ := h
  refine ⟨r, hholds, ?_⟩
  simpa [accepted, received, hnone] using heq

theorem Fifo.move (h : Fifo tr m mb n) (htarget : op.target = some (m, c))
    (hgo : ¬ mb.Blocks c.side) :
    Fifo (tr ++ [(op, some (.eok, mb.output c))]) m (mb.move c) n := by
  obtain ⟨r, hholds, heq⟩ := h
  cases c with
  | send value =>
    obtain ⟨hroom, hput⟩ := hholds.put hgo value
    refine ⟨r.push value hroom, hput, ?_⟩
    rw [r.items_push, ← List.append_assoc]
    simp only [accepted, received] at heq ⊢
    simp [acceptedIn, receivedFrom, htarget, heq]
  | recv =>
    obtain ⟨hitem, hget⟩ := hholds.get hgo
    refine ⟨r.pop hitem, hget, ?_⟩
    rw [r.items_pop hitem] at heq
    simpa [accepted, received, acceptedIn, receivedFrom, htarget, Mailbox.output, hholds.front]
      using heq

end Trace

namespace MbView
variable {τ β : Type*} [DecidableEq τ] [DecidableEq β] {v v' : MbView τ β} {t : τ} {m m' : β}
  {c : MbCall} {r : Option MbResult} {op : MbOp τ β} {e : MbOp τ β × Option MbResult} {n : Nat}
  {tr : List (MbOp τ β × Option MbResult)}

theorem refusal_ne_eok (side : MbSide) (out : Option (BitVec 32)) :
    (some (side.refusal, none) : Option MbResult) ≠ some (.eok, out) := by
  cases side <;> simp [MbSide.refusal]

theorem Section.fifo (h : Fifo tr m (v.mb m) n) (htarget : op.target = some (m', c))
    (hsection : v.Section t m' c r v') : Fifo (tr ++ [(op, r)]) m (v'.mb m) n := by
  cases hsection with
  | move hgo =>
    by_cases hm : m' = m
    · subst hm
      simpa using h.move htarget hgo
    · have hsame : update v.mb m' ((v.mb m').move c) m = v.mb m :=
        update_of_ne (Ne.symm hm) _ _
      simp only [hsame]
      refine h.of_silent fun c' out heq => ?_
      cases htarget.symm.trans heq
      exact absurd rfl hm
  | refuse | giveUp => exact h.of_silent fun _ out _ => refusal_ne_eok _ out
  | block => exact h.of_silent nofun

theorem Step.fifo (h : Fifo tr m (v.mb m) n) (hstep : v.Step e v') :
    Fifo (tr ++ [e]) m (v'.mb m) n := by
  cases hstep with
  | call hsection | nowait hsection => exact hsection.fifo h rfl
  | @again t _ _ _ _ _ hsection => exact hsection.fifo (v := ⟨v.w.leave t, v.mb⟩) h rfl
  | fail _ herror =>
    refine h.of_silent fun _ _ _ heq => herror ?_
    exact congrArg Prod.fst (Option.some.inj heq)
  | timeout | tick => exact h.of_silent nofun

end MbView

namespace MbSys
variable {τ β : Type*} [DecidableEq τ] [DecidableEq β] {s₀ s s' : MbSys τ β}
  {tr : List (MbOp τ β × Option MbResult)} {size : β → BitVec 32}

/-- In every run, the values that were received and then those that are stored are the values that
were accepted, and the offsets and the count of the mailbox agree. -/
theorem fifo_of_run {n : Nat} (hstart : Start s₀ size) (m : β) (hsize : size m = BitVec.ofNat 32 n)
    (hn : 1 ≤ n) (hmax : n ≤ 65535) (hrun : Run Step s₀ tr s) :
    accepted tr m = received tr m ++ (List.range (s.mb m).entry.toNat).map
        (fun i => (s.mb m).msgPool (((s.mb m).outOffset.toNat + i) % n)) ∧
    (s.mb m).entry.toNat ≤ n ∧ (s.mb m).inOffset.toNat < n ∧ (s.mb m).outOffset.toNat < n ∧
    (s.mb m).inOffset.toNat = ((s.mb m).outOffset.toNat + (s.mb m).entry.toNat) % n := by
  have hfifo : s.k.WaitOk ∧ Fifo tr m (s.mb m) n := by
    refine hrun.invariant ⟨hstart.k, ?_⟩ ?_
    · obtain ⟨msgpool, flag, hinit⟩ := hstart.mb m
      rw [hinit, hsize]
      exact ⟨empty msgpool hn, ⟨by simp [rtMbInit]; omega, rfl, rfl, rfl, rfl⟩, rfl⟩
    · rintro tr s e s' ⟨hk, hfifo⟩ hstep
      obtain ⟨hview, hk'⟩ := view_step hk hstep
      exact ⟨hk', hview.fifo hfifo⟩
  obtain ⟨-, r, hholds, heq⟩ := hfifo
  rw [hholds.entry, hholds.inOffset, hholds.outOffset, hholds.msgPool]
  exact ⟨heq, r.count_le, r.last_lt, r.first_lt, r.last_eq⟩

/-- A mailbox of size `n`, and two threads of which the more urgent one sleeps. -/
def twoAndMailbox (n : Nat) : MbSys Bool Unit where
  k := (Kernel.boot Kernel.twoPriorities [false, true]).rtThreadSleep true 10
  mb _ := rtMbInit (fun _ => 0) (BitVec.ofNat 32 n) .fifo
  calling _ := none
  tick := 0

theorem twoAndMailbox_start (n : Nat) : Start (twoAndMailbox n) fun _ => BitVec.ofNat 32 n where
  k := @Kernel.twoPriorities_waitOk (Unit × MbSide) _
  empty := by
    have hempty : ∀ side, (twoAndMailbox 0).k.list (.wait ((), side)) = [] := by
      intro side
      cases side <;> decide +kernel
    exact fun i => hempty i.2
  mb _ := ⟨fun _ => 0, .fifo, rfl⟩
  idle _ := rfl

/-- A thread fills a mailbox of size 1 and waits with a second mail, which it stores when the first
one was received. -/
theorem fifo_of_run_two :
    ∃ tr s, Run Step (twoAndMailbox 1) tr s ∧ accepted tr () = [7, 8] ∧ received tr () = [7] ∧
      accepted tr () = received tr () ++ (List.range (s.mb ()).entry.toNat).map
          (fun i => (s.mb ()).msgPool (((s.mb ()).outOffset.toNat + i) % 1)) := by
  have hrun := machine.run_steps (twoAndMailbox 1)
    [.call false () (.send 7) 0, .call false () (.send 8) 0xffffffff, .timeout true,
      .call true () .recv 0, .again false () (.send 8)]
  refine ⟨_, _, hrun, by decide +kernel, by decide +kernel, ?_⟩
  exact (fifo_of_run (twoAndMailbox_start 1) () rfl (by decide) (by decide) hrun).1

end MbSys
end RtThread
