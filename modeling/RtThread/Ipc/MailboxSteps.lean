import RtThread.Ipc.Mailbox

/-!
# The steps of mailbox calls

What one section of a call can do, for senders and receivers alike: move a mail and resume the first
thread that waits on the other side, refuse, give up, or wait. Every step of the code is one of
these, an expiry, or a thread that leaves its call with an error.
-/

namespace RtThread
open Function (update)

def MbSide.other : MbSide → MbSide
  | .send => .recv
  | .recv => .send

/-- The result of a call that does not wait, or not any longer. -/
def MbSide.refusal : MbSide → RtErr
  | .send => .efull
  | .recv => .etimeout

namespace Mailbox
variable (mb : Mailbox)

/-- There is nothing to do for this side: the mailbox is full, or empty. -/
def Blocks : MbSide → Prop
  | .send => mb.entry = mb.size
  | .recv => mb.entry = 0

/-- The effect of a call that can go on. -/
def move : MbCall → Mailbox
  | .send value => mb.put value
  | .recv => mb.get

def output : MbCall → Option (BitVec 32)
  | .send _ => none
  | .recv => some mb.front

end Mailbox

/-- The abstract state; `w.waiting` is the list that a call waits in. -/
structure MbView (τ β : Type*) where
  w : WaitView τ (β × MbSide)
  mb : β → Mailbox

namespace MbView
variable {τ β : Type*} [DecidableEq τ] [DecidableEq β]

/-- What a section does that a thread enters from outside or behind `rt_schedule`. -/
inductive Section (v : MbView τ β) (t : τ) (m : β) (c : MbCall) :
    Option MbResult → MbView τ β → Prop
  | move : ¬ (v.mb m).Blocks c.side →
      Section v t m c (some (.eok, (v.mb m).output c))
        ⟨v.w.resumeFirst (m, c.side.other), update v.mb m ((v.mb m).move c)⟩
  | refuse : (v.mb m).Blocks c.side → Section v t m c (some (c.side.refusal, none)) v
  /-- the waiting time is over -/
  | giveUp {e} : (v.mb m).Blocks c.side → v.w.Idle t →
      Section v t m c (some (c.side.refusal, none)) ⟨v.w.setError t e, v.mb⟩
  | block : (v.mb m).Blocks c.side → v.w.Idle t →
      Section v t m c none ⟨v.w.block t (m, c.side) (v.mb m).flag, v.mb⟩

inductive Step (v : MbView τ β) : MbOp τ β × Option MbResult → MbView τ β → Prop
  | call {t m c timeout r v'} : Section v t m c r v' → Step v (.call t m c timeout, r) v'
  | nowait {t m c r v'} : Section v t m c r v' → Step v (.nowait t m c, r) v'
  /-- a thread that was resumed looks at the mailbox again -/
  | again {t m c r v'} : v.w.Woken t (m, c.side) → Section ⟨v.w.leave t, v.mb⟩ t m c r v' →
      Step v (.again t m c, r) v'
  /-- a thread that timed out returns -/
  | fail {t m c} : v.w.stat t = .ready → v.w.error t ≠ .eok →
      Step v (.again t m c, some (v.w.error t, none)) ⟨v.w.leave t, v.mb⟩
  | timeout {t} : v.w.stat t = .suspend → Step v (.timeout t, none) ⟨v.w.timeout t, v.mb⟩
  | tick : Step v (.tick, none) v

variable {v v' : MbView τ β} {t : τ} {m : β} {c : MbCall} {r : Option MbResult}
  {e : MbOp τ β × Option MbResult}

theorem Section.ok (h : v.w.Ok) (hsection : v.Section t m c r v') : v'.w.Ok := by
  cases hsection with
  | move => exact h.resumeFirst
  | refuse => exact h
  | giveUp _ hidle => exact h.setError hidle.1 _
  | block _ hidle => exact h.block hidle.1

theorem Step.ok (h : v.w.Ok) (hstep : v.Step e v') : v'.w.Ok := by
  cases hstep with
  | call hsection | nowait hsection => exact hsection.ok h
  | again hwoken hsection => exact hsection.ok (h.leave hwoken.2.1)
  | fail hs => exact h.leave hs
  | timeout => exact h.timeout
  | tick => exact h

end MbView

namespace MbSys
variable {τ β : Type*} [DecidableEq τ]

def view (s : MbSys τ β) : MbView τ β :=
  ⟨s.k.view fun t => (s.calling t).map MbLocals.list, s.mb⟩

variable {s s' : MbSys τ β} {t : τ} {m : β} {c : MbCall} {timeout tickDelta : BitVec 32}
  {r : Option MbResult} {e : MbOp τ β × Option MbResult}

theorem map_list_update (calling : τ → Option (MbLocals β)) (l : Option (MbLocals β)) :
    (fun u => (update calling t l u).map MbLocals.list) =
      update (fun u => (calling u).map MbLocals.list) t (l.map MbLocals.list) := by
  funext u
  by_cases hu : u = t
  · subst hu
    simp
  · simp [hu]

theorem view_leave : view { s with calling := update s.calling t none } =
    ⟨s.view.w.leave t, s.view.mb⟩ := by
  simp [view, map_list_update, WaitView.leave, Kernel.view]

theorem view_setError (x : RtErr) : (s.setError t x).view = ⟨s.view.w.setError t x, s.view.mb⟩ := by
  rw [setError, view, Kernel.view_setError]
  rfl

variable [DecidableEq β]

theorem wake_eq (i : β × MbSide) : s.wake i = { s with k := s.k.rtIpcListResume i } := by
  rw [wake]
  split
  · rfl
  · rename_i hempty
    rw [Kernel.rtIpcListResume, not_not.mp hempty]

theorem view_wake (h : s.k.WaitOk) (i : β × MbSide) :
    (s.wake i).view = ⟨s.view.w.resumeFirst i, s.view.mb⟩ ∧ (s.wake i).k.WaitOk := by
  rw [wake_eq]
  exact ⟨congrArg (MbView.mk · _) h.view_resumeFirst, h.rtIpcListResume⟩

theorem view_wait (h : s.k.WaitOk) (hs : (s.k.thread t).stat = .ready) :
    ((s.setError t .eok).wait t m c timeout tickDelta).view =
      ⟨s.view.w.block t (m, c.side) (s.view.mb m).flag, s.view.mb⟩ ∧
    ((s.setError t .eok).wait t m c timeout tickDelta).k.WaitOk := by
  obtain ⟨hblock, hk⟩ := h.reset_ipcWait hs (fun u => (s.calling u).map MbLocals.list)
    (m, c.side) (s.mb m).flag timeout
  refine ⟨?_, hk⟩
  rw [view, wait, setError]
  simp only [map_list_update]
  exact congrArg (MbView.mk · _) hblock

theorem rtMbLoop_move (h : s.k.WaitOk) (hgo : ¬ (s.mb m).Blocks c.side)
    (hloop : s.rtMbLoop t m c timeout tickDelta = (r, s')) :
    s.view.Section t m c r s'.view ∧ s'.k.WaitOk := by
  cases c with
  | send value =>
    have hroom : (s.mb m).entry ≠ (s.mb m).size := hgo
    rw [rtMbLoop, sendLoop, if_neg hroom] at hloop
    cases hloop
    have hwake := view_wake (s := { s with mb := update s.mb m ((s.mb m).put value) }) h (m, .recv)
    rw [sendMail, hwake.1]
    exact ⟨.move hgo, hwake.2⟩
  | recv =>
    have hmail : (s.mb m).entry ≠ 0 := hgo
    rw [rtMbLoop, recvLoop, if_neg hmail] at hloop
    cases hloop
    have hwake := view_wake (s := { s with mb := update s.mb m (s.mb m).get }) h (m, .send)
    rw [recvMail, hwake.1]
    exact ⟨.move hgo, hwake.2⟩

theorem rtMbLoop_section (h : s.k.WaitOk) (hidle : s.view.w.Idle t)
    (hloop : s.rtMbLoop t m c timeout tickDelta = (r, s')) :
    s.view.Section t m c r s'.view ∧ s'.k.WaitOk := by
  by_cases hblocks : (s.mb m).Blocks c.side
  · cases c with
    | send value =>
      have hfull : (s.mb m).entry = (s.mb m).size := hblocks
      rw [rtMbLoop, sendLoop, if_pos hfull] at hloop
      split at hloop
      · cases hloop
        rw [view_setError]
        exact ⟨.giveUp hblocks hidle, h.setError .eok⟩
      · cases hloop
        rw [(view_wait h hidle.1).1]
        exact ⟨.block hblocks hidle, (view_wait h hidle.1).2⟩
    | recv =>
      have hempty : (s.mb m).entry = 0 := hblocks
      rw [rtMbLoop, recvLoop, if_pos hempty] at hloop
      split at hloop
      · cases hloop
        have htwice : ((s.setError t .eok).setError t .etimeout).view =
            ⟨s.view.w.setError t .etimeout, s.view.mb⟩ := by
          simp [view_setError, WaitView.setError]
        rw [htwice]
        exact ⟨.giveUp hblocks hidle, (h.setError .eok).setError .etimeout⟩
      · cases hloop
        rw [(view_wait h hidle.1).1]
        exact ⟨.block hblocks hidle, (view_wait h hidle.1).2⟩
  · exact rtMbLoop_move h hblocks hloop

/-- A call is its loop, except that it refuses at once if it may not wait. -/
theorem rtMbCall_cases (hcall : s.rtMbCall t m c timeout = (r, s')) :
    ((s.mb m).Blocks c.side ∧ r = some (c.side.refusal, none) ∧ s' = s) ∨
      ((timeout = 0 → ¬ (s.mb m).Blocks c.side) ∧ s.rtMbLoop t m c timeout 0 = (r, s')) := by
  cases c with
  | send value =>
    rw [rtMbCall, rtMbSendWait] at hcall
    split at hcall
    · rename_i hnow
      cases hcall
      exact .inl ⟨hnow.1, rfl, rfl⟩
    · rename_i hnow
      exact .inr ⟨fun hzero hfull => hnow ⟨hfull, hzero⟩, hcall⟩
  | recv =>
    rw [rtMbCall, rtMbRecv] at hcall
    split at hcall
    · rename_i hnow
      cases hcall
      exact .inl ⟨hnow.1, rfl, rfl⟩
    · rename_i hnow
      exact .inr ⟨fun hzero hempty => hnow ⟨hempty, hzero⟩, hcall⟩

theorem rtMbCall_section (h : s.k.WaitOk) (hcaller : s.view.w.Idle t ∨ timeout = 0)
    (hcall : s.rtMbCall t m c timeout = (r, s')) :
    s.view.Section t m c r s'.view ∧ s'.k.WaitOk := by
  rcases rtMbCall_cases hcall with ⟨hblocks, rfl, rfl⟩ | ⟨hgo, hloop⟩
  · exact ⟨.refuse hblocks, h⟩
  · rcases hcaller with hidle | hzero
    · exact rtMbLoop_section h hidle hloop
    · exact rtMbLoop_move h (hgo hzero) hloop

theorem rtMbAgain_step (h : s.k.WaitOk) (hs : (s.k.thread t).stat = .ready) {l : MbLocals β}
    (hl : s.calling t = some l) (hagain : s.rtMbAgain t l = (r, s')) :
    s.view.Step (.again t l.mb l.call, r) s'.view ∧ s'.k.WaitOk := by
  rw [rtMbAgain] at hagain
  split at hagain
  · rename_i herror
    cases hagain
    rw [view_leave]
    exact ⟨.fail hs herror, h⟩
  · rename_i herror
    have hwoken : s.view.w.Woken t l.list :=
      ⟨by simp [view, hl], hs, not_not.mp herror⟩
    generalize hleft : { s with calling := update s.calling t none } = s1 at hagain
    have hview : s1.view = ⟨s.view.w.leave t, s.view.mb⟩ := by rw [← hleft, view_leave]
    have hk : s1.k.WaitOk := by rwa [← hleft]
    have hidle : s1.view.w.Idle t := by
      rw [hview]
      exact ⟨hs, by simp⟩
    obtain ⟨hsection, hk'⟩ := rtMbLoop_section hk hidle hagain
    rw [hview] at hsection
    exact ⟨.again hwoken hsection, hk'⟩

theorem view_step (h : s.k.WaitOk) (hstep : s.Step e s') : s.view.Step e s'.view ∧ s'.k.WaitOk := by
  obtain ⟨op, r⟩ := e
  obtain ⟨henabled, happly⟩ := hstep
  cases op with
  | call t m c timeout =>
    have hidle : s.view.w.Idle t := ⟨henabled.1, by simp [view, henabled.2]⟩
    obtain ⟨hsection, hk⟩ := rtMbCall_section h (.inl hidle) happly
    exact ⟨.call hsection, hk⟩
  | again t m c =>
    obtain ⟨hs, hcalling⟩ := henabled
    obtain ⟨l, hl, hmc⟩ := Option.map_eq_some_iff.mp hcalling
    cases hmc
    simp only [machine, apply, hl] at happly
    exact rtMbAgain_step h hs hl happly
  | nowait t m c =>
    obtain ⟨hsection, hk⟩ := rtMbCall_section h (.inr rfl) happly
    exact ⟨.nowait hsection, hk⟩
  | timeout t =>
    cases happly
    have hs := h.timer t henabled
    have hview : view { s with k := s.k.rtTimerCheck t } = ⟨s.view.w.timeout t, s.view.mb⟩ :=
      congrArg (MbView.mk · _) Kernel.view_timeout
    rw [hview]
    exact ⟨.timeout hs, h.rtTimerCheck hs⟩
  | tick =>
    cases happly
    exact ⟨.tick, h⟩

end MbSys
end RtThread
