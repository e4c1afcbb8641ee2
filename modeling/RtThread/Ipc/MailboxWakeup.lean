import RtThread.Ipc.MailboxFifo

/-!
# No wake-up is lost

A send resumes one receiver at most, and by the time that one runs another thread may have taken the
mail. Still no receiver waits while there are mails that nobody is on the way for: the receivers
that were resumed and have not looked at the mailbox yet are at least as many as the mails. The same
holds of the senders and the free places.
-/

namespace RtThread
open Function

namespace Mailbox
variable {mb : Mailbox}

/-- For how many calls of a side there is something to do. -/
def room (mb : Mailbox) : MbSide → Nat
  | .send => mb.size.toNat - mb.entry.toNat
  | .recv => mb.entry.toNat

theorem room_of_blocks {side : MbSide} (h : mb.Blocks side) : mb.room side = 0 := by
  cases side with
  | send =>
    have hfull : mb.entry = mb.size := h
    simp [room, hfull]
  | recv =>
    have hempty : mb.entry = 0 := h
    simp [room, hempty]

theorem entry_le_move (hle : mb.entry ≤ mb.size) {c : MbCall} (hgo : ¬ mb.Blocks c.side) :
    (mb.move c).entry ≤ (mb.move c).size := by
  cases c with
  | send value =>
    have hne : mb.entry ≠ mb.size := hgo
    simp only [move, put_entry, put_size]
    bv_omega
  | recv =>
    have hne : mb.entry ≠ 0 := hgo
    simp only [move, get_entry, get_size]
    bv_omega

theorem room_move (hle : mb.entry ≤ mb.size) {c : MbCall} (hgo : ¬ mb.Blocks c.side) :
    (mb.move c).room c.side + 1 = mb.room c.side ∧
      (mb.move c).room c.side.other = mb.room c.side.other + 1 := by
  cases c with
  | send value =>
    have hne : mb.entry ≠ mb.size := hgo
    simp only [move, room, MbCall.side, MbSide.other, put_entry, put_size]
    bv_omega
  | recv =>
    have hne : mb.entry ≠ 0 := hgo
    simp only [move, room, MbCall.side, MbSide.other, get_entry, get_size]
    bv_omega

end Mailbox

namespace MbView
variable {τ β : Type*} {v v' : MbView τ β} {t u : τ} {m : β}
  {c : MbCall} {r : Option MbResult} {e : MbOp τ β × Option MbResult} {i : β × MbSide} {slack : Nat}

/-- While a thread waits in the list, there are enough on the way, up to `slack`. -/
def Served (v : MbView τ β) (i : β × MbSide) (slack : Nat) : Prop :=
  ∃ n, v.w.WokenCount i n ∧ (v.w.wait i ≠ [] → (v.mb i.1).room i.2 ≤ n + slack)

structure Ok (v : MbView τ β) : Prop where
  w : v.w.Ok
  entry_le : ∀ m, (v.mb m).entry ≤ (v.mb m).size
  served : ∀ i, v.Served i 0

theorem other_ne (side : MbSide) : side.other ≠ side := by
  cases side <;> decide

theorem other_other (side : MbSide) : side.other.other = side := by
  cases side <;> rfl

theorem Served.mono (h : v.Served i 0) (slack : Nat) : v.Served i slack := by
  obtain ⟨n, hn, hserved⟩ := h
  exact ⟨n, hn, fun hwait => (hserved hwait).trans (Nat.le_add_right n slack)⟩

variable [DecidableEq τ]

theorem Served.timeout (h : v.Served i 0) (hs : v.w.stat t = .suspend) :
    Served ⟨v.w.timeout t, v.mb⟩ i 0 := by
  obtain ⟨n, hn, hserved⟩ := h
  refine ⟨n, hn.timeout hs, fun hwait => hserved ?_⟩
  rintro hempty
  exact hwait (by simp [hempty])

variable [DecidableEq β]

omit [DecidableEq τ] in
theorem Served.of_blocks (h : v.Served i (if i = (m, c.side) then 1 else 0))
    (hblocks : (v.mb m).Blocks c.side) {w : WaitView τ (β × MbSide)}
    (hcount : ∀ n, v.w.WokenCount i n → w.WokenCount i n)
    (hwait : i ≠ (m, c.side) → w.wait i = v.w.wait i) : Served ⟨w, v.mb⟩ i 0 := by
  obtain ⟨n, hn, hserved⟩ := h
  refine ⟨n, hcount n hn, fun hne => ?_⟩
  by_cases hi : i = (m, c.side)
  · subst hi
    simp [Mailbox.room_of_blocks hblocks]
  · rw [hwait hi] at hne
    simpa [hi] using hserved hne

/-- A mail is moved by a thread that may have been on the way itself. -/
theorem Served.move (hw : v.w.Ok) (hle : (v.mb m).entry ≤ (v.mb m).size)
    (h : v.Served i (if i = (m, c.side) then 1 else 0)) (hgo : ¬ (v.mb m).Blocks c.side) :
    Served ⟨v.w.resumeFirst (m, c.side.other), update v.mb m ((v.mb m).move c)⟩ i 0 := by
  obtain ⟨n, hcount, hserved⟩ := h
  obtain ⟨hown, hother⟩ := Mailbox.room_move hle hgo
  by_cases hi : i = (m, c.side.other)
  · subst hi
    by_cases hempty : v.w.wait (m, c.side.other) = []
    · rw [WaitView.resumeFirst, hempty]
      exact ⟨n, hcount, fun hne => absurd hempty hne⟩
    · refine ⟨n + 1, hcount.resumeFirst hw hempty, fun _ => ?_⟩
      have hroom := hserved hempty
      rw [if_neg (by simp [other_ne])] at hroom
      simp only [update_self, hother]
      exact Nat.succ_le_succ hroom
  · refine ⟨n, hcount.resumeFirst_of_ne hw (Ne.symm hi), fun hwait => ?_⟩
    rw [WaitView.resumeFirst_wait_of_ne hi] at hwait
    have hroom := hserved hwait
    by_cases hm : i = (m, c.side)
    · subst hm
      rw [if_pos rfl, ← hown] at hroom
      simp only [update_self]
      exact Nat.le_of_succ_le_succ hroom
    · rw [if_neg hm] at hroom
      have hne : i.1 ≠ m := by
        rintro rfl
        obtain ⟨m, side⟩ := i
        cases side <;> cases c <;> simp_all [MbCall.side, MbSide.other]
      simpa [update_of_ne hne] using hroom

/-- A section serves the threads that wait, also if the thread that enters it was counted as one on
the way before. -/
theorem Section.served (hw : v.w.Ok) (hle : ∀ m, (v.mb m).entry ≤ (v.mb m).size)
    (h : v.Served i (if i = (m, c.side) then 1 else 0)) (hsection : v.Section t m c r v') :
    v'.Served i 0 := by
  cases hsection with
  | move hgo => exact h.move hw (hle m) hgo
  | refuse hblocks => exact h.of_blocks hblocks (fun _ hn => hn) fun _ => rfl
  | giveUp hblocks hidle =>
    exact h.of_blocks hblocks (fun _ hn => hn.setError hidle _) fun _ => rfl
  | block hblocks hidle =>
    exact h.of_blocks hblocks (fun _ hn => hn.block hidle) fun hi => by simp [hi]

theorem Section.entry_le (hle : ∀ m, (v.mb m).entry ≤ (v.mb m).size)
    (hsection : v.Section t m c r v') (m' : β) : (v'.mb m').entry ≤ (v'.mb m').size := by
  cases hsection with
  | move hgo =>
    by_cases hm : m' = m
    · subst hm
      simpa using Mailbox.entry_le_move (hle m') hgo
    · simpa [hm] using hle m'
  | refuse | giveUp | block => exact hle m'

theorem Served.leave_woken (h : v.Served i 0) {j : β × MbSide} (hwoken : v.w.Woken t j) :
    Served ⟨v.w.leave t, v.mb⟩ i (if i = j then 1 else 0) := by
  obtain ⟨n, hn, hserved⟩ := h
  by_cases hi : i = j
  · subst hi
    obtain ⟨n', rfl, hleft⟩ := hn.leave_woken hwoken
    rw [if_pos rfl]
    exact ⟨n', hleft, hserved⟩
  · rw [if_neg hi]
    refine ⟨n, hn.leave fun hother => hi ?_, hserved⟩
    exact Option.some.inj (hother.1.symm.trans hwoken.1)

theorem Ok.step (h : Ok v) (hstep : v.Step e v') : Ok v' where
  w := hstep.ok h.w
  entry_le := by
    cases hstep with
    | call hsection | nowait hsection => exact hsection.entry_le h.entry_le
    | @again t _ _ _ _ _ hsection =>
      exact hsection.entry_le (v := ⟨v.w.leave t, v.mb⟩) h.entry_le
    | fail | timeout | tick => exact h.entry_le
  served i := by
    cases hstep with
    | call hsection | nowait hsection =>
      exact hsection.served h.w h.entry_le ((h.served i).mono _)
    | @again t _ _ _ _ hwoken hsection =>
      exact hsection.served (v := ⟨v.w.leave t, v.mb⟩) (h.w.leave hwoken.2.1) h.entry_le
        ((h.served i).leave_woken hwoken)
    | fail _ herror =>
      obtain ⟨n, hn, hserved⟩ := h.served i
      exact ⟨n, hn.leave fun hwoken => herror hwoken.2.2, hserved⟩
    | timeout hs => exact (h.served i).timeout hs
    | tick => exact h.served i

theorem Section.woken_iff (hw : v.w.Ok) (hsection : v.Section t m c r v') :
    v'.w.Woken u i ↔ v.w.Woken u i ∨
      (∃ out, r = some (.eok, out)) ∧ (m, c.side.other) = i ∧ (v.w.wait i).head? = some u := by
  cases hsection with
  | move hgo =>
    rw [hw.woken_resumeFirst]
    refine or_congr_right ⟨?_, ?_⟩
    · rintro ⟨rfl, hhead⟩
      exact ⟨⟨_, rfl⟩, rfl, hhead⟩
    · rintro ⟨-, rfl, hhead⟩
      exact ⟨rfl, hhead⟩
  | refuse => exact (or_iff_left fun ⟨⟨_, heq⟩, _⟩ => refusal_ne_eok _ _ heq).symm
  | giveUp _ hidle =>
    rw [hidle.woken_setError]
    exact (or_iff_left fun ⟨⟨_, heq⟩, _⟩ => refusal_ne_eok _ _ heq).symm
  | block _ hidle =>
    rw [hidle.woken_block]
    simp

/-- A thread is woken by a call of the other side that moves a mail, as the first of its list. -/
theorem Step.woken_of (hw : v.w.Ok) (hstep : v.Step e v') {side : MbSide}
    (hbefore : ¬ v.w.Woken u (m, side)) (hafter : v'.w.Woken u (m, side)) :
    (∃ c out, e.1.target = some (m, c) ∧ c.side = side.other ∧ e.2 = some (.eok, out)) ∧
      (v.w.wait (m, side)).head? = some u := by
  cases hstep with
  | call hsection | nowait hsection =>
    obtain ⟨⟨out, rfl⟩, heq, hhead⟩ := ((hsection.woken_iff hw).mp hafter).resolve_left hbefore
    cases heq
    exact ⟨⟨_, out, rfl, (other_other _).symm, rfl⟩, hhead⟩
  | @again t _ _ _ _ hwoken hsection =>
    have hleft : ¬ (v.w.leave t).Woken u (m, side) := fun h => hbefore (WaitView.woken_of_leave h)
    have hiff := hsection.woken_iff (u := u) (i := (m, side))
      (hw.leave hwoken.2.1)
    obtain ⟨⟨out, rfl⟩, heq, hhead⟩ := (hiff.mp hafter).resolve_left hleft
    cases heq
    exact ⟨⟨_, out, rfl, (other_other _).symm, rfl⟩, hhead⟩
  | fail => exact absurd (WaitView.woken_of_leave hafter) hbefore
  | timeout hs => exact absurd ((WaitView.woken_timeout hs).mp hafter) hbefore
  | tick => exact absurd hafter hbefore

theorem Step.again_of_woken (hw : v.w.Ok) (hstep : v.Step e v') (hbefore : v.w.Woken u i)
    (hafter : ¬ v'.w.Woken u i) : ∃ c, e.1 = .again u i.1 c := by
  cases hstep with
  | call hsection | nowait hsection =>
    exact absurd ((hsection.woken_iff hw).mpr (.inl hbefore)) hafter
  | @again t m c _ _ hwoken hsection =>
    by_cases hut : u = t
    · subst hut
      obtain rfl : i = (m, c.side) := Option.some.inj (hbefore.1.symm.trans hwoken.1)
      exact ⟨c, rfl⟩
    · have hleft : (v.w.leave t).Woken u i := by simpa [WaitView.Woken, hut] using hbefore
      have hiff := hsection.woken_iff (u := u) (i := i)
        (hw.leave hwoken.2.1)
      exact absurd (hiff.mpr (.inl hleft)) hafter
  | @fail t _ _ _ herror =>
    refine absurd ((WaitView.woken_leave fun ht => herror ht.2.2).mpr hbefore) hafter
  | timeout hs => exact absurd ((WaitView.woken_timeout hs).mpr hbefore) hafter
  | tick => exact absurd hbefore hafter

end MbView

namespace MbSys
variable {τ β : Type*} {s₀ s : MbSys τ β}
  {tr : List (MbOp τ β × Option MbResult)} {size : β → BitVec 32}

theorem Start.ok (h : Start s size) : s.view.Ok where
  w := by
    have hnone : (fun t => (s.calling t).map MbLocals.list) = fun _ => none := by
      funext t
      simp [h.idle t]
    rw [view, hnone]
    exact Kernel.view_ok_of_empty h.empty
  entry_le m := by
    obtain ⟨msgpool, flag, hinit⟩ := h.mb m
    have hmb : s.view.mb m = _ := hinit
    rw [hmb]
    exact BitVec.le_def.mpr (Nat.zero_le _)
  served i := by
    refine ⟨0, WaitView.wokenCount_zero fun t => by simp [view, h.idle t], fun hwait => ?_⟩
    exact absurd (h.empty i) hwait

variable [DecidableEq τ] [DecidableEq β]

/-- In every run, while a thread is suspended in the list of receivers, the receivers that were
resumed and have not looked at the mailbox again are at least as many as the mails; likewise for the
senders and the free places. Such a thread was resumed, as the first of its list, by a successful
call of the other side. -/
theorem wakeups_of_run (hstart : Start s₀ size) (hrun : Run Step s₀ tr s) (m : β) :
    (s.k.list (.wait (m, .recv)) ≠ [] → ∃ pending : Finset τ,
      (∀ t, t ∈ pending ↔ s.view.w.Woken t (m, .recv)) ∧
      (s.mb m).entry.toNat ≤ pending.card) ∧
    (s.k.list (.wait (m, .send)) ≠ [] → ∃ pending : Finset τ,
      (∀ t, t ∈ pending ↔ s.view.w.Woken t (m, .send)) ∧
      (s.mb m).size.toNat - (s.mb m).entry.toNat ≤ pending.card) ∧
    ∀ e s', s.Step e s' → ∀ t side, (¬ s.view.w.Woken t (m, side) → s'.view.w.Woken t (m, side) →
        (∃ c out, e.1.target = some (m, c) ∧ c.side = side.other ∧ e.2 = some (.eok, out)) ∧
        (s.k.list (.wait (m, side))).head? = some t) ∧
      (s.view.w.Woken t (m, side) → ¬ s'.view.w.Woken t (m, side) → ∃ c, e.1 = .again t m c) := by
  have hall : s.k.WaitOk ∧ s.view.Ok := by
    refine hrun.state_invariant ⟨hstart.k, hstart.ok⟩ ?_
    rintro s e s' ⟨hk, hok⟩ hstep
    obtain ⟨hview, hk'⟩ := view_step hk hstep
    exact ⟨hk', hok.step hview⟩
  obtain ⟨hk, hok⟩ := hall
  have hserved : ∀ side, s.k.list (.wait (m, side)) ≠ [] → ∃ pending : Finset τ,
      (∀ t, t ∈ pending ↔ s.view.w.Woken t (m, side)) ∧ (s.mb m).room side ≤ pending.card := by
    intro side hwait
    obtain ⟨_, ⟨pending, hmem, rfl⟩, hroom⟩ := hok.served (m, side)
    exact ⟨pending, hmem, hroom hwait⟩
  refine ⟨hserved .recv, hserved .send, fun e s' hstep t side => ?_⟩
  have hview := (view_step hk hstep).1
  exact ⟨hview.woken_of hok.w, hview.again_of_woken hok.w⟩

/-- Two receivers wait, and the first was resumed by a send from an interrupt. -/
theorem wakeups_of_run_two : ∃ tr s, Run Step (twoAndMailbox 3) tr s ∧ (s.mb ()).entry = 1 ∧
      s.k.list (.wait ((), .recv)) ≠ [] ∧ ∃ pending : Finset Bool,
        (∀ t, t ∈ pending ↔ s.view.w.Woken t ((), .recv)) ∧
        (s.mb ()).entry.toNat ≤ pending.card := by
  have hrun := machine.run_steps (twoAndMailbox 3)
    [.call false () .recv 0xffffffff, .timeout true, .call true () .recv 0xffffffff,
      .nowait true () (.send 7)]
  refine ⟨_, _, hrun, by decide +kernel, by decide +kernel, ?_⟩
  exact (wakeups_of_run (twoAndMailbox_start 3) hrun ()).1 (by decide +kernel)

end MbSys
end RtThread
