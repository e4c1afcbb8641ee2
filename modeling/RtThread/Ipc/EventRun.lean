import RtThread.Ipc.EventScan

/-!
# Receiving before and after an event is sent

No thread is ever left waiting with its condition met. A thread gets the same from `rt_event_recv`
whether it waited for the flags or came after they were sent.
-/

namespace RtThread
open BitVec
open Kernel
open Function
open List

namespace EventSys
variable {τ ε : Type*} {s s' : EventSys τ ε} {t u : τ} {i j : ε}
  {b set : BitVec 32} {option : BitVec 8}

structure Ok (s : EventSys τ ε) : Prop where
  k : s.k.WaitOk
  unmet : ∀ {i t}, t ∈ s.k.list (.wait i) →
    ¬ Satisfied (s.event i).set (s.eventSet t) (s.eventInfo t)

theorem Start.ok (h : Start s) : Ok s := by
  refine ⟨h.k, fun {i t} ht => ?_⟩
  rw [h.empty i] at ht
  cases ht

section
variable (h : Ok s)
include h

theorem Ok.sublist (hk : s'.k.WaitOk)
    (hsub : ∀ i, (s'.k.list (.wait i)).Sublist (s.k.list (.wait i)))
    (hset : ∀ i, ∃ x, (s'.event i).set = (s.event i).set &&& ~~~x)
    (hwaiter : s'.eventSet = s.eventSet ∧ s'.eventInfo = s.eventInfo) : Ok s' := by
  refine ⟨hk, fun {i t} ht hsat => h.unmet ((hsub i).subset ht) ?_⟩
  obtain ⟨x, hx⟩ := hset i
  rw [hx, hwaiter.1, hwaiter.2] at hsat
  exact hsat.of_clear

variable [DecidableEq τ]

theorem Ok.setError (e : RtErr) : Ok (s.setError t e) :=
  ⟨h.k.setError e, h.unmet⟩

variable [DecidableEq ε]

omit [DecidableEq τ] in
theorem Ok.setSet {set : BitVec 32} (hset : ∃ x, set = (s.event i).set &&& ~~~x) :
    Ok (s.setSet i set) := by
  refine h.sublist h.k (fun j => List.Sublist.refl _) (fun j => ?_) ⟨rfl, rfl⟩
  by_cases hj : j = i
  · subst hj
    simpa using hset
  · simpa [hj] using clears_none (s.event j).set

theorem Ok.block (ht : (s.k.thread t).stat = .ready) {set : BitVec 32}
    {option : BitVec 8} (hnot : ¬ Satisfied (s.event i).set set option) (time : BitVec 32) :
    Ok { s with
      eventSet := update s.eventSet t set
      eventInfo := update s.eventInfo t option
      k := s.k.ipcWait i t (s.event i).flag time
      receiving := update s.receiving t (some i) } := by
  refine ⟨h.k.ipcWait ht, fun {j u} hu => ?_⟩
  rw [h.k.ipcWait_wait ht] at hu
  by_cases hut : u = t
  · subst hut
    split at hu
    · rename_i hj
      subst hj
      simpa using hnot
    · exact absurd hu (h.k.not_mem_wait ht)
  · have hold : u ∈ s.k.list (.wait j) := by
      split at hu
      · rename_i hj
        subst hj
        exact ((mem_waitInsert _ t).mp hu).resolve_left hut
      · exact hu
    simpa [hut] using h.unmet hold

theorem Ok.recv (ht : (s.k.thread t).stat = .ready) (set : BitVec 32)
    (option : BitVec 8) (time : BitVec 32) : Ok (s.rtEventRecv t i set option time).2 := by
  have herror := h.setError (t := t) .eok
  have hready : ((s.setError t .eok).k.thread t).stat = .ready := by simpa using ht
  unfold rtEventRecv
  dsimp only
  generalize s.setError t .eok = s1 at herror hready ⊢
  split
  · exact h
  · split
    · split
      · exact herror.setSet ⟨_, rfl⟩
      · exact herror
    · rename_i hnot
      split
      · exact herror.setError .etimeout
      · exact herror.block hready (fun hsat => hnot (recvStatus_eq_eok.mpr hsat)) time

theorem Ok.send (b : BitVec 32) : Ok (s.rtEventSend i b).2 := by
  by_cases hb : b = 0
  · rw [rtEventSend, if_pos hb]
    exact h
  · have hsent := sent_of_send (i := i) h.k hb
    refine ⟨hsent.k, fun {j u} hu => ?_⟩
    by_cases hj : j = i
    · subst hj
      have hleft := hsent.left (h.k.nodup _)
      rw [hsent.set]
      exact not_satisfied_of_mem_left
        (hleft ▸ mem_map_of_mem hu)
    · obtain ⟨hevent, hlist⟩ := hsent.elsewhere j hj
      rw [hlist] at hu
      have hwaiter := (hsent.others u fun hmem =>
        hj (by simpa using h.k.unique hu (mem_wait_of_resumed hmem))).1
      have hold : ¬ Satisfied (s.event j).set (s.waiter u).set (s.waiter u).info := h.unmet hu
      rw [← hwaiter, ← hevent] at hold
      exact hold

theorem Ok.reset : Ok (s.rtEventControlReset i).2 := by
  have hresumed : Ok { s with k := s.k.rtIpcListResumeAll i } :=
    h.sublist h.k.rtIpcListResumeAll.1 (resumeAllLoop_wait_sublist _)
      (fun j => clears_none _) ⟨rfl, rfl⟩
  exact hresumed.setSet ⟨allOnes 32, by simp⟩

theorem Ok.timeout (ht : (s.k.thread t).timerActivated = true) :
    Ok { s with k := s.k.rtTimerCheck t } := by
  refine h.sublist (h.k.rtTimerCheck (h.k.timer t ht)) (fun j => ?_) (fun j => clears_none _)
    ⟨rfl, rfl⟩
  rw [rtTimerCheck_wait]
  exact erase_sublist

theorem Ok.step {e : EventOp τ ε × Option Received} (hstep : Step s e s') : Ok s' := by
  obtain ⟨op, r⟩ := e
  obtain ⟨henabled, hnext⟩ := hstep
  obtain rfl : (s.apply op).2 = s' := congrArg Prod.snd hnext
  cases op with
  | recv t i set option time => exact h.recv henabled.1 set option time
  | recvEnd t =>
    change Ok (s.rtEventRecvEnd t).2
    unfold rtEventRecvEnd
    split <;> exact ⟨h.k, h.unmet⟩
  | send i set => exact h.send set
  | reset i => exact h.reset
  | timeout t => exact h.timeout henabled

end

variable [DecidableEq τ]

theorem rtEventRecvEnd_of_eok (h : (s.k.thread t).error = .eok) : s.rtEventRecvEnd t =
    ((.eok, some (s.eventSet t)), { s with receiving := update s.receiving t none }) := by
  rw [rtEventRecvEnd, if_neg (not_not.mpr h), h]

variable [DecidableEq ε]

theorem ok_of_run {s0 : EventSys τ ε} {tr : List (EventOp τ ε × Option Received)} (h : Start s0)
    (hrun : Run Step s0 tr s) : Ok s :=
  hrun.state_invariant h.ok fun _ _ _ hok hstep => hok.step hstep

theorem sent_zero (h : Ok s) : Sent i s (s.rtEventSend i 0).2 []
    (scanWaiters ((s.event i).set ||| 0) ((s.k.list (.wait i)).map s.waiter)) := by
  have hunmet : ∀ w ∈ (s.k.list (.wait i)).map s.waiter,
      ¬ Satisfied (s.event i).set w.set w.info := by
    intro w hw
    obtain ⟨u, hu, rfl⟩ := mem_map.mp hw
    exact h.unmet hu
  have hor : (s.event i).set ||| 0 = (s.event i).set := or_zero
  rw [rtEventSend, if_pos rfl, hor, scanWaiters_of_not_satisfied hunmet]
  refine ⟨h.k, rfl, ?_, fun w hw => absurd hw not_mem_nil, fun u _ => ⟨rfl, rfl⟩,
    fun j _ => ⟨rfl, rfl⟩⟩
  simp [comp_def, waiter]

/-- `rt_event_send` scans the waiting threads from left to right. The threads that the scan releases
are resumed with what they receive, the others stay as they are and where they are. -/
theorem send_as_scan (hk : s.k.WaitOk) (hb : b ≠ 0 ∨ ∃ s₀ tr, Start s₀ ∧ Run Step s₀ tr s) :
    let ts := s.k.list (.wait i)
    let s' := (s.rtEventSend i b).2
    let r := scanWaiters ((s.event i).set ||| b) (ts.map s.waiter)
    (s'.event i).set = r.set ∧ (s'.k.list (.wait i)).map s'.waiter = r.left ∧
      (∀ w ∈ r.resumed, w.thread ∈ ts ∧ (s.k.thread w.thread).stat = .suspend ∧
        (s'.k.thread w.thread).stat = .ready ∧ s'.waiter w.thread = w) ∧
      (∀ t ∉ r.resumed.map Waiter.thread, s'.k.thread t = s.k.thread t ∧ s'.waiter t = s.waiter t) ∧
      (b ≠ 0 → ∀ m, (s.sendRounds i b m).n = ts[m]?) := by
  intro ts s' r
  have hsent : Sent i s s' [] r := by
    by_cases hzero : b = 0
    · obtain ⟨s₀, tr, hstart, hrun⟩ := hb.resolve_left (not_not.mpr hzero)
      have hzero' := sent_zero (i := i) (ok_of_run hstart hrun)
      rwa [← hzero] at hzero'
    · exact sent_of_send hk hzero
  refine ⟨hsent.set, hsent.left (hk.nodup _), fun w hw => ?_, fun t ht => ?_, fun hne m => ?_⟩
  · have hmem : w.thread ∈ ts := mem_wait_of_resumed (mem_map_of_mem hw)
    obtain ⟨hwaiter, hthread⟩ := hsent.resumed w hw
    exact ⟨hmem, hk.waiting hmem, by rw [hthread], hwaiter⟩
  · obtain ⟨hwaiter, hthread⟩ := hsent.others t ht
    exact ⟨hthread, hwaiter⟩
  · exact sendRounds_node (l := []) hk rfl rfl m

def fourReceivers : EventSys Quartet Bool where
  k := quartet
  event _ := rtEventInit .fifo
  eventSet _ := 0
  eventInfo _ := 0
  receiving _ := none

theorem fourReceivers_start : Start fourReceivers where
  k := quartet_waitOk
  empty := by decide +kernel

/-- The first thread clears the flag that the third one waits for. -/
theorem send_as_scan_clears : ∃ tr s, Run Step fourReceivers tr s ∧
    s.k.list (.wait true) = [.a, .b, .c] ∧ ((s.rtEventSend true 1).2.event true).set = 0 ∧
    (s.rtEventSend true 1).2.k.list (.wait true) = [.b, .c] := by
  have hrun := machine.run_steps fourReceivers
    [.recv .a true 1 6 0xffffffff, .recv .b true 3 1 0xffffffff, .recv .c true 1 2 5]
  have hscan := send_as_scan (i := true) (b := 1) (ok_of_run fourReceivers_start hrun).k
    (.inl (by decide))
  exact ⟨_, _, hrun, by decide +kernel, hscan.1.trans (by decide +kernel), by decide +kernel⟩

theorem rtEventRecv_blocks (hset : set ≠ 0) (hnot : ¬ Satisfied (s.event i).set set option)
    {time : BitVec 32} (htime : time ≠ 0) :
    s.rtEventRecv t i set option time = (none, { s.setError t .eok with
      eventSet := update s.eventSet t set
      eventInfo := update s.eventInfo t option
      k := (s.setError t .eok).k.ipcWait i t (s.event i).flag time
      receiving := update s.receiving t (some i) }) := by
  unfold rtEventRecv
  simp only [setError_event]
  rw [if_neg hset, if_neg fun hok => hnot (recvStatus_eq_eok.mp hok), if_neg htime]
  rfl

theorem rtEventRecv_succeeds (hset : set ≠ 0) (hsat : Satisfied (s.event i).set set option)
    (time : BitVec 32) :
    (s.rtEventRecv t i set option time).1 = some (.eok, some ((s.event i).set &&& set)) ∧
      ((s.rtEventRecv t i set option time).2.event i).set =
        if option &&& rtEventFlagClear ≠ 0 then (s.event i).set &&& ~~~set
          else (s.event i).set := by
  unfold rtEventRecv
  simp only [setError_event]
  rw [if_neg hset, if_pos (recvStatus_eq_eok.mpr hsat)]
  by_cases hclear : option &&& rtEventFlagClear ≠ 0
  · rw [if_pos hclear, if_pos hclear]
    simp
  · rw [if_neg hclear, if_neg hclear]
    simp

theorem rtEventRecv_waits {time : BitVec 32} (hk : s.k.WaitOk)
    (ht : (s.k.thread t).stat = .ready) (halone : s.k.list (.wait i) = []) (hset : set ≠ 0)
    (hnot : ¬ Satisfied (s.event i).set set option) (htime : time ≠ 0) :
    let blocked := s.rtEventRecv t i set option time
    blocked.1 = none ∧ blocked.2.k.WaitOk ∧ blocked.2.k.list (.wait i) = [t] ∧
      blocked.2.waiter t = ⟨t, set, option⟩ ∧ (blocked.2.event i).set = (s.event i).set ∧
      (blocked.2.k.thread t).error = .eok ∧ (blocked.2.k.thread t).stat = .suspend := by
  rw [rtEventRecv_blocks hset hnot htime]
  have hok : (s.setError t .eok).k.WaitOk := hk.setError .eok
  have hready : ((s.setError t .eok).k.thread t).stat = .ready := by simpa using ht
  have hlist : (s.setError t .eok).k.list (.wait i) = [] := halone
  refine ⟨rfl, hok.ipcWait hready, ?_, by simp [waiter], rfl, ?_⟩
  · refine (hok.ipcWait_wait hready i).trans ?_
    rw [if_pos rfl, hlist]
    cases (s.event i).flag <;> rfl
  · change ((ipcWait _ i t _ time).thread t).error = .eok ∧
      ((ipcWait _ i t _ time).thread t).stat = .suspend
    rw [ipcWait_thread hready]
    simp

theorem and_not_and_self (a x : BitVec 32) : a &&& ~~~(x &&& a) = a &&& ~~~x := by
  refine eq_of_getLsbD_eq fun n hn => ?_
  simp only [getLsbD_and, getLsbD_not, hn]
  cases a.getLsbD n with
  | false => rfl
  | true => simp

/-- A thread that waits alone and is released by `rt_event_send` gets what a thread gets that calls
`rt_event_recv` after the flags were sent, and the same flags are left; if the flags are not enough
it goes on waiting. -/
theorem recv_before_eq_recv_after {time : BitVec 32} (hk : s.k.WaitOk)
    (ht : (s.k.thread t).stat = .ready) (halone : s.k.list (.wait i) = []) (hset : set ≠ 0)
    (hb : b ≠ 0) (hnot : ¬ Satisfied (s.event i).set set option) (htime : time ≠ 0)
    (time' : BitVec 32) :
    let blocked := s.rtEventRecv t i set option time
    let sent := (blocked.2.rtEventSend i b).2
    let later := (s.rtEventSend i b).2.rtEventRecv t i set option time'
    blocked.1 = none ∧ blocked.2.k.list (.wait i) = [t] ∧
      (Satisfied ((s.event i).set ||| b) set option → (sent.k.thread t).stat = .ready ∧
          (sent.rtEventRecvEnd t).1.1 = .eok ∧
          some (sent.rtEventRecvEnd t).1 = later.1 ∧
          ((sent.rtEventRecvEnd t).2.event i).set = (later.2.event i).set) ∧
      (¬ Satisfied ((s.event i).set ||| b) set option →
        (sent.k.thread t).stat = .suspend ∧ sent.k.list (.wait i) = [t] ∧
          (sent.event i).set = (s.event i).set ||| b) := by
  intro blocked sent later
  obtain ⟨hnone, hok, hlist, hwaiter, hevent, herror, hsuspend⟩ :=
    rtEventRecv_waits hk ht halone hset hnot htime
  have hsent := sent_of_send (i := i) hok hb
  rw [hevent, hlist, map_singleton, hwaiter] at hsent
  have hafter : ((s.rtEventSend i b).2.event i).set = (s.event i).set ||| b := by
    have hset := (sent_of_send (i := i) hk hb).set
    rwa [halone] at hset
  refine ⟨hnone, hlist, fun hsat => ?_, fun hunmet => ?_⟩
  · rw [scanWaiters_cons_of_satisfied hsat] at hsent
    obtain ⟨hreceived, hresumed⟩ := hsent.resumed _ mem_cons_self
    have hend := rtEventRecvEnd_of_eok (by rw [hresumed]; exact herror)
    have hreceived : sent.eventSet t = set &&& ((s.event i).set ||| b) :=
      congrArg Waiter.set hreceived
    obtain ⟨hresult, hleft⟩ := rtEventRecv_succeeds
      hset (by rwa [hafter]) time'
    rw [hafter] at hresult hleft
    refine ⟨by rw [hresumed], by rw [hend], ?_, ?_⟩
    · rw [hresult, hend, hreceived, BitVec.and_comm]
    · rw [hleft, hend]
      refine hsent.set.trans ?_
      simp only [scanWaiters, Waiter.leaves, and_not_and_self]
  · rw [scanWaiters_cons_of_not_satisfied hunmet] at hsent
    refine ⟨?_, hsent.wait, hsent.set⟩
    rw [(hsent.others t not_mem_nil).2]
    exact hsuspend

/-- Two flags are sent, and cleared when both have been received. -/
theorem recv_before_eq_recv_after_two :
    let blocked := (fourReceivers.rtEventRecv .a true 3 5 0xffffffff).2
    let sent := (blocked.rtEventSend true 7).2
    ((sent.rtEventRecvEnd .a).2.event true).set = 4 ∧ some (sent.rtEventRecvEnd .a).1 =
        ((fourReceivers.rtEventSend true 7).2.rtEventRecv .a true 3 5 0).1 := by
  have hnot : ¬ Satisfied (fourReceivers.event true).set 3 5 := by decide +kernel
  have hready : (fourReceivers.k.thread .a).stat = .ready := by decide +kernel
  have hset : (3 : BitVec 32) ≠ 0 := by decide
  have hb : (7 : BitVec 32) ≠ 0 := by decide
  have htime : (0xffffffff : BitVec 32) ≠ 0 := by decide
  have hpaths := recv_before_eq_recv_after fourReceivers_start.k hready
    (fourReceivers_start.empty true) hset hb hnot htime 0
  obtain ⟨-, -, hresult, hleft⟩ := hpaths.2.2.1 (by decide +kernel)
  exact ⟨hleft.trans (by decide +kernel), hresult⟩

end EventSys
end RtThread
