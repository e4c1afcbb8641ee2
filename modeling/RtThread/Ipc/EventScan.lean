import RtThread.Ipc.Event

/-!
# Which threads an event releases

`rt_event_send` as a scan of the waiting threads from left to right: a thread whose condition is met
takes the flags it receives before the next one is looked at. The loop of the code is this scan
although it unlinks threads from the list it walks along.
-/

namespace RtThread
open Function
open List

/-- All flags of `set` are in `eventSet`, or for `RT_EVENT_FLAG_OR` alone one of them. -/
def Satisfied (eventSet set : BitVec 32) (option : BitVec 8) : Prop :=
  if option &&& rtEventFlagAnd ≠ 0 then
    ∀ n : Fin 32, set.getLsbD n = true → eventSet.getLsbD n = true
  else option &&& rtEventFlagOr ≠ 0 ∧
    ∃ n : Fin 32, set.getLsbD n = true ∧ eventSet.getLsbD n = true

instance (eventSet set : BitVec 32) (option : BitVec 8) :
    Decidable (Satisfied eventSet set option) :=
  inferInstanceAs (Decidable (ite _ _ _))

section Flags
variable {eventSet eventSet' set : BitVec 32} {option : BitVec 8}

theorem and_eq_iff_flags : eventSet &&& set = set ↔
    ∀ n : Fin 32, set.getLsbD n = true → eventSet.getLsbD n = true := by
  constructor
  · intro h n hn
    rw [← h, BitVec.getLsbD_and, Bool.and_eq_true] at hn
    exact hn.1
  · intro h
    refine BitVec.eq_of_getLsbD_eq fun n hn => ?_
    have hflag := h ⟨n, hn⟩
    rw [BitVec.getLsbD_and]
    cases hset : set.getLsbD n with
    | false => rw [Bool.and_false]
    | true => rw [hflag hset, Bool.and_true]

theorem and_ne_zero_iff_flags : eventSet &&& set ≠ 0 ↔
    ∃ n : Fin 32, set.getLsbD n = true ∧ eventSet.getLsbD n = true := by
  rw [← not_iff_not, not_not, not_exists]
  constructor
  · rintro h n ⟨hset, hevent⟩
    have hflag : (eventSet &&& set).getLsbD n = true := by
      rw [BitVec.getLsbD_and, hset, hevent, Bool.and_self]
    rw [h] at hflag
    simp at hflag
  · intro h
    refine BitVec.eq_of_getLsbD_eq fun n hn => ?_
    have hflag := h ⟨n, hn⟩
    rw [BitVec.getLsbD_and]
    cases hset : set.getLsbD n with
    | false => simp
    | true => simpa [hset] using hflag

theorem satisfied_iff : Satisfied eventSet set option ↔
    if option &&& rtEventFlagAnd ≠ 0 then eventSet &&& set = set
    else option &&& rtEventFlagOr ≠ 0 ∧ eventSet &&& set ≠ 0 := by
  rw [Satisfied, ← and_eq_iff_flags, ← and_ne_zero_iff_flags]

theorem Satisfied.mono (h : Satisfied eventSet set option)
    (hsub : ∀ n : Fin 32, eventSet.getLsbD n = true → eventSet'.getLsbD n = true) :
    Satisfied eventSet' set option := by
  unfold Satisfied at h ⊢
  split
  · rename_i hand
    rw [if_pos hand] at h
    exact fun n hn => hsub n (h n hn)
  · rename_i hand
    rw [if_neg hand] at h
    obtain ⟨hor, n, hset, hevent⟩ := h
    exact ⟨hor, n, hset, hsub n hevent⟩

theorem Satisfied.of_clear {x : BitVec 32} (h : Satisfied (eventSet &&& ~~~x) set option) :
    Satisfied eventSet set option := by
  refine h.mono fun n hn => ?_
  rw [BitVec.getLsbD_and, Bool.and_eq_true] at hn
  exact hn.1

theorem clears_none (set : BitVec 32) : ∃ x, set = set &&& ~~~x :=
  ⟨0#32, by rw [BitVec.not_zero, BitVec.and_allOnes]⟩

theorem recvStatus_eq_eok : recvStatus eventSet set option = .eok ↔
    Satisfied eventSet set option := by
  rw [satisfied_iff, recvStatus]
  by_cases hand : option &&& rtEventFlagAnd ≠ 0
  · rw [if_pos hand, if_pos hand]
    simp
  · rw [if_neg hand, if_neg hand]
    by_cases hor : option &&& rtEventFlagOr ≠ 0
    · rw [if_pos hor, and_iff_right hor]
      simp
    · rw [if_neg hor]
      simp [not_not.mp hor]

theorem sendStatus_of_satisfied (h : Satisfied eventSet set option) :
    sendStatus eventSet set option = (.eok, set &&& eventSet) := by
  rw [satisfied_iff, BitVec.and_comm eventSet set] at h
  unfold sendStatus
  by_cases hand : option &&& rtEventFlagAnd ≠ 0
  · rw [if_pos hand] at h
    rw [if_pos hand, if_pos h, h]
  · rw [if_neg hand] at h
    rw [if_neg hand, if_pos h.1, if_pos h.2]

theorem sendStatus_of_not_satisfied (h : ¬ Satisfied eventSet set option) :
    sendStatus eventSet set option = (.error, set) := by
  rw [satisfied_iff, BitVec.and_comm eventSet set] at h
  unfold sendStatus
  by_cases hand : option &&& rtEventFlagAnd ≠ 0
  · rw [if_pos hand] at h
    rw [if_pos hand, if_neg h]
  · rw [if_neg hand] at h
    rw [if_neg hand]
    by_cases hor : option &&& rtEventFlagOr ≠ 0
    · rw [if_pos hor, if_neg fun hne => h ⟨hor, hne⟩]
    · rw [if_neg hor]

end Flags

/-- A waiting thread with `thread->event_set` and `thread->event_info`. -/
structure Waiter (τ : Type*) where
  thread : τ
  set : BitVec 32
  info : BitVec 8
  deriving DecidableEq

/-- What a scan does: the flags it leaves, the threads it releases, with the flags they receive, and
the threads that go on waiting. -/
structure Scanned (τ : Type*) where
  set : BitVec 32
  resumed : List (Waiter τ)
  left : List (Waiter τ)
  deriving DecidableEq

section Scanned
variable {τ : Type*}

/-- The flags that are left for the next thread. -/
def Waiter.leaves (w : Waiter τ) (set : BitVec 32) : BitVec 32 :=
  if w.info &&& rtEventFlagClear ≠ 0 then set &&& ~~~(w.set &&& set) else set

def scanWaiters (set : BitVec 32) : List (Waiter τ) → Scanned τ
  | [] => ⟨set, [], []⟩
  | w :: ws =>
    if Satisfied set w.set w.info then
      let r := scanWaiters (w.leaves set) ws
      { r with resumed := { w with set := w.set &&& set } :: r.resumed }
    else
      let r := scanWaiters set ws
      { r with left := w :: r.left }

variable {set : BitVec 32} {w : Waiter τ} {ws : List (Waiter τ)}

theorem scanWaiters_cons_of_satisfied (h : Satisfied set w.set w.info) : scanWaiters set (w :: ws) =
    { scanWaiters (w.leaves set) ws with
      resumed := { w with set := w.set &&& set } :: (scanWaiters (w.leaves set) ws).resumed } := by
  rw [scanWaiters, if_pos h]

theorem scanWaiters_cons_of_not_satisfied (h : ¬ Satisfied set w.set w.info) :
    scanWaiters set (w :: ws) =
    { scanWaiters set ws with left := w :: (scanWaiters set ws).left } := by
  rw [scanWaiters, if_neg h]

theorem Waiter.leaves_cases (w : Waiter τ) (set : BitVec 32) :
    ∃ x, w.leaves set = set &&& ~~~x := by
  unfold leaves
  split
  · exact ⟨_, rfl⟩
  · exact clears_none set

theorem scanWaiters_set (set : BitVec 32) (ws : List (Waiter τ)) :
    ∃ x, (scanWaiters set ws).set = set &&& ~~~x := by
  induction ws generalizing set with
  | nil => exact clears_none set
  | cons w ws ih =>
    by_cases h : Satisfied set w.set w.info
    · rw [scanWaiters_cons_of_satisfied h]
      obtain ⟨x, hx⟩ := w.leaves_cases set
      obtain ⟨y, hy⟩ := ih (w.leaves set)
      refine ⟨x ||| y, hy.trans ?_⟩
      rw [hx, BitVec.not_or, BitVec.and_assoc]
    · rw [scanWaiters_cons_of_not_satisfied h]
      exact ih set

theorem not_satisfied_of_mem_left (hw : w ∈ (scanWaiters set ws).left) :
    ¬ Satisfied (scanWaiters set ws).set w.set w.info := by
  induction ws generalizing set with
  | nil => cases hw
  | cons v ws ih =>
    by_cases h : Satisfied set v.set v.info
    · rw [scanWaiters_cons_of_satisfied h] at hw ⊢
      exact ih hw
    · rw [scanWaiters_cons_of_not_satisfied h] at hw ⊢
      rcases mem_cons.mp hw with rfl | hw
      · obtain ⟨x, hx⟩ := scanWaiters_set set ws
        intro hsat
        exact h (Satisfied.of_clear (by rwa [← hx]))
      · exact ih hw

theorem scanWaiters_of_not_satisfied (h : ∀ w ∈ ws, ¬ Satisfied set w.set w.info) :
    scanWaiters set ws = ⟨set, [], ws⟩ := by
  induction ws with
  | nil => rfl
  | cons w ws ih =>
    rw [scanWaiters_cons_of_not_satisfied (h w mem_cons_self),
      ih fun v hv => h v (mem_cons_of_mem w hv)]

theorem scanWaiters_perm (set : BitVec 32) (ws : List (Waiter τ)) :
    ((scanWaiters set ws).resumed.map Waiter.thread ++
      (scanWaiters set ws).left.map Waiter.thread).Perm (ws.map Waiter.thread) := by
  induction ws generalizing set with
  | nil => exact .nil
  | cons w ws ih =>
    by_cases h : Satisfied set w.set w.info
    · rw [scanWaiters_cons_of_satisfied h]
      exact (ih (w.leaves set)).cons w.thread
    · rw [scanWaiters_cons_of_not_satisfied h]
      exact perm_middle.trans ((ih set).cons w.thread)

theorem scanWaiters_left_sublist (set : BitVec 32) (ws : List (Waiter τ)) :
    (scanWaiters set ws).left.Sublist ws := by
  induction ws generalizing set with
  | nil => exact List.Sublist.refl _
  | cons w ws ih =>
    by_cases h : Satisfied set w.set w.info
    · rw [scanWaiters_cons_of_satisfied h]
      exact (ih (w.leaves set)).cons w
    · rw [scanWaiters_cons_of_not_satisfied h]
      exact (ih set).cons_cons w

end Scanned

namespace EventSys
variable {τ ε : Type*}

def waiter (s : EventSys τ ε) (t : τ) : Waiter τ := ⟨t, s.eventSet t, s.eventInfo t⟩

/-- The threads of `l` were passed before, and `r` is done with the others. -/
structure Sent (i : ε) (s s' : EventSys τ ε) (l : List τ) (r : Scanned τ) : Prop where
  k : s'.k.WaitOk
  set : (s'.event i).set = r.set
  wait : s'.k.list (.wait i) = l ++ r.left.map Waiter.thread
  resumed : ∀ w ∈ r.resumed, s'.waiter w.thread = w ∧ s'.k.thread w.thread =
    { s.k.thread w.thread with stat := .ready, timerActivated := false }
  others : ∀ t ∉ r.resumed.map Waiter.thread,
    s'.waiter t = s.waiter t ∧ s'.k.thread t = s.k.thread t
  elsewhere : ∀ j, j ≠ i → s'.event j = s.event j ∧ s'.k.list (.wait j) = s.k.list (.wait j)

variable {s s' : EventSys τ ε} {c : SendLoop τ ε} {t u : τ} {i j : ε} {l ts : List τ}
  {set : BitVec 32}

attribute [local simp] waiter

theorem not_mem_rest (hk : s.k.WaitOk) (hlist : s.k.list (.wait i) = l ++ t :: ts) :
    t ∉ l ∧ t ∉ ts := by
  have hnodup := hk.nodup (.wait i)
  rw [hlist, nodup_middle] at hnodup
  have hnot := (nodup_cons.mp hnodup).1
  exact ⟨fun ht => hnot (mem_append_left _ ht), fun ht => hnot (mem_append_right _ ht)⟩

/-- A thread is released, and then the scan of the others. -/
theorem Sent.cons {s1 : EventSys τ ε} {l1 : List τ} {r : Scanned τ} {w : Waiter τ}
    (hfirst : Sent i s s1 l1 ⟨set, [w], []⟩) (hrest : Sent i s1 s' l r)
    (hw : w.thread ∉ r.resumed.map Waiter.thread) :
    Sent i s s' l { r with resumed := w :: r.resumed } where
  k := hrest.k
  set := hrest.set
  wait := hrest.wait
  resumed v hv := by
    rcases mem_cons.mp hv with rfl | hv
    · obtain ⟨hwaiter, hthread⟩ := hfirst.resumed v mem_cons_self
      obtain ⟨hwaiter', hthread'⟩ := hrest.others _ hw
      exact ⟨hwaiter'.trans hwaiter, hthread'.trans hthread⟩
    · obtain ⟨hwaiter, hthread⟩ := hrest.resumed v hv
      have hne : v.thread ∉ [w.thread] := by
        intro heq
        rw [← mem_singleton.mp heq] at hw
        exact hw (mem_map_of_mem hv)
      rw [(hfirst.others _ hne).2] at hthread
      exact ⟨hwaiter, hthread⟩
  others u hu := by
    rw [map_cons, mem_cons, not_or] at hu
    obtain ⟨hwaiter, hthread⟩ := hfirst.others u (by simpa using hu.1)
    obtain ⟨hwaiter', hthread'⟩ := hrest.others u hu.2
    exact ⟨hwaiter'.trans hwaiter, hthread'.trans hthread⟩
  elsewhere j hj := by
    obtain ⟨hevent, hlist⟩ := hfirst.elsewhere j hj
    obtain ⟨hevent', hlist'⟩ := hrest.elsewhere j hj
    exact ⟨hevent'.trans hevent, hlist'.trans hlist⟩

theorem mem_wait_of_resumed
    (hu : u ∈ (scanWaiters set (ts.map s.waiter)).resumed.map Waiter.thread) : u ∈ ts := by
  have hmem := (scanWaiters_perm set (ts.map s.waiter)).mem_iff.mp (mem_append_left _ hu)
  simpa using hmem

theorem Sent.left (hsent : Sent i s s' [] (scanWaiters set (ts.map s.waiter)))
    (hts : ts.Nodup) :
    (s'.k.list (.wait i)).map s'.waiter = (scanWaiters set (ts.map s.waiter)).left := by
  have hthreads : (ts.map s.waiter).map Waiter.thread = ts := by simp [comp_def]
  have hperm := scanWaiters_perm set (ts.map s.waiter)
  have hdisjoint := (nodup_append.mp (hperm.nodup_iff.mpr (by rwa [hthreads]))).2.2
  rw [hsent.wait, nil_append, map_map]
  refine (map_congr_left fun w hw => ?_).trans (map_id _)
  obtain ⟨u, -, rfl⟩ := mem_map.mp ((scanWaiters_left_sublist _ _).subset hw)
  refine (hsent.others u fun hu => ?_).1
  exact hdisjoint u hu u (mem_map_of_mem hw) rfl

variable [DecidableEq τ] [DecidableEq ε]

theorem deliver_of_not_satisfied
    (h : ¬ Satisfied (s.event i).set (s.eventSet t) (s.eventInfo t)) : s.deliver t i = s := by
  rw [deliver, sendStatus_of_not_satisfied h]
  simp

theorem deliver_of_satisfied (h : Satisfied (s.event i).set (s.eventSet t) (s.eventInfo t)) :
    s.deliver t i = { s.setSet i ((s.waiter t).leaves (s.event i).set) with
      k := (s.k.rtThreadResume t).2
      eventSet := update s.eventSet t (s.eventSet t &&& (s.event i).set) } := by
  rw [deliver, sendStatus_of_satisfied h]
  dsimp only
  rw [if_pos rfl]
  by_cases hclear : s.eventInfo t &&& rtEventFlagClear ≠ 0
  · have hleaves : (s.waiter t).leaves (s.event i).set =
        (s.event i).set &&& ~~~(s.eventSet t &&& (s.event i).set) := if_pos hclear
    rw [if_pos hclear, hleaves]
    simp [setSet]
  · have hleaves : (s.waiter t).leaves (s.event i).set = (s.event i).set := if_neg hclear
    rw [if_neg hclear, hleaves]
    simp [setSet]

theorem deliver_resumes (hk : s.k.WaitOk) (hlist : s.k.list (.wait i) = l ++ t :: ts)
    (hsat : Satisfied (s.event i).set (s.eventSet t) (s.eventInfo t)) :
    Sent i s (s.deliver t i) (l ++ ts) ⟨(s.waiter t).leaves (s.event i).set,
        [{ s.waiter t with set := (s.waiter t).set &&& (s.event i).set }], []⟩ := by
  have hmem : t ∈ s.k.list (.wait i) := by simp [hlist]
  have hsuspend := hk.waiting hmem
  rw [deliver_of_satisfied hsat]
  refine ⟨hk.rtThreadResume hsuspend, by simp, ?_, ?_, ?_, fun j hj => ⟨by simp [hj], ?_⟩⟩
  · change (s.k.rtThreadResume t).2.list (.wait i) = l ++ ts ++ []
    rw [Kernel.rtThreadResume_wait hsuspend, hlist, append_nil,
      erase_append_right _ (not_mem_rest hk hlist).1, erase_cons_head]
  · intro w hw
    rw [mem_singleton.mp hw]
    exact ⟨by simp, by simp [Kernel.rtThreadResume_thread hsuspend]⟩
  · intro u hu
    have hne : u ≠ t := by simpa using hu
    exact ⟨by simp [hne], by simp [Kernel.rtThreadResume_thread hsuspend, hne]⟩
  · change (s.k.rtThreadResume t).2.list (.wait j) = s.k.list (.wait j)
    rw [Kernel.rtThreadResume_wait hsuspend, erase_of_not_mem]
    exact fun ht => hj (by simpa using hk.unique ht hmem)

theorem sendRound_next (hk : c.sys.k.WaitOk) (hlist : c.sys.k.list (.wait i) = l ++ t :: ts)
    (hn : c.n = some t) : sendRound i c = ⟨c.sys.deliver t i, ts.head?⟩ := by
  rw [sendRound, hn]
  dsimp only
  rw [hlist, nextOf_append_cons (not_mem_rest hk hlist).1]

theorem deliver_list (hk : s.k.WaitOk) (hlist : s.k.list (.wait i) = l ++ t :: ts) :
    (s.deliver t i).k.WaitOk ∧ ∃ l', (s.deliver t i).k.list (.wait i) = l' ++ ts := by
  by_cases hsat : Satisfied (s.event i).set (s.eventSet t) (s.eventInfo t)
  · have hsent := deliver_resumes hk hlist hsat
    exact ⟨hsent.k, l, by simpa using hsent.wait⟩
  · rw [deliver_of_not_satisfied hsat]
    exact ⟨hk, l ++ [t], by simp [hlist]⟩

theorem sendRounds_node (hk : c.sys.k.WaitOk) (hlist : c.sys.k.list (.wait i) = l ++ ts)
    (hn : c.n = ts.head?) (m : Nat) : ((sendRound i)^[m] c).n = ts[m]? := by
  induction m generalizing c l ts with
  | zero => rw [iterate_zero, id, hn, List.head?_eq_getElem?]
  | succ m ih =>
    rw [iterate_succ_apply]
    cases ts with
    | nil =>
      have hend : sendRound i c = c := by
        rw [sendRound, hn]
        rfl
      rw [hend, ih hk hlist hn]
      rfl
    | cons t ts =>
      obtain ⟨hk', l', hlist'⟩ := deliver_list hk hlist
      rw [sendRound_next hk hlist hn, List.getElem?_cons_succ]
      exact ih hk' hlist' rfl

/-- From the thread it has come to, the loop is the scan of the rest of the list. -/
theorem sent_of_walk (hk : c.sys.k.WaitOk) (hlist : c.sys.k.list (.wait i) = l ++ ts)
    (hn : c.n = ts.head?) : Sent i c.sys ((sendRound i)^[ts.length] c).sys l
      (scanWaiters (c.sys.event i).set (ts.map c.sys.waiter)) := by
  induction ts generalizing c l with
  | nil =>
    exact ⟨hk, rfl, hlist, fun w hw => absurd hw not_mem_nil, fun u _ => ⟨rfl, rfl⟩,
      fun j _ => ⟨rfl, rfl⟩⟩
  | cons t ts ih =>
    rw [length_cons, iterate_succ_apply, sendRound_next hk hlist hn, map_cons]
    by_cases hsat : Satisfied (c.sys.event i).set (c.sys.eventSet t) (c.sys.eventInfo t)
    · have hfirst := deliver_resumes hk hlist hsat
      have hrest := ih (c := ⟨c.sys.deliver t i, ts.head?⟩) hfirst.k
        (by simpa using hfirst.wait) rfl
      -- the rest of the list waits for what it waited for
      have hsame : ts.map (c.sys.deliver t i).waiter = ts.map c.sys.waiter := by
        refine map_congr_left fun u hu => (hfirst.others u ?_).1
        simpa using ne_of_mem_of_not_mem hu (not_mem_rest hk hlist).2
      rw [hfirst.set, hsame] at hrest
      rw [scanWaiters_cons_of_satisfied hsat]
      refine hfirst.cons hrest fun hmem => (not_mem_rest hk hlist).2 ?_
      have hscanned := (scanWaiters_perm _ _).mem_iff.mp (mem_append_left _ hmem)
      simpa using hscanned
    · rw [deliver_of_not_satisfied hsat, scanWaiters_cons_of_not_satisfied hsat]
      have hrest := ih (c := ⟨c.sys, ts.head?⟩) (l := l ++ [t]) hk (by simp [hlist]) rfl
      exact { hrest with wait := by simpa using hrest.wait }

theorem sent_of_send (hk : s.k.WaitOk) {b : BitVec 32} (hb : b ≠ 0) :
    Sent i s (s.rtEventSend i b).2 []
      (scanWaiters ((s.event i).set ||| b) ((s.k.list (.wait i)).map s.waiter)) := by
  rw [rtEventSend, if_neg hb]
  have hlist : (s.setSet i ((s.event i).set ||| b)).k.list (.wait i) =
      [] ++ s.k.list (.wait i) := rfl
  have hsent := sent_of_walk
    (c := ⟨s.setSet i ((s.event i).set ||| b), (s.k.list (.wait i)).head?⟩) hk hlist rfl
  have hset : ((s.setSet i ((s.event i).set ||| b)).event i).set = (s.event i).set ||| b := by simp
  rw [hset] at hsent
  refine { hsent with elsewhere := fun j hj => ?_ }
  obtain ⟨hevent, hlist⟩ := hsent.elsewhere j hj
  exact ⟨hevent.trans (by simp [hj]), hlist⟩

end EventSys
end RtThread
