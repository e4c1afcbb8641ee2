import RtThread.Basic

/-!
# `poll`

`poll.c`. A scan asks the descriptors for their events; then the thread waits until a wait queue
wakes it up or its timer expires. A wake-up sets `triggered`, which nothing resets, and the timeout
goes through an unsigned product of 32 bits.
-/

namespace RtThread.Poll
open List

/-- The events of `dfs_poll.h:19-30`. -/
def pollin : BitVec 16 := 0x01
def pollerr : BitVec 16 := 0x04
def pollhup : BitVec 16 := 0x08
def pollnval : BitVec 16 := 0x10

/-- `struct pollfd` without `revents`. -/
structure Pollfd where
  fd : Int
  events : BitVec 16

/-- `do_pollfd` (`poll.c:120-149`), where `fd_get` finds no file or the file reports a mask. -/
def doPollfd (p : Pollfd) (report : Option (BitVec 16)) : BitVec 16 :=
  if 0 ≤ p.fd then report.elim pollnval (· &&& (p.events ||| pollerr ||| pollhup)) else 0

/-- What a round of `poll_do` meets: the reports on the descriptors, the ticks until the thread
tests `triggered`, whether it was woken up by then, and the same for the wait. -/
structure Round where
  reports : Pollfd → Option (BitVec 16)
  scanTicks : Nat
  wokenInScan : Bool
  waitTicks : Nat
  wokenInWait : Bool

def Round.scan (r : Round) (fds : List Pollfd) : List (BitVec 16) :=
  fds.map fun p => doPollfd p (r.reports p)

/-- How many of the masks are not zero. -/
def num (revents : List (BitVec 16)) : Nat := revents.countP (· ≠ 0)

/-- `rt_tick_from_millisecond` (`clock.c:114-118`), for 1000 ticks in a second. -/
def rtTickFromMillisecond (ms : BitVec 32) : BitVec 32 := (1000 * ms + 999) / 1000

/-- `poll_wait_timeout` (`:83-118`): its result, `triggered`, and the ticks that pass. There is
none if the thread waits for ever. -/
def pollWaitTimeout (msec : BitVec 32) (triggered : Bool) (r : Round) :
    Option (Bool × Bool × Nat) :=
  let timeout := rtTickFromMillisecond msec
  if timeout ≠ 0#32 ∧ triggered = false then
    if r.wokenInWait then some (false, true, r.waitTicks)
    else if (0#32).slt timeout then some (true, false, timeout.toNat + r.waitTicks) else none
  else some (!triggered, triggered, 0)

/-- The loop of `poll_do` (`:164-186`): the masks of the last scan and the ticks that have
passed, if it ends in these rounds. -/
def pollDo (fds : List Pollfd) (msec : BitVec 32) :
    List Round → (triggered istimeout : Bool) → (time : Nat) → Option (List (BitVec 16) × Nat)
  | [], _, _, _ => none
  | r :: rounds, triggered, istimeout, time =>
    if num (r.scan fds) ≠ 0 ∨ istimeout = true then some (r.scan fds, time + r.scanTicks)
    else match pollWaitTimeout msec (triggered || r.wokenInScan) r with
      | none => none
      | some (istimeout, triggered, ticks) =>
        pollDo fds msec rounds triggered istimeout (time + r.scanTicks + ticks)

/-- `poll` (`:205-217`): the number of descriptors with events, the masks, and the ticks. -/
def poll (fds : List Pollfd) (msec : BitVec 32) (rounds : List Round) :
    Option (Nat × List (BitVec 16) × Nat) :=
  (pollDo fds msec rounds false (msec = 0#32) 0).map fun (revents, time) =>
    (num revents, revents, time)

variable {fds : List Pollfd} {msec : BitVec 32} {rounds : List Round} {revents : List (BitVec 16)}
  {triggered istimeout : Bool} {time t n : Nat}

theorem poll_eq_some (h : poll fds msec rounds = some (n, revents, t)) :
    pollDo fds msec rounds false (msec = 0#32) 0 = some (revents, t) ∧ n = num revents := by
  obtain ⟨⟨_, _⟩, hdo, heq⟩ := Option.map_eq_some_iff.mp h
  cases heq
  exact ⟨hdo, rfl⟩

theorem toNat_rtTickFromMillisecond (msec : BitVec 32) :
    (rtTickFromMillisecond msec).toNat = (1000 * msec.toNat + 999) % 2 ^ 32 / 1000 := by
  simp [rtTickFromMillisecond, BitVec.toNat_udiv]

theorem rtTickFromMillisecond_pos (h : rtTickFromMillisecond msec ≠ 0#32) :
    (0#32).slt (rtTickFromMillisecond msec) := by
  have heq := toNat_rtTickFromMillisecond msec
  have hne : (rtTickFromMillisecond msec).toNat ≠ 0 := fun h0 => h (BitVec.eq_of_toNat_eq h0)
  rw [BitVec.slt_eq_decide, BitVec.toInt_eq_toNat_of_lt (x := rtTickFromMillisecond msec)
    (by omega)]
  simp
  omega

theorem timeout_le_of_pollDo
    (htime : istimeout = true → (rtTickFromMillisecond msec).toNat ≤ time)
    (h : pollDo fds msec rounds triggered istimeout time = some (revents, t))
    (hzero : num revents = 0) : (rtTickFromMillisecond msec).toNat ≤ t := by
  induction rounds generalizing triggered istimeout time with
  | nil => cases h
  | cons r rounds ih =>
    rw [pollDo] at h
    split at h
    · rename_i hend
      cases h
      have := htime (hend.resolve_left (not_not.mpr hzero))
      omega
    · split at h
      · cases h
      · rename_i hwait
        refine ih (fun hout => ?_) h
        unfold pollWaitTimeout at hwait
        grind

/-- A round without wake-ups in which every descriptor reports no event. -/
def quiet : Round := ⟨fun _ => some 0, 0, false, 0, false⟩

attribute [local simp] pollWaitTimeout

theorem poll_quiet (msec : BitVec 32) :
    poll [] msec [quiet, quiet] = some (0, [], (rtTickFromMillisecond msec).toNat) := by
  by_cases hzero : msec = 0#32
  · subst hzero
    rfl
  · by_cases hticks : rtTickFromMillisecond msec = 0#32
    · simp [poll, pollDo, Round.scan, num, quiet, hticks]
    · simp [poll, pollDo, Round.scan, num, quiet, hzero, hticks, rtTickFromMillisecond_pos hticks]

/-- `poll` returns 0 only after its timeout, and never for a negative one, exactly if the timeout is
at most 4294966: in other cases the product of `rt_tick_from_millisecond` wraps around. -/
theorem poll_zero_iff (msec : BitVec 32) :
    (∀ fds rounds revents t, poll fds msec rounds = some (0, revents, t) →
      0 ≤ msec.toInt ∧ msec.toInt ≤ t) ↔ msec.toNat ≤ 4294966 := by
  have hticks := toNat_rtTickFromMillisecond msec
  constructor
  · intro h
    have hquiet := h [] _ _ _ (poll_quiet msec)
    by_contra hlt
    have hwraps : 1 ≤ (1000 * msec.toNat + 999) / 2 ^ 32 := by omega
    rw [BitVec.toInt_eq_toNat_cond] at hquiet
    split at hquiet
    all_goals omega
  · intro hle fds rounds revents t h
    obtain ⟨hdo, hnum⟩ := poll_eq_some h
    have hstart : decide (msec = 0#32) = true → (rtTickFromMillisecond msec).toNat ≤ 0 := by
      intro h0
      rw [of_decide_eq_true h0]
      decide
    have htime := timeout_le_of_pollDo hstart hdo hnum.symm
    rw [hticks, Nat.mod_eq_of_lt (by omega)] at htime
    rw [BitVec.toInt_eq_toNat_of_lt (by omega)]
    omega

/-- A timeout of -1 ends, and one of 4294967 milliseconds ends at once. -/
theorem poll_early : poll [] (-1) [quiet, quiet] = some (0, [], 4294967) ∧
    poll [] 4294967 [quiet, quiet] = some (0, [], 0) :=
  ⟨poll_quiet _, poll_quiet _⟩

/-- Once it was triggered without an event, the loop goes round for ever. -/
theorem pollDo_triggered (hscan : ∀ r ∈ rounds, num (r.scan fds) = 0) :
    pollDo fds msec rounds true false time = none := by
  induction rounds generalizing time with
  | nil => rfl
  | cons r rounds ih =>
    obtain ⟨hfirst, hrest⟩ := forall_mem_cons.mp hscan
    simp [pollDo, hfirst, ih hrest]

/-- If no scan finds an event, `poll` returns 0, and by its second scan, exactly if it has no
timeout or no wake-up comes before it. -/
theorem poll_returns_iff {r r' : Round} (hmsec : 1000 * msec.toNat < 2 ^ 31)
    (hscan : ∀ q ∈ r :: r' :: rounds, num (q.scan fds) = 0) :
    (∃ revents t, poll fds msec (r :: r' :: rounds) = some (0, revents, t)) ↔
      msec = 0#32 ∨ r.wokenInScan = false ∧ r.wokenInWait = false := by
  obtain ⟨hr, hrest⟩ := forall_mem_cons.mp hscan
  have hr' := hrest r' mem_cons_self
  by_cases hzero : msec = 0#32
  · simp [poll, pollDo, hr, hzero]
  · have hticks : rtTickFromMillisecond msec ≠ 0#32 := by
      intro h
      have heq := toNat_rtTickFromMillisecond msec
      rw [h, Nat.mod_eq_of_lt (by omega), BitVec.toNat_zero] at heq
      exact hzero (BitVec.eq_of_toNat_eq (by rw [BitVec.toNat_zero]; omega))
    cases hs : r.wokenInScan <;> cases hw : r.wokenInWait
    · simp [poll, pollDo, hr, hr', hzero, hticks, hs, hw, rtTickFromMillisecond_pos hticks]
    all_goals
      rw [poll, pollDo]
      simp [hr, hzero, hticks, hs, hw, pollDo_triggered hrest]

theorem poll_returns_iff_quiet :
    ∃ revents t, poll [⟨3, pollin⟩] 5 [quiet, quiet] = some (0, revents, t) :=
  (poll_returns_iff (by decide) (by decide)).mpr (.inr ⟨rfl, rfl⟩)

/-- The thread is woken up in the first scan, and the event is gone in all of them. -/
theorem poll_spins : ¬ ∃ n result,
    poll [] 1 (replicate n { quiet with wokenInScan := true }) = some result := by
  rintro ⟨_ | n, result, h⟩
  · cases h
  · have hspins :
      pollDo [] 1 (replicate n { quiet with wokenInScan := true }) true false 0 = none :=
      pollDo_triggered fun _ _ => rfl
    cases (congrArg _ hspins).symm.trans h

end RtThread.Poll
