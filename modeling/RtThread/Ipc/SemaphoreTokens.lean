import RtThread.Ipc.Semaphore

/-!
# Tokens are conserved

A token is in the counter of a semaphore, or a call of `rt_sem_take` got it. A thread that waited
gets its token from `rt_sem_release` directly. Counting both, no token is lost and none is made up,
as long as the 16 bit counter does not overflow.
-/

namespace RtThread
open Function
open List

/-- The abstract state; `w.waiting` is the semaphore that a thread is taking. -/
structure SemView (τ σ : Type*) where
  w : WaitView τ σ
  sem : σ → Semaphore

namespace SemView
variable {τ σ : Type*} [DecidableEq σ]

def withValue (v : SemView τ σ) (m : σ) (value : BitVec 16) : σ → Semaphore :=
  update v.sem m { v.sem m with value := value }

structure Ok (v : SemView τ σ) : Prop where
  w : v.w.Ok
  empty : ∀ m, (v.sem m).value ≠ 0 → v.w.wait m = []

variable {v v' : SemView τ σ} {e : SemOp τ σ × Option RtErr}

theorem Ok.setValue (h : Ok v) {m : σ} {value : BitVec 16} (hm : v.w.wait m = []) :
    Ok ⟨v.w, v.withValue m value⟩ where
  w := h.w
  empty m' hm' := by
    by_cases heq : m' = m
    · subst heq
      exact hm
    · exact h.empty m' (by simpa [withValue, heq] using hm')

variable [DecidableEq τ]

inductive Step (v : SemView τ σ) : SemOp τ σ × Option RtErr → SemView τ σ → Prop
  | take {t m time} : (v.sem m).value ≠ 0 →
      Step v (.take t m time, some .eok) ⟨v.w, v.withValue m ((v.sem m).value - 1)⟩
  | trytake {t m} : (v.sem m).value ≠ 0 →
      Step v (.trytake t m, some .eok) ⟨v.w, v.withValue m ((v.sem m).value - 1)⟩
  | refuse {t m} : (v.sem m).value = 0 → Step v (.take t m 0, some .etimeout) v
  | tryRefuse {t m} : (v.sem m).value = 0 → Step v (.trytake t m, some .etimeout) v
  | block {t m time} : v.w.Idle t → (v.sem m).value = 0 →
      Step v (.take t m time, none) ⟨v.w.block t m (v.sem m).flag, v.sem⟩
  /-- a thread that waited runs again and returns -/
  | takeEnd {t m} : v.w.stat t = .ready → v.w.waiting t = some m →
      Step v (.takeEnd t m, some (v.w.error t)) ⟨v.w.leave t, v.sem⟩
  /-- the token goes to the first thread of the suspend list -/
  | handOver {m u us} : v.w.wait m = u :: us →
      Step v (.release m, some .eok) ⟨v.w.resume u m us, v.sem⟩
  | count {m} : v.w.wait m = [] →
      Step v (.release m, some .eok) ⟨v.w, v.withValue m ((v.sem m).value + 1)⟩
  | timeout {t} : v.w.stat t = .suspend → Step v (.timeout t, none) ⟨v.w.timeout t, v.sem⟩

theorem Ok.step (h : Ok v) (hstep : v.Step e v') : Ok v' := by
  cases hstep with
  | take hvalue | trytake hvalue => exact h.setValue (h.empty _ hvalue)
  | refuse | tryRefuse => exact h
  | @block t m time hidle hvalue =>
    refine ⟨h.w.block hidle.1, fun m' hm' => ?_⟩
    have hne : m' ≠ m := by
      rintro rfl
      exact hm' hvalue
    simpa [hne] using h.empty m' hm'
  | takeEnd hs => exact ⟨h.w.leave hs, h.empty⟩
  | @handOver m u us hw =>
    refine ⟨h.w.resume hw, fun m' hm' => ?_⟩
    have hne : m' ≠ m := by
      rintro rfl
      cases (h.empty m' hm').symm.trans hw
    simpa [hne] using h.empty m' hm'
  | count hw => exact h.setValue hw
  | timeout hs => exact ⟨h.w.timeout, fun m hm => by simp [h.empty m hm]⟩

/-- The thread was handed a token by `rt_sem_release`, and its call has not returned yet. -/
def Handed (v : SemView τ σ) (t : τ) (m : σ) : Prop := v.w.Woken t m

end SemView

section Counting
variable {τ σ : Type*} [DecidableEq σ]

/-- A call `rt_sem_take(m, ..)` or `rt_sem_trytake(m)` returned `r`. -/
def tookSem (r : RtErr) (m : σ) : SemOp τ σ × Option RtErr → Bool
  | (.take _ m' _, some r') | (.takeEnd _ m', some r') | (.trytake _ m', some r') => m' = m ∧ r' = r
  | _ => false

def releasedSem (m : σ) : SemOp τ σ × Option RtErr → Bool
  | (.release m', _) => m' = m
  | _ => false

/-- The number of takes that returned `RT_EOK`. -/
def semTakes (tr : List (SemOp τ σ × Option RtErr)) (m : σ) : Nat := tr.countP (tookSem .eok m)

def semReleases (tr : List (SemOp τ σ × Option RtErr)) (m : σ) : Nat := tr.countP (releasedSem m)

variable {tr : List (SemOp τ σ × Option RtErr)} {e : SemOp τ σ × Option RtErr} {m : σ}

theorem releasedSem_iff : releasedSem m e = true ↔ e.1 = .release m := by
  obtain ⟨op, r⟩ := e
  cases op <;> simp [releasedSem]

end Counting

namespace SemView
variable {τ σ : Type*} [DecidableEq σ] {v v' : SemView τ σ}
  {e : SemOp τ σ × Option RtErr} {tr : List (SemOp τ σ × Option RtErr)} {m : σ} {n : Nat}

/-- A release at the largest value would wrap. -/
def CountSafe (v : SemView τ σ) : SemOp τ σ → Prop
  | .release m => v.w.wait m = [] → (v.sem m).value ≠ 65535
  | .take _ _ _ | .takeEnd _ _ | .trytake _ _ | .timeout _ => True

/-- The tokens of a semaphore that started with `n`: those in the counter, those that takes returned
with, and those that were handed to threads which are about to return. -/
def Conserved (tr : List (SemOp τ σ × Option RtErr)) (v : SemView τ σ) (m : σ) (n : Nat) : Prop :=
  ∃ handed, v.w.WokenCount m handed ∧
    (v.sem m).value.toNat + (semTakes tr m + handed) = n + semReleases tr m

theorem Conserved.of_count {handed handed' : Nat}
    (hcount : (v.sem m).value.toNat + (semTakes tr m + handed) = n + semReleases tr m)
    (hwoken : v'.w.WokenCount m handed')
    (hchange : (v'.sem m).value.toNat + handed' + (if tookSem .eok m e then 1 else 0) =
      (v.sem m).value.toNat + handed + if releasedSem m e then 1 else 0) :
    Conserved (tr ++ [e]) v' m n := by
  refine ⟨handed', hwoken, ?_⟩
  simp only [semTakes, semReleases, countP_append, countP_singleton] at *
  omega

theorem Conserved.of_value (h : Conserved tr v m n) {m' : σ} {x : BitVec 16}
    (hother : m ≠ m' → tookSem .eok m e = false ∧ releasedSem m e = false)
    (hchange : m = m' → x.toNat + (if tookSem .eok m e then 1 else 0) =
      (v.sem m).value.toNat + if releasedSem m e then 1 else 0) :
    Conserved (tr ++ [e]) ⟨v.w, v.withValue m' x⟩ m n := by
  obtain ⟨handed, hwoken, hcount⟩ := h
  refine .of_count hcount hwoken ?_
  by_cases hm : m = m'
  · have hnew := hchange hm
    subst hm
    simp only [withValue, update_self]
    omega
  · simp [withValue, hm, hother hm]

variable [DecidableEq τ]

theorem Conserved.takeEnd (hc : Conserved tr v m n) {t : τ} {m' : σ} (hs : v.w.stat t = .ready)
    (hw : v.w.waiting t = some m') :
    Conserved (tr ++ [(.takeEnd t m', some (v.w.error t))]) ⟨v.w.leave t, v.sem⟩ m n := by
  obtain ⟨handed, hwoken, hcount⟩ := hc
  by_cases hgot : v.Handed t m
  · -- the token that was handed over is counted as taken now
    obtain rfl : m' = m := Option.some.inj (hw.symm.trans hgot.1)
    obtain ⟨n', rfl, hleft⟩ := hwoken.leave_woken hgot
    refine .of_count hcount hleft ?_
    simp only [hgot.2.2, tookSem, releasedSem, decide_true, and_self, if_true, Bool.false_eq_true,
      if_false]
    omega
  · refine .of_count hcount (hwoken.leave hgot) ?_
    have hne : ¬(m' = m ∧ v.w.error t = .eok) := by
      rintro ⟨rfl, heok⟩
      exact hgot ⟨hw, hs, heok⟩
    simp [tookSem, releasedSem, hne]

theorem Conserved.handOver (h : Ok v) (hc : Conserved tr v m n) {m' : σ} {u : τ} {us : List τ}
    (hw : v.w.wait m' = u :: us) :
    Conserved (tr ++ [(.release m', some .eok)]) ⟨v.w.resume u m' us, v.sem⟩ m n := by
  obtain ⟨handed, hwoken, hcount⟩ := hc
  by_cases hm : m' = m
  · subst hm
    refine .of_count hcount (hwoken.resume h.w hw) ?_
    simp [tookSem, releasedSem, Nat.add_assoc]
  · refine .of_count hcount (hwoken.resume_of_ne h.w hw hm) ?_
    simp [tookSem, releasedSem, hm]

theorem Conserved.step (h : Ok v) (hc : Conserved tr v m n) (hsafe : v.CountSafe e.1)
    (hstep : v.Step e v') : Conserved (tr ++ [e]) v' m n := by
  cases hstep with
  | @take t m' time hvalue | @trytake t m' hvalue =>
    refine hc.of_value (fun hm => ⟨by simpa [tookSem] using Ne.symm hm, rfl⟩) ?_
    rintro rfl
    simp only [tookSem, releasedSem, and_self, decide_true, if_true, Bool.false_eq_true, if_false]
    bv_omega
  | refuse | tryRefuse =>
    obtain ⟨handed, hwoken, hcount⟩ := hc
    exact .of_count hcount hwoken (by simp [tookSem, releasedSem])
  | block hidle =>
    obtain ⟨handed, hwoken, hcount⟩ := hc
    exact .of_count hcount (hwoken.block hidle) rfl
  | takeEnd hs hw => exact hc.takeEnd hs hw
  | handOver hw => exact hc.handOver h hw
  | @count m' hw =>
    refine hc.of_value (fun hm => ⟨rfl, by simpa [releasedSem] using Ne.symm hm⟩) ?_
    rintro rfl
    have hmax : (v.sem m).value ≠ 65535 := hsafe hw
    simp only [tookSem, releasedSem, decide_true, if_true, Bool.false_eq_true, if_false]
    bv_omega
  | timeout hs =>
    obtain ⟨handed, hwoken, hcount⟩ := hc
    exact .of_count hcount (hwoken.timeout hs) rfl

theorem Step.of_released (hstep : v.Step e v') (hm : releasedSem m e = true) :
    (v.w.wait m = [] ∧ v' = ⟨v.w, v.withValue m ((v.sem m).value + 1)⟩) ∨
      ∃ u us, v.w.wait m = u :: us ∧ v' = ⟨v.w.resume u m us, v.sem⟩ := by
  cases hstep with
  | handOver hw =>
    obtain rfl := of_decide_eq_true hm
    exact .inr ⟨_, _, hw, rfl⟩
  | count hw =>
    obtain rfl := of_decide_eq_true hm
    exact .inl ⟨hw, rfl⟩
  | take | trytake | refuse | tryRefuse | block | takeEnd | timeout => cases hm

theorem Step.of_timedOut (hstep : v.Step e v') (hm : tookSem .etimeout m e = true) :
    v'.sem = v.sem ∧ ∀ t m', v'.Handed t m' ↔ v.Handed t m' := by
  cases hstep with
  | refuse | tryRefuse => exact ⟨rfl, fun _ _ => Iff.rfl⟩
  | @takeEnd t m' hs hw =>
    have herror : v.w.error t = .etimeout := (of_decide_eq_true hm).2
    refine ⟨rfl, fun u m1 => WaitView.woken_leave ?_⟩
    simp [WaitView.Woken, herror]
  | take | trytake => simp [tookSem] at hm
  | block | handOver | count | timeout => cases hm

end SemView

namespace SemSys
variable {τ σ : Type*}

def view (s : SemSys τ σ) : SemView τ σ := ⟨s.k.view s.taking, s.sem⟩

/-- The invariant of the code: the scheduler and the suspend lists are in order, and the view is. -/
structure Ok (s : SemSys τ σ) : Prop where
  k : s.k.WaitOk
  view : s.view.Ok

variable {s s' : SemSys τ σ} {e : SemOp τ σ × Option RtErr} {t : τ} {m : σ}

theorem value_pos_iff : 0 < (s.sem m).value ↔ (s.sem m).value ≠ 0 := by
  constructor
  · intro hpos hzero
    rw [hzero] at hpos
    exact absurd hpos (by decide)
  · intro hne
    bv_omega

theorem Start.ok {value : σ → Nat} (h : Start s value) : Ok s where
  k := h.k
  view := by
    have htaking : s.taking = fun _ => none := funext h.idle
    refine ⟨?_, fun m _ => h.empty m⟩
    rw [view, htaking]
    exact Kernel.view_ok_of_empty h.empty

variable [DecidableEq σ]

theorem Start.conserved {value : σ → Nat} (h : Start s value) (m : σ) :
    SemView.Conserved [] s.view m (value m) := by
  refine ⟨0, WaitView.wokenCount_zero h.idle, ?_⟩
  obtain ⟨flag, hflag⟩ := h.sem m
  have hle := h.value_le m
  have hvalue : (s.view.sem m).value = (BitVec.ofNat 32 (value m)).setWidth 16 := by
    simp [view, hflag, rtSemInit]
  rw [hvalue]
  simp [semTakes, semReleases]
  omega

variable [DecidableEq τ]

theorem step_of_view {v : SemView τ σ} (hstep : s.view.Step e v)
    (hw : s'.k.view s'.taking = v.w) (hsem : s'.sem = v.sem) : s.view.Step e s'.view := by
  have heq : s'.view = v := by rw [view, hw, hsem]
  rwa [heq]

theorem rtSemTake_step (h : Ok s) (hidle : s.view.w.Idle t) {time : BitVec 32} {r : Option RtErr}
    (htake : s.rtSemTake t m time = (r, s')) :
    s.view.Step (.take t m time, r) s'.view ∧ s'.k.WaitOk := by
  rw [rtSemTake] at htake
  split at htake
  · rename_i hvalue
    cases htake
    exact ⟨step_of_view (.take (value_pos_iff.mp hvalue)) rfl rfl, h.k⟩
  · rename_i hvalue
    have hzero : (s.view.sem m).value = 0 := by
      by_contra hne
      exact hvalue (value_pos_iff.mpr hne)
    split at htake
    · rename_i htime
      cases htake
      subst htime
      exact ⟨.refuse hzero, h.k⟩
    · cases htake
      obtain ⟨hblock, hk⟩ := h.k.reset_ipcWait hidle.1 s.taking m _ _
      exact ⟨step_of_view (.block hidle hzero) hblock rfl, hk⟩

theorem rtSemTrytake_step {r : Option RtErr} (htake : s.rtSemTrytake t m = (r, s')) :
    s.view.Step (.trytake t m, r) s'.view ∧ s'.k = s.k := by
  rw [rtSemTrytake, rtSemTake] at htake
  split at htake
  · rename_i hvalue
    cases htake
    exact ⟨step_of_view (.trytake (value_pos_iff.mp hvalue)) rfl rfl, rfl⟩
  · rename_i hvalue
    rw [if_pos rfl] at htake
    cases htake
    refine ⟨.tryRefuse ?_, rfl⟩
    by_contra hne
    exact hvalue (value_pos_iff.mpr hne)

theorem rtSemRelease_step (h : Ok s) :
    s.view.Step (.release m, some (s.rtSemRelease m).1) (s.rtSemRelease m).2.view ∧
      (s.rtSemRelease m).2.k.WaitOk := by
  rw [rtSemRelease]
  split
  · rename_i hne
    obtain ⟨u, us, hlist⟩ := exists_cons_of_ne_nil hne
    exact ⟨step_of_view (.handOver hlist) (h.k.view_resume hlist) rfl, h.k.rtIpcListResume⟩
  · rename_i hempty
    exact ⟨step_of_view (.count (not_not.mp hempty)) rfl rfl, h.k⟩

theorem view_step (h : Ok s) (hstep : s.Step e s') : s.view.Step e s'.view ∧ s'.k.WaitOk := by
  obtain ⟨op, r⟩ := e
  obtain ⟨henabled, happly⟩ := hstep
  cases op with
  | take t m time => exact rtSemTake_step h henabled happly
  | takeEnd t m =>
    obtain ⟨hs, htaking⟩ := henabled
    cases happly
    have hreturn : s.rtSemTakeEnd t =
        ((s.k.thread t).error, { s with taking := update s.taking t none }) := by
      rw [rtSemTakeEnd]
      split
      · rfl
      · rename_i heok
        rw [not_not.mp heok]
    rw [hreturn]
    exact ⟨step_of_view (.takeEnd hs htaking) rfl rfl, h.k⟩
  | trytake t m =>
    obtain ⟨hview, hk⟩ := rtSemTrytake_step happly
    exact ⟨hview, hk ▸ h.k⟩
  | release m =>
    cases happly
    exact rtSemRelease_step h
  | timeout t =>
    cases happly
    have hs := h.k.timer t henabled
    exact ⟨step_of_view (.timeout hs) Kernel.view_timeout rfl, h.k.rtTimerCheck hs⟩

theorem Ok.step (h : Ok s) (hstep : s.Step e s') : Ok s' :=
  ⟨(view_step h hstep).2, h.view.step (view_step h hstep).1⟩

/-- In a run without a release at the value 65535, the tokens in the counter and those that were
taken or handed over add up to those at first and those that were released. A token is only in the
counter when nobody waits, a release counts or resumes the first thread that waits, and a take that
times out takes nothing. -/
theorem tokens_of_safe_run {s₀ : SemSys τ σ} {value : σ → Nat}
    {tr : List (SemOp τ σ × Option RtErr)} (hstart : Start s₀ value)
    (hrun : Run (StepIf fun s op => s.view.CountSafe op) s₀ tr s) :
    (∀ m, ∃ handed : Finset τ, (∀ t, t ∈ handed ↔ s.view.Handed t m) ∧
      (s.sem m).value.toNat + (semTakes tr m + handed.card) = value m + semReleases tr m) ∧
    (∀ m, 0 < (s.sem m).value → s.k.list (.wait m) = []) ∧
    ∀ e s', StepIf (fun s op => s.view.CountSafe op) s e s' → ∀ m, (releasedSem m e = true →
        (s.k.list (.wait m) = [] ∧ (s'.sem m).value.toNat = (s.sem m).value.toNat + 1 ∧
          s'.k.list (.wait m) = [] ∧ ∀ t, (s'.k.thread t).stat = (s.k.thread t).stat) ∨
        ∃ u us, s.k.list (.wait m) = u :: us ∧ s'.k.list (.wait m) = us ∧ s'.sem = s.sem ∧
          s'.view.Handed u m ∧ ∀ t, t ≠ u → (s'.k.thread t).stat = (s.k.thread t).stat) ∧
      (tookSem .etimeout m e = true →
        s'.sem = s.sem ∧ ∀ t m', s'.view.Handed t m' ↔ s.view.Handed t m') := by
  have hall : Ok s ∧ ∀ m, SemView.Conserved tr s.view m (value m) := by
    refine hrun.invariant
      ⟨hstart.ok, hstart.conserved⟩ ?_
    rintro tr s e s' ⟨hok, hc⟩ ⟨hstep, hsafe⟩
    have hview := (view_step hok hstep).1
    exact ⟨hok.step hstep, fun m => (hc m).step hok.view hsafe hview⟩
  obtain ⟨hok, hc⟩ := hall
  refine ⟨fun m => ?_, fun m hpos => hok.view.empty m (value_pos_iff.mp hpos), ?_⟩
  · obtain ⟨_, ⟨handed, hmem, rfl⟩, hcount⟩ := hc m
    exact ⟨handed, hmem, hcount⟩
  rintro e s' ⟨hstep, hsafe⟩ m
  have hview := (view_step hok hstep).1
  refine ⟨fun hreleased => ?_, fun htimeout => hview.of_timedOut htimeout⟩
  rcases hview.of_released hreleased with ⟨hw, hv⟩ | ⟨u, us, hw, hv⟩
  · have hvalue : (s'.sem m).value = (s.sem m).value + 1 := by
      have hsem : s'.sem = _ := congrArg SemView.sem hv
      simp [hsem, SemView.withValue, view]
    have hmax : (s.sem m).value ≠ 65535 := by
      rw [releasedSem_iff.mp hreleased] at hsafe
      exact hsafe hw
    refine .inl ⟨hw, ?_, ?_, fun t => ?_⟩
    · rw [hvalue]
      bv_omega
    · exact (congrFun (congrArg (·.w.wait) hv) m).trans hw
    · exact congrFun (congrArg (·.w.stat) hv) t
  · have hu : u ∈ s.view.w.wait m := by simp [hw]
    refine .inr ⟨u, us, hw, ?_, congrArg (·.sem) hv, ?_, fun t ht => ?_⟩
    · change s'.view.w.wait m = us
      simp [hv]
    · rw [hv]
      exact (hok.view.w.woken_resume hu).mpr rfl
    · change s'.view.w.stat t = s.view.w.stat t
      simp [hv, ht]

instance (v : SemView τ σ) (op : SemOp τ σ) : Decidable (v.CountSafe op) :=
  match op with
  | .release m => inferInstanceAs (Decidable (v.w.wait m = [] → (v.sem m).value ≠ 65535))
  | .take _ _ _ | .takeEnd _ _ | .trytake _ _ | .timeout _ => .isTrue trivial

/-- One semaphore, and two threads of which the more urgent one sleeps. -/
def twoAndSem (value : Nat) : SemSys Bool Unit where
  k := (Kernel.boot Kernel.twoPriorities [false, true]).rtThreadSleep true 10
  sem _ := rtSemInit (BitVec.ofNat 32 value) .fifo
  taking _ := none

theorem twoAndSem_start {value : Nat} (hvalue : value ≤ 65535) :
    Start (twoAndSem value) fun _ => value where
  k := @Kernel.twoPriorities_waitOk Unit _
  empty := by
    have hempty : (twoAndSem 0).k.list (.wait ()) = [] := by decide +kernel
    exact fun _ => hempty
  value_le _ := hvalue
  sem _ := ⟨.fifo, rfl⟩
  idle _ := rfl

/-- The urgent thread waits, gets the token of a release, and has not returned yet. -/
theorem tokens_of_safe_run_two :
    ∃ tr s, Run (StepIf fun s op => s.view.CountSafe op) (twoAndSem 0) tr s ∧
      semReleases tr () = 1 ∧ ∃ handed : Finset Bool, (∀ t, t ∈ handed ↔ s.view.Handed t ()) ∧
        (s.sem ()).value.toNat + (semTakes tr () + handed.card) = 0 + 1 := by
  have hrun := machine.run_exec (fun s op => s.view.CountSafe op) (twoAndSem 0)
    [.timeout true, .take true () 0xffffffff, .release ()]
  refine ⟨_, _, hrun, by decide +kernel, ?_⟩
  obtain ⟨handed, hmem, hcount⟩ := (tokens_of_safe_run (twoAndSem_start (by decide)) hrun).1 ()
  exact ⟨handed, hmem, hcount.trans (by decide +kernel)⟩

/-- A release at the value 65535 brings the counter back to 0. -/
theorem release_wraps_value :
    ∃ tr s, Start (twoAndSem 65535) (fun _ => 65535) ∧ Run Step (twoAndSem 65535) tr s ∧
      (∀ t, ¬ s.view.Handed t ()) ∧ semTakes tr () = 0 ∧ semReleases tr () = 1 ∧
      (s.sem ()).value = 0 := by
  have hrun := machine.run_steps (twoAndSem 65535) [.release ()]
  refine ⟨_, _, twoAndSem_start (by decide), hrun, ?_, ?_, ?_, ?_⟩
  · rintro t ⟨hwaiting, -⟩
    cases hwaiting
  · decide +kernel
  · decide +kernel
  · decide +kernel

end SemSys
end RtThread
