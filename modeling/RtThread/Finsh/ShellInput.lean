import RtThread.Drivers.SerialRx
import RtThread.Finsh.LineEditor
import Mathlib.Data.List.Chain

/-!
# The input of the shell

How `finsh_thread_entry` waits for characters and reads them, and the interrupts of the serial
device that store them. An interrupt runs to its end before the thread goes on.
-/

namespace RtThread
open Char
open List
open RxFifo (Unread unread_cleared)

inductive InputPc
  /-- in front of `rt_sem_take` -/
  | taking
  /-- suspended on `rx_sem` -/
  | suspended
  /-- in front of the `rt_device_read` of the loop -/
  | reading
  /-- in front of the `rt_device_read` behind a CR -/
  | behindCr
  deriving DecidableEq

/-- The FIFO of the device, the value of `rx_sem`, and the shell. -/
structure ShellInput where
  fifo : RxFifo
  rxSem : BitVec 16
  pc : InputPc
  shell : Shell

inductive InputOp
  /-- an RX_IND interrupt (`serial.c:677-719`) with these bytes -/
  | isr (bytes : List Byte)
  /-- the thread runs up to where it next needs the semaphore or the device -/
  | run

/-- What has happened, with the lines that were run. -/
abbrev InputTrace := List (InputOp × Option (List Byte))

/-- The line ends at this character, or at the one that is taken for it behind a CR. -/
def endsLine (ch : Byte) (next : Option Byte) : Bool :=
  ch = '\n'.byte || ch = '\r'.byte && next.all fun c => c = 0 || c = '\r'.byte || c = '\n'.byte

namespace ShellInput
variable (bufsz : BitVec 16) (complete : List Byte → List Byte) (s : ShellInput)

/-- `finsh_rx_ind` (`shell.c:85-93`), with the `rt_sem_release` of a semaphore on which only the
shell waits. -/
def finshRxInd : ShellInput :=
  if s.pc = .suspended then { s with pc := .reading } else { s with rxSem := s.rxSem + 1 }

/-- A character is handled (`:424-651`), and the loop goes on or ends. -/
def handle (ch : Byte) (next : Option Byte) : Option (List Byte) × ShellInput :=
  let (line, shell) := s.shell.readChar complete ch next
  (line, { s with shell, pc := if endsLine ch next then .taking else .reading })

/-- The thread runs (`:420-424` and `519-530`). -/
def runThread : Option (List Byte) × ShellInput :=
  let (ch, fifo) := s.fifo.take bufsz
  match s.pc with
  | .taking =>
    if s.rxSem = 0 then (none, { s with pc := .suspended })
    else (none, { s with rxSem := s.rxSem - 1, pc := .reading })
  | .suspended => (none, s)
  | .reading =>
    match ch with
    | none => (none, { s with pc := .taking })
    | some ch =>
      if ch = '\r'.byte then (none, { s with fifo, pc := .behindCr })
      else { s with fifo }.handle complete ch none
  | .behindCr => { s with fifo }.handle complete '\r'.byte ch

def machine : Machine ShellInput InputOp (Option (List Byte)) where
  Enabled s
    | .isr bytes => bytes ≠ []
    | .run => s.pc ≠ .suspended
  apply s
    | .isr bytes => (none, { s with fifo := bytes.foldl (RxFifo.receive bufsz) s.fifo }.finshRxInd)
    | .run => s.runThread bufsz complete

/-- The shell has started, and nothing has come in. -/
structure Start : Prop where
  fifo : s.fifo = RxFifo.cleared
  rxSem : s.rxSem = 0
  pc : s.pc = .taking

variable {bufsz complete s} {items : List Byte} {s₀ : ShellInput} {tr : InputTrace}

/-- An interrupt stores one byte, and the value of the semaphore does not overflow. -/
def Single (s : ShellInput) : InputOp → Prop
  | .isr bytes => bytes.length = 1 ∧ s.rxSem ≠ 0xffff
  | .run => True

/-- How many bytes can be unread, from the tokens that are left. -/
def room (s : ShellInput) : Nat :=
  match s.pc with
  | .taking | .behindCr => s.rxSem.toNat
  | .suspended => 0
  | .reading => s.rxSem.toNat + 1

def Covered (bufsz : BitVec 16) (s : ShellInput) : Prop :=
  ∃ items, Unread bufsz s.fifo items ∧ items.length ≤ s.room

theorem Covered.isr (h : Covered bufsz s) {c : Byte} (hsem : s.rxSem ≠ 0xffff) :
    Covered bufsz (finshRxInd { s with fifo := s.fifo.receive bufsz c }) := by
  obtain ⟨items, hunread, hroom⟩ := h
  have hmore : ((items ++ [c]).rtake (bufsz.toNat - 1)).length ≤ items.length + 1 := by
    rw [rtake, length_drop, length_append]
    exact Nat.sub_le _ _
  have hnext : (s.rxSem + 1).toNat = s.rxSem.toNat + 1 := by bv_omega
  refine ⟨_, by rw [finshRxInd]; split <;> exact hunread.receive [c], hmore.trans ?_⟩
  rw [room] at hroom ⊢
  rw [finshRxInd]
  cases hpc : s.pc <;> simp only [hpc, reduceCtorEq, if_true, if_false, hnext] at hroom ⊢ <;> omega

theorem Covered.handle (hunread : Unread bufsz s.fifo items)
    (hroom : items.length ≤ s.rxSem.toNat) (ch : Byte) (next : Option Byte) :
    Covered bufsz (s.handle complete ch next).2 := by
  refine ⟨items, hunread, ?_⟩
  cases hend : endsLine ch next <;> simp only [room, ShellInput.handle, hend]
  · exact Nat.le_succ_of_le hroom
  · exact hroom

theorem Covered.runThread (h : Covered bufsz s) : Covered bufsz (s.runThread bufsz complete).2 := by
  obtain ⟨items, hunread, hroom⟩ := h
  obtain ⟨hhead, htail⟩ := hunread.take
  have hless : items.tail.length = items.length - 1 := length_tail
  rw [room] at hroom
  rw [ShellInput.runThread]
  cases hpc : s.pc <;> simp only [hpc] at hroom ⊢
  case taking =>
    split
    · rename_i hzero
      exact ⟨items, hunread, by simpa [hzero, room] using hroom⟩
    · refine ⟨items, hunread, hroom.trans ?_⟩
      simp only [room]
      bv_omega
  case suspended => exact ⟨items, hunread, by simpa only [room, hpc]⟩
  case reading =>
    split
    · rename_i hnone
      rw [hhead, head?_eq_none_iff] at hnone
      exact ⟨items, hunread, by simp [hnone]⟩
    · split
      · exact ⟨items.tail, htail, by simp only [room]; omega⟩
      · exact .handle htail (by simp only; omega) _ _
  case behindCr => exact .handle htail (by simp only; omega) _ _

theorem covered_of_run (hsize : 0 < bufsz.toNat) (hstart : s₀.Start)
    (hrun : Run ((machine bufsz complete).StepIf Single) s₀ tr s) : Covered bufsz s := by
  refine hrun.state_invariant ⟨[], hstart.fifo ▸ unread_cleared hsize, Nat.zero_le _⟩ ?_
  rintro s ⟨op, line⟩ s' h ⟨⟨-, happly⟩, hsingle⟩
  obtain rfl : s' = _ := (congrArg Prod.snd happly).symm
  cases op with
  | run => exact h.runThread
  | isr bytes =>
    obtain ⟨c, rfl⟩ := length_eq_one_iff.mp hsingle.1
    exact h.isr hsingle.2

/-- If each interrupt stores one byte, and the tokens can be counted, then there is no unread byte
while the shell is suspended. -/
theorem nothing_stranded_of_single (hsize : 0 < bufsz.toNat) (hstart : s₀.Start)
    (hrun : Run ((machine bufsz complete).StepIf Single) s₀ tr s) (hpc : s.pc = .suspended) :
    (s.fifo.take bufsz).1 = none := by
  obtain ⟨items, hunread, hroom⟩ := covered_of_run hsize hstart hrun
  rw [room, hpc, Nat.le_zero, length_eq_zero_iff] at hroom
  rw [hunread.take.1, hroom, head?_nil]

instance (s : ShellInput) (op : InputOp) : Decidable ((machine bufsz complete).Enabled s op) :=
  match op with
  | .isr _ | .run => instDecidableNot

instance (s : ShellInput) (op : InputOp) : Decidable (s.Single op) :=
  match op with
  | .isr _ => instDecidableAnd
  | .run => .isTrue trivial

def start : ShellInput := ⟨RxFifo.cleared, 0, .taking, .start⟩

theorem nothing_stranded_of_single_a :
    ∃ tr s, Run ((machine 64 id).StepIf Single) start tr s ∧ s.pc = .suspended ∧
      (s.fifo.take 64).1 = none := by
  have hrun := (machine 64 id).run_exec Single start [.run, .isr ['a'.byte], .run, .run, .run]
  have hpc : (Run.exec ((machine 64 id).next Single) start
    [.run, .isr ['a'.byte], .run, .run, .run]).2.pc = .suspended := by decide +kernel
  exact ⟨_, _, hrun, hpc, nothing_stranded_of_single (by decide) ⟨rfl, rfl, rfl⟩ hrun hpc⟩

/-- An interrupt with the end of a line and another byte leaves that one unread. -/
theorem byte_behind_newline_stranded :
    ∃ tr s, Run (machine 64 id).Step start tr s ∧ s.pc = .suspended ∧
      (s.fifo.take 64).1 = some 'a'.byte := by
  have hrun := (machine 64 id).run_steps start [.run, .isr ['\n'.byte, 'a'.byte], .run, .run]
  exact ⟨_, _, hrun, by decide +kernel, by decide +kernel⟩

/-- The lines that are run, and the shell, if each byte is handled before the next one comes. -/
def feed (complete : List Byte → List Byte) (shell : Shell) (bytes : List Byte) :
    List (List Byte) × Shell :=
  bytes.foldl (fun x ch =>
    let (line, shell) := x.2.readChar complete ch none
    (x.1 ++ line.toList, shell)) ([], shell)

/-- The bytes that the interrupts of a run have stored. -/
def stored (tr : InputTrace) : List Byte :=
  tr.flatMap fun e => match e.1 with | .isr bytes => bytes | .run => []

def linesRun (tr : InputTrace) : List (List Byte) := tr.filterMap (·.2)

/-- Every CR has a LF behind it. -/
def CrLf (bytes : List Byte) : Prop := bytes.IsChain fun c next => c = '\r'.byte → next = '\n'.byte

def NoOverflow (bufsz : BitVec 16) (s : ShellInput) : InputOp → Prop
  | .isr bytes => (s.fifo.rxLength bufsz).toNat + bytes.length < bufsz.toNat
  | .run => True

/-- What was read has had the effect of bytes that come one by one. -/
def InStep (bufsz : BitVec 16) (complete : List Byte → List Byte) (shell : Shell)
    (tr : InputTrace) (s : ShellInput) : Prop :=
  ∃ done items, Unread bufsz s.fifo items ∧ feed complete shell done = (linesRun tr, s.shell) ∧
    stored tr = done ++ (if s.pc = .behindCr then '\r'.byte :: items else items)

theorem feed_append_singleton (shell : Shell) (bytes : List Byte) (ch : Byte) :
    feed complete shell (bytes ++ [ch]) =
      ((feed complete shell bytes).1 ++
        ((feed complete shell bytes).2.readChar complete ch none).1.toList,
        ((feed complete shell bytes).2.readChar complete ch none).2) := by
  rw [feed, foldl_append]
  rfl

theorem readChar_cr_lf (shell : Shell) :
    shell.readChar complete '\r'.byte (some '\n'.byte) = shell.readChar complete '\r'.byte none ∧
    (shell.readChar complete '\r'.byte none).2.readChar complete '\n'.byte none =
      (none, (shell.readChar complete '\r'.byte none).2) := by
  have hcr : ∀ next ∈ [none, some '\n'.byte], shell.readChar complete '\r'.byte next =
      { shell with stat := .waitNormal }.endOfLine := by
    obtain ⟨stat, _, _, _, _, _, _⟩ := shell
    cases stat <;> simp <;> exact ⟨rfl, rfl⟩
  rw [hcr none (by simp), hcr (some _) (by simp)]
  refine ⟨rfl, ?_⟩
  rw [Shell.endOfLine, Shell.pushHistory]
  split
  · split <;> rfl
  · rfl

section
variable {shell : Shell} {done : List Byte}

theorem stored_snoc_run (line : Option (List Byte)) :
    stored (tr ++ [(.run, line)]) = stored tr := by
  simp [stored]

theorem InStep.silent {op : InputOp} (hunread : Unread bufsz s.fifo items)
    (hfeed : feed complete shell done = (linesRun tr, s.shell))
    (hstored : stored (tr ++ [(op, none)]) =
      done ++ (if s.pc = .behindCr then '\r'.byte :: items else items)) :
    InStep bufsz complete shell (tr ++ [(op, none)]) s :=
  ⟨done, items, hunread, by simpa [linesRun] using hfeed, hstored⟩

theorem InStep.isr (h : InStep bufsz complete shell tr s) {bytes : List Byte}
    (hroom : NoOverflow bufsz s (.isr bytes)) :
    InStep bufsz complete shell (tr ++ [(.isr bytes, none)])
      (finshRxInd { s with fifo := bytes.foldl (RxFifo.receive bufsz) s.fifo }) := by
  obtain ⟨done, items, hunread, hfeed, hstored⟩ := h
  have hall := hunread.receive bytes
  rw [NoOverflow, hunread.rxLength] at hroom
  rw [rtake_of_length_le (by rw [length_append]; omega)] at hall
  have hbytes : stored (tr ++ [(.isr bytes, none)]) = stored tr ++ bytes := by simp [stored]
  rw [finshRxInd]
  split
  · rename_i hpc
    simp only at hpc
    exact .silent hall hfeed (by simp [hbytes, hstored, hpc])
  · refine .silent hall hfeed ?_
    rw [hbytes, hstored]
    split <;> simp [*]

/-- The characters `w` are handled as `ch`, with `next` behind it. -/
theorem InStep.handle {w : List Byte} {ch : Byte} {next : Option Byte}
    (hunread : Unread bufsz s.fifo items)
    (hfeed : feed complete shell (done ++ w) =
      (linesRun tr ++ (s.shell.readChar complete ch next).1.toList,
        (s.shell.readChar complete ch next).2))
    (hstored : stored tr = done ++ w ++ items) :
    InStep bufsz complete shell (tr ++ [(.run, (s.handle complete ch next).1)])
      (s.handle complete ch next).2 := by
  refine ⟨done ++ w, items, hunread, ?_, ?_⟩
  · rw [hfeed, linesRun, linesRun, List.filterMap_snoc]
    rfl
  · have hpc : (s.handle complete ch next).2.pc ≠ .behindCr := by
      simp only [ShellInput.handle]
      split <;> simp
    rw [if_neg hpc, stored_snoc_run, hstored]

theorem InStep.runThread (h : InStep bufsz complete shell tr s) (hcrlf : CrLf (stored tr))
    (hpc : s.pc ≠ .suspended) :
    InStep bufsz complete shell (tr ++ [(.run, (s.runThread bufsz complete).1)])
      (s.runThread bufsz complete).2 := by
  obtain ⟨done, items, hunread, hfeed, hstored⟩ := h
  obtain ⟨hhead, htail⟩ := hunread.take
  have hone : ∀ ch, feed complete shell (done ++ [ch]) = _ := fun ch => by
    rw [feed_append_singleton, hfeed]
  rw [ShellInput.runThread]
  cases hcase : s.pc <;>
    simp only [hcase, hhead, reduceCtorEq, if_false, if_true] at hstored ⊢
  case suspended => exact absurd hcase hpc
  case taking =>
    split <;> exact .silent hunread hfeed (by simp [stored_snoc_run, hstored])
  case reading =>
    cases items with
    | nil => exact .silent hunread hfeed (by simp [stored_snoc_run, hstored])
    | cons ch items =>
      simp only [head?_cons]
      split
      · rename_i hcr
        exact .silent htail hfeed (by simp [stored_snoc_run, hstored, hcr])
      · exact .handle htail (hone ch) (by simp [hstored])
  case behindCr =>
    cases items with
    | nil => exact .handle htail (hone _) (by simp [hstored])
    | cons c items =>
      rw [CrLf, hstored] at hcrlf
      obtain rfl : c = '\n'.byte := (isChain_cons_cons.mp hcrlf.right_of_append).1 rfl
      -- the LF is taken with the CR, and would have done nothing
      refine .handle (w := ['\r'.byte] ++ ['\n'.byte]) htail ?_
        (show stored tr = done ++ _ ++ items by simp [hstored])
      rw [← append_assoc, feed_append_singleton, hone, (readChar_cr_lf _).2]
      simp [(readChar_cr_lf _).1]

theorem inStep_of_run (hsize : 0 < bufsz.toNat) (hstart : s₀.Start)
    (hrun : Run ((machine bufsz complete).StepIf (NoOverflow bufsz)) s₀ tr s)
    (hcrlf : CrLf (stored tr)) : InStep bufsz complete s₀.shell tr s := by
  revert hcrlf
  refine hrun.invariant
    (fun _ => ⟨[], [], hstart.fifo ▸ unread_cleared hsize, rfl, by simp [stored, hstart.pc]⟩) ?_
  rintro tr s ⟨op, line⟩ s' h ⟨⟨henabled, happly⟩, hroom⟩ hcrlf
  have hbefore : CrLf (stored tr) := by
    rw [CrLf, stored, flatMap_append] at hcrlf
    exact hcrlf.left_of_append
  cases op with
  | run =>
    obtain ⟨rfl, rfl⟩ := Prod.mk.inj happly
    exact (h hbefore).runThread hbefore henabled
  | isr bytes =>
    cases happly
    exact (h hbefore).isr hroom

end

/-- If every CR of a stream has a LF behind it, then the lines that are run when all of it was read
do not depend on when its bytes came. -/
theorem lines_of_stream (hsize : 0 < bufsz.toNat) {s₁ s₂ : ShellInput} (hstart : s₀.Start)
    {tr₁ tr₂ : InputTrace}
    (hrun₁ : Run ((machine bufsz complete).StepIf (NoOverflow bufsz)) s₀ tr₁ s₁)
    (hrun₂ : Run ((machine bufsz complete).StepIf (NoOverflow bufsz)) s₀ tr₂ s₂)
    (hread₁ : (s₁.fifo.take bufsz).1 = none ∧ s₁.pc ≠ .behindCr)
    (hread₂ : (s₂.fifo.take bufsz).1 = none ∧ s₂.pc ≠ .behindCr)
    (hstored : stored tr₁ = stored tr₂) (hcrlf : CrLf (stored tr₁)) :
    linesRun tr₁ = linesRun tr₂ := by
  have hall : ∀ {tr s}, InStep bufsz complete s₀.shell tr s →
      (s.fifo.take bufsz).1 = none ∧ s.pc ≠ .behindCr →
        linesRun tr = (feed complete s₀.shell (stored tr)).1 := by
    rintro tr s ⟨done, items, hunread, hfeed, hstored⟩ ⟨hnone, hpc⟩
    rw [hunread.take.1, head?_eq_none_iff] at hnone
    rw [hstored, if_neg hpc, hnone, append_nil, hfeed]
  rw [hall (inStep_of_run hsize hstart hrun₁ hcrlf) hread₁, hstored,
    hall (inStep_of_run hsize hstart hrun₂ (hstored ▸ hcrlf)) hread₂]

instance (s : ShellInput) (op : InputOp) : Decidable (s.NoOverflow bufsz op) :=
  match op with
  | .isr _ => Nat.decLt _ _
  | .run => .isTrue trivial

/-- The bytes come in these groups, each when the shell has read those before. -/
def inGroups (groups : List (List Byte)) : InputTrace × ShellInput :=
  Run.exec ((machine 64 id).next (NoOverflow 64)) start
    (groups.flatMap fun bytes => .isr bytes :: replicate (2 * bytes.length + 2) .run)

theorem run_inGroups (groups : List (List Byte)) :
    Run ((machine 64 id).StepIf (NoOverflow 64)) start (inGroups groups).1 (inGroups groups).2 :=
  (machine 64 id).run_exec _ _ _

theorem lines_of_stream_crlf : linesRun (inGroups [['a'.byte], ['\r'.byte], ['\n'.byte]]).1 =
      linesRun (inGroups [['a', '\r', '\n'].map byte]).1 := by
  refine lines_of_stream (by decide) ⟨rfl, rfl, rfl⟩ (run_inGroups _) (run_inGroups _) ?_ ?_ ?_ ?_
  all_goals try unfold CrLf
  all_goals decide +kernel

/-- A CR is not seen if the byte behind it is there. -/
theorem lines_depend_on_timing : stored (inGroups [['a', '\r'].map byte, ['b', '\n'].map byte]).1 =
      stored (inGroups [['a', '\r', 'b', '\n'].map byte]).1 ∧
    (linesRun (inGroups [['a', '\r'].map byte, ['b', '\n'].map byte]).1).length = 2 ∧
    (linesRun (inGroups [['a', '\r', 'b', '\n'].map byte]).1).length = 1 := by
  decide +kernel

end ShellInput
end RtThread
