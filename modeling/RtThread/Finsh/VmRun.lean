import RtThread.Finsh.Compiler

/-!
# The machine on compiled code

The text segment of a line holds the bytes of its instructions and then of no-operations. There are
no jumps, so `finsh_vm_run` executes them one after the other.
-/

namespace RtThread.Finsh
open List

namespace Instr

def size (i : Instr) : Nat := i.encode.length

/-- An instruction, and the program counter behind it. -/
def step (call : CallFn) (vm : Vm) (i : Instr) : Vm := { i.exec call vm with pc := vm.pc + i.size }

end Instr

variable (i : Instr) (code code' : List Instr)

def codeSize : Nat := (code.flatMap Instr.encode).length

@[simp]
theorem codeSize_nil : codeSize [] = 0 := rfl

@[simp]
theorem codeSize_cons : codeSize (i :: code) = i.size + codeSize code := by
  simp [codeSize, Instr.size]

@[simp]
theorem codeSize_append : codeSize (code ++ code') = codeSize code + codeSize code' := by
  simp [codeSize]

theorem Instr.size_pos : 0 < i.size := Nat.succ_pos _

theorem readLE_bytesLE (n v : Nat) (front back : List Byte) :
    ByteMem.readLE ((front ++ bytesLE n v ++ back).getD · 0) n front.length = v % 256 ^ n := by
  induction n generalizing front v with
  | zero => simp [ByteMem.readLE, Nat.mod_one]
  | succ n ih =>
    have htail := ih (v / 256) (front ++ [BitVec.ofNat 8 v])
    have hmem : front ++ [BitVec.ofNat 8 v] ++ bytesLE n (v / 256) ++ back
        = front ++ bytesLE (n + 1) v ++ back := by
      simp [bytesLE]
    have hhead : (front ++ bytesLE (n + 1) v ++ back).getD front.length 0 = BitVec.ofNat 8 v := by
      simp [bytesLE, List.getD]
    have hbyte : (BitVec.ofNat 8 v).toNat = v % 256 := BitVec.toNat_ofNat v 8
    rw [hmem, length_append, length_singleton] at htail
    rw [ByteMem.readLE, htail, hhead, hbyte, Nat.pow_succ' (m := 256), Nat.mod_mul]

theorem length_bytesLE (n v : Nat) : (bytesLE n v).length = n := by
  induction n generalizing v with
  | zero => rfl
  | succ n ih => simp [bytesLE, ih]

theorem fetch_bytesLE (n v : Nat) (op : Byte) (front back : List Byte) :
    fetch (front ++ (op :: bytesLE n v) ++ back) n (front.length + 1) =
      BitVec.ofNat 32 (v % 256 ^ n) := by
  have hread := readLE_bytesLE n v (front ++ [op]) back
  have htext :
    front ++ [op] ++ bytesLE n v ++ back = front ++ (op :: bytesLE n v) ++ back := by simp
  rw [htext, length_append, length_singleton] at hread
  rw [fetch, hread]

/-- Only the bytes that were written matter for an operand of a smaller width. -/
theorem Width.low_ofNat_mod (w : Width) (v : BitVec 32) :
    w.low (BitVec.ofNat 32 (v.toNat % 256 ^ w.bytes)) = w.low v := by
  apply BitVec.eq_of_toNat_eq
  cases w
  · simp [low, bits, bytes, BitVec.toNat_setWidth]
  · simp [low, bits, bytes, BitVec.toNat_setWidth]
  · simp [low, bits, bytes]
    omega

variable {text : List Byte} {call : CallFn} {vm : Vm} {codes : List (List Instr)}

theorem vmStep_encode (front back : List Byte) (hpc : vm.pc = front.length) :
    vmStep (front ++ i.encode ++ back) call vm = some (i.step call vm) := by
  have hop : (front ++ i.encode ++ back).getD vm.pc 0 = BitVec.ofNat 8 i.opcode := by
    rw [hpc]
    simp [Instr.encode, List.getD]
  rw [vmStep, hop]
  cases i with
  | noOp => rfl
  | bin op w => cases op <;> cases w <;> rfl
  | bitwise w => cases w <;> rfl
  | ld w v =>
    have hv : fetch (front ++ (Instr.ld w v).encode ++ back) w.bytes (vm.pc + 1)
        = BitVec.ofNat 32 (v.toNat % 256 ^ w.bytes) := by
      rw [hpc]
      exact fetch_bytesLE w.bytes v.toNat _ front back
    have hstep : (Instr.ld w v).step call vm
        = { { vm with pc := vm.pc + 1 } with pc := vm.pc + 1 + w.bytes }.opLd w
            (fetch (front ++ (Instr.ld w v).encode ++ back) w.bytes (vm.pc + 1)) := by
      rw [hv, Vm.opLd, Width.low_ofNat_mod]
      simp only [Instr.step, Instr.exec, Instr.size, Instr.encode, Instr.operand, length_cons,
        length_bytesLE, Vm.opLd, Vm.push, Vm.set, Vm.top]
      congr 1
      omega
    rw [hstep]
    cases w <;> rfl
  | ldValue w addr =>
    have haddr : fetch (front ++ (Instr.ldValue w addr).encode ++ back) 4 (vm.pc + 1) = addr := by
      rw [hpc]
      refine (fetch_bytesLE 4 addr.toNat _ front back).trans ?_
      rw [show (256 : Nat) ^ 4 = 2 ^ 32 from rfl, Nat.mod_eq_of_lt addr.isLt]
      exact BitVec.ofNat_toNat 32 addr
    have hstep : (Instr.ldValue w addr).step call vm
        = { { vm with pc := vm.pc + 1 } with pc := vm.pc + 1 + 4 }.opLdValue w
            (fetch (front ++ (Instr.ldValue w addr).encode ++ back) 4 (vm.pc + 1)) := by
      rw [haddr]
      rfl
    rw [hstep]
    cases w <;> rfl
  | st w => cases w <;> rfl
  | pop => rfl
  | syscall n =>
    have hn : (front ++ (Instr.syscall n).encode ++ back).getD (vm.pc + 1) 0 = n := by
      rw [hpc]
      simp [Instr.encode, Instr.operand, List.getD]
    have hstep : (Instr.syscall n).step call vm
        = { { vm with pc := vm.pc + 1 } with pc := vm.pc + 1 + 1 }.opCall call
            ((front ++ (Instr.syscall n).encode ++ back).getD (vm.pc + 1) 0) := by
      rw [hn]
      rfl
    rw [hstep]
    rfl
  | ldValueStack w => cases w <;> rfl

def runInstrs (call : CallFn) (code : List Instr) (vm : Vm) : Vm := code.foldl (Instr.step call) vm

@[simp]
theorem runInstrs_cons (vm : Vm) :
    runInstrs call (i :: code) vm = runInstrs call code (i.step call vm) := rfl

theorem runInstrs_append (vm : Vm) :
    runInstrs call (code ++ code') vm = runInstrs call code' (runInstrs call code vm) :=
  foldl_append

theorem runInstrs_pc (vm : Vm) : (runInstrs call code vm).pc = vm.pc + codeSize code := by
  induction code generalizing vm with
  | nil => rfl
  | cons i code ih =>
    rw [runInstrs_cons, ih, codeSize_cons, ← Nat.add_assoc]
    rfl

theorem vmSteps_take {code : List Instr} {front : List Byte}
    (htext : text = front ++ code.flatMap Instr.encode) (hlen : text.length = finshTextMax)
    (hpc : vm.pc = front.length) (n : Nat) :
    vmSteps text call n vm = some (runInstrs call (code.take n) vm) := by
  induction n generalizing code front vm with
  | zero => rfl
  | succ n ih =>
    cases code with
    | nil =>
      have hend : ¬vm.pc < finshTextMax := by
        rw [hpc, ← hlen, htext]
        simp
      rw [vmSteps, if_neg hend]
      rfl
    | cons i code =>
      rw [flatMap_cons, ← append_assoc] at htext
      have hlt : vm.pc < finshTextMax := by
        have hpos := i.size_pos
        rw [Instr.size] at hpos
        rw [hpc, ← hlen, htext, length_append, length_append]
        omega
      rw [vmSteps, if_pos hlt, htext, vmStep_encode i front _ hpc, Option.bind_some, ← htext,
        ih htext, take_succ_cons, runInstrs_cons]
      rw [length_append, ← hpc]
      rfl

/-- The instructions in a text segment: those of the line, and the no-operations behind them. -/
def textCode (codes : List (List Instr)) : List Instr :=
  joinStatements codes ++ List.replicate (finshTextMax - (writtenBytes codes).length) .noOp

theorem textSegment_eq (codes : List (List Instr)) :
    textSegment codes = (textCode codes).flatMap Instr.encode := by
  have hzero :
    ∀ n, (List.replicate n Instr.noOp).flatMap Instr.encode = List.replicate n (0 : Byte) := by
    intro n
    induction n with
    | zero => rfl
    | succ n ih =>
      rw [replicate_succ, flatMap_cons, ih]
      rfl
  rw [textSegment, textCode, flatMap_append, hzero, writtenBytes]

theorem length_textSegment (hfits : (writtenBytes codes).length ≤ finshTextMax) :
    (textSegment codes).length = finshTextMax := by
  rw [textSegment, length_append, length_replicate]
  omega

theorem codeSize_textCode (hfits : (writtenBytes codes).length ≤ finshTextMax) :
    codeSize (textCode codes) = finshTextMax := by
  rw [codeSize, ← textSegment_eq, length_textSegment hfits]

theorem vmSteps_textSegment (call : CallFn)
    (hfits : (writtenBytes codes).length ≤ finshTextMax) (stack : Int → BitVec 32) (mem : ByteMem)
    (n : Nat) :
    vmSteps (textSegment codes) call n (vmStart stack mem)
      = some (runInstrs call ((textCode codes).take n) (vmStart stack mem)) := by
  have htext : textSegment codes = [] ++ (textCode codes).flatMap Instr.encode :=
    textSegment_eq codes
  exact vmSteps_take htext (length_textSegment hfits) rfl n

end RtThread.Finsh
