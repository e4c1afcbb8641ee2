import RtThread.Finsh.Node
import RtThread.Lib.ByteMem

/-!
# The virtual machine

The stack machine of `finsh_vm.c` and `finsh_ops.c`. A slot of the stack is a union of four bytes;
an operation of a smaller width changes the low bytes of its slot only. The stack has a value at
every integer, so that what an operation does below the first slot can be said. The processor is
little-endian, `char` is unsigned, and a shift takes its count from the low byte of a register.
-/

namespace RtThread.Finsh

def finshStackMax : Nat := 64

def finshTextMax : Nat := 128

inductive Width
  | byte
  | word
  | dword
  deriving DecidableEq

namespace Width

def bytes : Width → Nat
  | byte => 1
  | word => 2
  | dword => 4

def bits (w : Width) : Nat := 8 * w.bytes

/-- The position in a group of three operation codes. -/
def offset : Width → Nat
  | byte => 0
  | word => 1
  | dword => 2

/-- The member of a slot with this width. -/
def low (w : Width) (slot : BitVec 32) : BitVec w.bits := slot.setWidth w.bits

/-- A slot after an assignment to its member with this width. -/
def setLow (w : Width) (slot : BitVec 32) (v : BitVec w.bits) : BitVec 32 :=
  (slot >>> w.bits <<< w.bits) ||| v.setWidth 32

end Width

inductive BinOp
  | add
  | sub
  | div
  | mod
  | mul
  | and
  | or
  | xor
  | shl
  | shr
  deriving DecidableEq

/-- `x op y` of two members (`OP_BIN_BYTE`, `OP_BIN_WORD`, `OP_BIN_DWORD`). -/
def BinOp.eval (w : Width) (op : BinOp) (x y : BitVec w.bits) : BitVec w.bits :=
  match op with
  | add => x + y
  | sub => x - y
  | div => if w = .byte then x / y else x.sdiv y
  | mod => if w = .byte then x % y else x.srem y
  | mul => x * y
  | and => x &&& y
  | or => x ||| y
  | xor => x ^^^ y
  | shl => x <<< (y.toNat % 256)
  | shr => if w = .byte then x >>> (y.toNat % 256) else x.sshiftRight (y.toNat % 256)

/-- The state of the machine. The memory does not hold the machine itself. -/
structure Vm where
  pc : Nat
  sp : Int
  stack : Int → BitVec 32
  mem : ByteMem

/-- What a call of the function at an address returns, and the memory after it. -/
abbrev CallFn := BitVec 32 → List (BitVec 32) → ByteMem → BitVec 32 × ByteMem

namespace Vm
variable (vm : Vm)
variable (k : Int) (w : Width) (v addr : BitVec 32)

/-- The slot `k` below the stack pointer. -/
def top : BitVec 32 := vm.stack (vm.sp - k)

def set : Vm :=
  { vm with stack := Function.update vm.stack (vm.sp - k) v }

/-- The member of a memory cell with this width. -/
def load : BitVec w.bits :=
  BitVec.ofNat w.bits (vm.mem.readLE w.bytes addr.toNat)

/-- An assignment to a member of the slot at the stack pointer, which then goes up. -/
def push (v : BitVec w.bits) : Vm :=
  { vm.set 0 (w.setLow (vm.top 0) v) with sp := vm.sp + 1 }

/-- `OP_add_*` to `OP_xor_*`, `OP_shl_*` and `OP_shr_*`. -/
def opBin (op : BinOp) (w : Width) : Vm :=
  { vm.set 2 (w.setLow (vm.top 2) (op.eval w (w.low (vm.top 2)) (w.low (vm.top 1)))) with
    sp := vm.sp - 1 }

/-- `OP_bw_*`. -/
def opBw : Vm := vm.set 1 (w.setLow (vm.top 1) (~~~w.low (vm.top 1)))

/-- `OP_ld_*`, with the operand from the text. -/
def opLd : Vm := vm.push w (w.low v)

/-- `OP_ld_value_*`, with the address from the text. -/
def opLdValue : Vm := vm.push w (vm.load w addr)

/-- `OP_ld_value_*_stack`. -/
def opLdValueStack : Vm :=
  vm.set 1 (w.setLow (vm.top 1) (vm.load w (vm.top 1)))

/-- `OP_st_*`. -/
def opSt : Vm :=
  { vm with
    mem := vm.mem.writeLE w.bytes (vm.top 2).toNat (w.low (vm.top 1)).toNat
    sp := vm.sp - 1 }

/-- `OP_pop`. -/
def opPop : Vm := { vm with sp := vm.sp - 1 }

/-- `OP_call` with its number of parameters from the text. A function without parameters is called
with a zero. -/
def opCall (call : CallFn) (parameters : Byte) : Vm :=
  let n := parameters.toNat
  let parameterv := (List.range n).map fun j => vm.top (n - j)
  let (r, mem) :=
    if n = 0 then call (vm.top 1) [0] vm.mem
    else if n ≤ 16 then call (vm.top (n + 1)) parameterv vm.mem
    else (0, vm.mem)
  { vm.set (n + 1) r with sp := vm.sp - n, mem }

end Vm

/-- An instruction: an operation, with the operand that stands behind its code. -/
inductive Instr
  | noOp
  | bin (op : BinOp) (w : Width)
  | bitwise (w : Width)
  | ld (w : Width) (v : BitVec 32)
  | ldValue (w : Width) (addr : BitVec 32)
  | st (w : Width)
  | pop
  | syscall (parameters : Byte)
  | ldValueStack (w : Width)
  deriving DecidableEq

/-- The place of a group of operation codes among the binary ones. -/
def BinOp.base : BinOp → Nat
  | add => 0x01
  | sub => 0x04
  | div => 0x07
  | mod => 0x0A
  | mul => 0x0D
  | and => 0x10
  | or => 0x13
  | xor => 0x16
  | shl => 0x1C
  | shr => 0x1F

/-- The low `n` bytes of a number, as `FINSH_SET16` and `FINSH_SET32` write them. -/
def bytesLE : (n v : Nat) → List Byte
  | 0, _ => []
  | n + 1, v => BitVec.ofNat 8 v :: bytesLE n (v / 256)

namespace Instr

/-- `FINSH_OP_*` (`finsh_ops.h:33-127`). -/
def opcode : Instr → Nat
  | noOp => 0x00
  | bin op w => op.base + w.offset
  | bitwise w => 0x19 + w.offset
  | ld w _ => 0x22 + w.offset
  | ldValue w _ => 0x25 + w.offset
  | st w => 0x28 + w.offset
  | pop => 0x2B
  | syscall _ => 0x2C
  | ldValueStack w => 0x2D + w.offset

/-- The operand of an instruction, as the emitters write it. -/
def operand : Instr → List Byte
  | ld w v => bytesLE w.bytes v.toNat
  | ldValue _ addr => bytesLE 4 addr.toNat
  | syscall parameters => [parameters]
  | _ => []

def encode (i : Instr) : List Byte := BitVec.ofNat 8 i.opcode :: i.operand

def exec (call : CallFn) : Instr → Vm → Vm
  | noOp, vm => vm
  | bin op w, vm => vm.opBin op w
  | bitwise w, vm => vm.opBw w
  | ld w v, vm => vm.opLd w v
  | ldValue w addr, vm => vm.opLdValue w addr
  | st w, vm => vm.opSt w
  | pop, vm => vm.opPop
  | syscall parameters, vm => vm.opCall call parameters
  | ldValueStack w, vm => vm.opLdValueStack w

end Instr

section
variable (text : List Byte) (call : CallFn)

/-- `FINSH_GET16` and `FINSH_GET32` at a place of the text. -/
def fetch (n pc : Nat) : BitVec 32 := BitVec.ofNat 32 (ByteMem.readLE (text.getD · 0) n pc)

/-- Three operations, one of each width. -/
def widths (op : Width → Vm → Vm) : List (Vm → Vm) := [op .byte, op .word, op .dword]

/-- `op_table` (`finsh_ops.c:569-622`). An operation finds the program counter behind its code. -/
def opTable : List (Vm → Vm) :=
  List.flatten [[id], widths fun w vm => vm.opBin .add w, widths fun w vm => vm.opBin .sub w,
      widths fun w vm => vm.opBin .div w, widths fun w vm => vm.opBin .mod w,
      widths fun w vm => vm.opBin .mul w, widths fun w vm => vm.opBin .and w,
      widths fun w vm => vm.opBin .or w, widths fun w vm => vm.opBin .xor w,
      widths fun w vm => vm.opBw w, widths fun w vm => vm.opBin .shl w,
      widths fun w vm => vm.opBin .shr w,
      widths fun w vm => { vm with pc := vm.pc + w.bytes }.opLd w (fetch text w.bytes vm.pc),
      widths fun w vm => { vm with pc := vm.pc + 4 }.opLdValue w (fetch text 4 vm.pc),
      widths fun w vm => vm.opSt w, [fun vm => vm.opPop],
      [fun vm => { vm with pc := vm.pc + 1 }.opCall call (text.getD vm.pc 0)],
      widths fun w vm => vm.opLdValueStack w]

/-- An iteration of the loop of `finsh_vm_run`. There is no operation outside of the table. -/
def vmStep (vm : Vm) : Option Vm :=
  (opTable text call)[(text.getD vm.pc 0).toNat]?.map fun op => op { vm with pc := vm.pc + 1 }

/-- `n` iterations, as far as the program counter stays in the text. -/
def vmSteps : (n : Nat) → (vm : Vm) → Option Vm
  | 0, vm => some vm
  | n + 1, vm => if vm.pc < finshTextMax then (vmStep text call vm).bind (vmSteps n) else some vm

/-- The machine at the start of `finsh_vm_run`. -/
def vmStart (stack : Int → BitVec 32) (mem : ByteMem) : Vm := { pc := 0, sp := 0, stack, mem }

/-- `finsh_vm_run`. An iteration moves the program counter on, so that no more are needed. -/
def finshVmRun (stack : Int → BitVec 32) (mem : ByteMem) : Option Vm :=
  vmSteps text call finshTextMax (vmStart stack mem)

def finshStackBottom (vm : Vm) : BitVec 32 := vm.stack 0

end
end RtThread.Finsh
