import RtThread.Finsh.CodeSize

/-!
# The stack of the machine

There is no code for a variable of type `void` or `void *`, for a binary operator whose data type
has no width, and for an assignment to anything but an identifier or a `*`. Whether the operations
of a line find their operands nevertheless, and whether each statement leaves one entry, is decided
by the heights of its tree. The upper end of the stack is never reached: an entry takes two bytes of
code.
-/

namespace RtThread.Finsh
open Nat
open List
open StackEffect

theorem Instr.exec_sp (call : CallFn) (i : Instr) (vm : Vm) :
    (i.exec call vm).sp = vm.sp - i.effect.pops + i.effect.pushes := by
  cases i <;> simp only [exec, effect, Vm.opBin, Vm.opBw, Vm.opLd, Vm.opLdValue, Vm.opSt, Vm.opPop,
    Vm.opCall, Vm.opLdValueStack, Vm.push, Vm.set] <;> omega

section
variable {code : List Instr} (call : CallFn) (vm : Vm)

/-- The code has a height behind it exactly if the run of it finds all operands. -/
theorem codeHeight_eq_some_iff {h h' : Nat} (hsp : vm.sp = h) :
    codeHeight code h = some h' ↔ (runInstrs call code vm).sp = h' ∧
      ∀ n i, code[n]? = some i → (i.effect.pops : Int) ≤ (runInstrs call (code.take n) vm).sp := by
  induction code generalizing vm h with
  | nil => simp [codeHeight, runInstrs, hsp]
  | cons i code ih =>
    have hexec : (i.step call vm).sp = vm.sp - i.effect.pops + i.effect.pushes := i.exec_sp call vm
    rw [codeHeight, map_cons, StackEffect.height]
    by_cases hpops : i.effect.pops ≤ h
    · rw [if_pos hpops]
      refine (ih (i.step call vm) (by omega)).trans (and_congr_right fun _ => ?_)
      constructor
      · intro hrest n j hj
        cases n with
        | zero =>
          cases hj
          exact hsp ▸ Int.ofNat_le.mpr hpops
        | succ n => exact hrest n j hj
      · exact fun hall n j hj => hall (n + 1) j hj
    · rw [if_neg hpops]
      refine iff_of_false (by simp) ?_
      rintro ⟨-, hall⟩
      have hfirst : (i.effect.pops : Int) ≤ vm.sp := hall 0 i rfl
      omega

/-- An entry of the stack takes two bytes of code. -/
theorem runInstrs_sp_le (code : List Instr) :
    2 * (runInstrs call code vm).sp ≤ 2 * vm.sp + codeSize code := by
  induction code generalizing vm with
  | nil => simp [runInstrs]
  | cons i code ih =>
    have hexec : (i.step call vm).sp = vm.sp - i.effect.pops + i.effect.pushes := i.exec_sp call vm
    have hsize : 2 * (i.effect.pushes : Int) ≤ 2 * i.effect.pops + i.size := by
      cases i with
      | ld w v => cases w <;> simp [Instr.effect, Instr.size, Instr.encode, Instr.operand, bytesLE,
          Width.bytes]
      | _ =>
        simp only [Instr.effect, Instr.size, Instr.encode, Instr.operand, bytesLE, length_cons,
          length_nil]
        omega
    have hrest := ih (i.step call vm)
    rw [runInstrs_cons, codeSize_cons]
    omega

end

/-- How many entries the operation at a place of the text takes. -/
def operandCount (text : List Byte) (pc : Nat) : Nat :=
  let op := (text.getD pc 0).toNat
  if op = 0x00 then 0
  else if op ≤ 0x18 then 2
  else if op ≤ 0x1B then 1
  else if op ≤ 0x21 then 2
  else if op ≤ 0x27 then 0
  else if op ≤ 0x2A then 2
  else if op = 0x2B then 1
  else if op = 0x2C then (text.getD (pc + 1) 0).toNat + 1
  else 1

theorem operandCount_encode (i : Instr) (front back : List Byte) :
    operandCount (front ++ i.encode ++ back) front.length = i.effect.pops := by
  have hop : (front ++ i.encode ++ back).getD front.length 0 = BitVec.ofNat 8 i.opcode := by
    simp [Instr.encode, List.getD]
  rw [operandCount, hop]
  cases i with
  | noOp => rfl
  | bin op w => cases op <;> cases w <;> rfl
  | bitwise w | ld w v | ldValue w addr | st w => cases w <;> rfl
  | pop => rfl
  | syscall n =>
    have hn : (front ++ (Instr.syscall n).encode ++ back).getD (front.length + 1) 0 = n := by
      simp [Instr.encode, Instr.operand, List.getD]
    rw [hn]
    rfl
  | ldValueStack w => cases w <;> rfl

/-- The run of a line keeps to the stack: every operation finds its operands, the stack pointer
stays between the two ends of the stack, and the instructions of a statement leave one entry behind
those of the statements before it, each with its `POP`. -/
structure StackDiscipline (codes : List (List Instr)) (call : CallFn) (start : Vm) : Prop where
  operands : ∀ n, ∃ vm, vmSteps (textSegment codes) call n start = some vm ∧
    0 ≤ vm.sp ∧ vm.sp ≤ finshStackMax ∧
    (vm.pc < finshTextMax → (operandCount (textSegment codes) vm.pc : Int) ≤ vm.sp)
  statements : ∀ before code after, codes = before ++ code :: after →
    ∃ vm vm',
      vmSteps (textSegment codes) call (before.flatMap (· ++ [.pop])).length start = some vm ∧
      vmSteps (textSegment codes) call code.length vm = some vm' ∧ vm'.sp = vm.sp + 1

theorem joinStatements_eq (before : List (List Instr)) (code : List Instr)
    (after : List (List Instr)) : ∃ tail, joinStatements (before ++ code :: after)
      = before.flatMap (· ++ [.pop]) ++ (code ++ tail) ∧ (after = [] → tail = []) := by
  induction before with
  | nil =>
    cases after with
    | nil => exact ⟨[], by simp [joinStatements], fun _ => rfl⟩
    | cons code' after =>
      exact ⟨[.pop] ++ joinStatements (code' :: after), by simp [joinStatements], by simp⟩
  | cons code' before ih =>
    obtain ⟨tail, htail, hlast⟩ := ih
    refine ⟨tail, ?_, hlast⟩
    cases hrest : before ++ code :: after with
    | nil => simp at hrest
    | cons next rest =>
      rw [hrest] at htail
      rw [cons_append, hrest, joinStatements, htail, flatMap_cons]
      · simp
      · simp

theorem textCode_eq (before : List (List Instr)) (code : List Instr) (after : List (List Instr)) :
    ∃ tail, textCode (before ++ code :: after)
      = before.flatMap (· ++ [.pop]) ++ (code ++ tail) := by
  obtain ⟨tail, htail, -⟩ := joinStatements_eq before code after
  refine ⟨tail ++ replicate (finshTextMax
    - (writtenBytes (before ++ code :: after)).length) .noOp, ?_⟩
  rw [textCode, htail]
  simp

theorem operandCount_textSegment {codes : List (List Instr)} {n : Nat} {i : Instr}
    (hi : (textCode codes)[n]? = some i) :
    operandCount (textSegment codes) (codeSize ((textCode codes).take n)) = i.effect.pops := by
  obtain ⟨hlt, hget⟩ := List.getElem?_eq_some_iff.mp hi
  have hsplit : textCode codes = (textCode codes).take n ++ i :: (textCode codes).drop (n + 1) := by
    rw [← hget, ← drop_eq_getElem_cons hlt, take_append_drop]
  have htext : textSegment codes = ((textCode codes).take n).flatMap Instr.encode ++ i.encode
      ++ ((textCode codes).drop (n + 1)).flatMap Instr.encode := by
    rw [textSegment_eq, append_assoc, ← flatMap_cons, ← flatMap_append, ← hsplit]
  rw [htext, codeSize, operandCount_encode]

section
variable {codes : List (List Instr)}

theorem codeHeight_before {before : List (List Instr)}
    (h : ∀ code ∈ before, codeHeight code 0 = some 1) :
    codeHeight (before.flatMap (· ++ [.pop])) 0 = some 0 := by
  induction before with
  | nil => rfl
  | cons code before ih =>
    rw [flatMap_cons, codeHeight_append, codeHeight_append, h code (by simp)]
    exact ih fun code' hmem => h code' (by simp [hmem])

theorem codeHeight_noOps (n h : Nat) : codeHeight (replicate n .noOp) h = some h := by
  induction n with
  | zero => rfl
  | succ n ih => exact ih

theorem codeHeight_textCode (h : ∀ code ∈ codes, codeHeight code 0 = some 1) :
    ∃ h', codeHeight (textCode codes) 0 = some h' := by
  rcases eq_nil_or_concat' codes with hnil | ⟨before, code, hlast⟩
  · rw [hnil]
    exact ⟨0, codeHeight_noOps _ 0⟩
  · obtain ⟨tail, htail, hnil⟩ := joinStatements_eq before code []
    have hbefore :=
      codeHeight_before fun code' (hmem : code' ∈ before) => h code' (by simp [hlast, hmem])
    refine ⟨1, ?_⟩
    rw [hnil rfl, append_nil, ← hlast] at htail
    rw [textCode, htail, codeHeight_append, codeHeight_append, hbefore, Option.bind_some,
      h code (by simp [hlast]), Option.bind_some, codeHeight_noOps]

/-- If every statement raises the height that it finds by one, the height that it finds is zero. -/
theorem codeHeight_of_statements
    (h : ∀ before code after, codes = before ++ code :: after →
      ∃ k, codeHeight (before.flatMap (· ++ [.pop])) 0 = some k ∧ codeHeight code k = some (k + 1))
    {before after : List (List Instr)} (hcodes : codes = before ++ after) :
    codeHeight (before.flatMap (· ++ [.pop])) 0 = some 0 ∧
      ∀ code ∈ before, codeHeight code 0 = some 1 := by
  induction before using reverseRecOn generalizing after with
  | nil => exact ⟨rfl, by simp⟩
  | append_singleton before code ih =>
    rw [append_assoc] at hcodes
    obtain ⟨hbefore, hall⟩ := ih hcodes
    obtain ⟨k, hk, hcode⟩ := h before code after hcodes
    cases hbefore.symm.trans hk
    refine ⟨?_, ?_⟩
    · rw [flatMap_append, codeHeight_append, hbefore, Option.bind_some, flatMap_singleton,
        codeHeight_append, hcode]
      rfl
    · intro code' hmem
      rcases mem_append.mp hmem with hold | hnew
      · exact hall code' hold
      · cases mem_singleton.mp hnew
        exact hcode

variable (call : CallFn) (stack : Int → BitVec 32) (mem : ByteMem)
  (hfits : (writtenBytes codes).length ≤ finshTextMax)
include hfits

theorem textCode_getElem {n : Nat} (hpc : codeSize ((textCode codes).take n) < finshTextMax) :
    ∃ i, (textCode codes)[n]? = some i := by
  cases hi : (textCode codes)[n]? with
  | some i => exact ⟨i, rfl⟩
  | none =>
    rw [take_of_length_le (List.getElem?_eq_none_iff.mp hi), codeSize_textCode hfits] at hpc
    exact absurd hpc (lt_irrefl _)

/-- The steps of the machine find their operands exactly if the code of the text has a height. -/
theorem operands_iff :
    (∀ n, ∃ vm, vmSteps (textSegment codes) call n (vmStart stack mem) = some vm ∧
      0 ≤ vm.sp ∧ vm.sp ≤ finshStackMax ∧
      (vm.pc < finshTextMax → (operandCount (textSegment codes) vm.pc : Int) ≤ vm.sp)) ↔
      ∃ h, codeHeight (textCode codes) 0 = some h := by
  have hrun := vmSteps_textSegment call hfits stack mem
  have hpc : ∀ n, (runInstrs call ((textCode codes).take n) (vmStart stack mem)).pc
      = codeSize ((textCode codes).take n) := fun n => (runInstrs_pc _ _).trans (zero_add _)
  have hsize : ∀ n, codeSize ((textCode codes).take n) + codeSize ((textCode codes).drop n)
      = finshTextMax := by
    intro n
    rw [← codeSize_append, take_append_drop, codeSize_textCode hfits]
  constructor
  · intro hops
    obtain ⟨vm, hvm, hzero, -⟩ := hops (textCode codes).length
    rw [hrun, take_length] at hvm
    cases hvm
    obtain ⟨h, hh⟩ := Int.eq_ofNat_of_zero_le hzero
    refine ⟨h, (codeHeight_eq_some_iff call (vmStart stack mem) rfl).mpr ⟨hh, ?_⟩⟩
    intro n i hi
    obtain ⟨vm, hvm, -, -, hop⟩ := hops n
    rw [hrun] at hvm
    cases hvm
    rw [hpc, operandCount_textSegment hi] at hop
    apply hop
    obtain ⟨hlt, hget⟩ := List.getElem?_eq_some_iff.mp hi
    have hrest := hsize n
    rw [drop_eq_getElem_cons hlt, codeSize_cons] at hrest
    have hpos := ((textCode codes)[n]).size_pos
    omega
  · rintro ⟨h, hh⟩ n
    obtain ⟨hend, hall⟩ := (codeHeight_eq_some_iff call (vmStart stack mem) rfl).mp hh
    have hle := runInstrs_sp_le call (vmStart stack mem) ((textCode codes).take n)
    have hrest := hsize n
    refine ⟨_, hrun n, ?_, ?_, ?_⟩
    · cases hi : (textCode codes)[n]? with
      | none =>
        rw [take_of_length_le (List.getElem?_eq_none_iff.mp hi), hend]
        exact Int.natCast_nonneg h
      | some i => exact (Int.natCast_nonneg _).trans (hall n i hi)
    · have hstart : (vmStart stack mem).sp = 0 := rfl
      rw [finshTextMax] at hrest
      rw [finshStackMax]
      omega
    · rw [hpc]
      intro hlt
      obtain ⟨i, hi⟩ := textCode_getElem hfits hlt
      rw [operandCount_textSegment hi]
      exact hall n i hi

/-- The machine is behind the statements in front of a statement, and then behind it. -/
theorem vmSteps_statement {before : List (List Instr)} {code : List Instr}
    {after : List (List Instr)} (hcodes : codes = before ++ code :: after) :
    vmSteps (textSegment codes) call (before.flatMap (· ++ [.pop])).length (vmStart stack mem)
        = some (runInstrs call (before.flatMap (· ++ [.pop])) (vmStart stack mem)) ∧
      vmSteps (textSegment codes) call code.length
          (runInstrs call (before.flatMap (· ++ [.pop])) (vmStart stack mem))
        = some (runInstrs call code
            (runInstrs call (before.flatMap (· ++ [.pop])) (vmStart stack mem))) := by
  obtain ⟨tail, htail⟩ := textCode_eq before code after
  rw [← hcodes] at htail
  constructor
  · rw [vmSteps_textSegment call hfits, htail, take_left]
  · have htext : textSegment codes = (before.flatMap (· ++ [.pop])).flatMap Instr.encode
        ++ (code ++ tail).flatMap Instr.encode := by
      rw [textSegment_eq, htail, flatMap_append]
    have hpc : (runInstrs call (before.flatMap (· ++ [.pop])) (vmStart stack mem)).pc
        = ((before.flatMap (· ++ [.pop])).flatMap Instr.encode).length := by
      rw [runInstrs_pc, codeSize]
      exact zero_add _
    rw [vmSteps_take htext (length_textSegment hfits) hpc, take_left]

/-- A line keeps to the stack exactly if the code of each of its statements, started on an empty
stack, finds its operands and leaves one entry. -/
theorem stackDiscipline_iff_codeHeight : StackDiscipline codes call (vmStart stack mem) ↔
    ∀ code ∈ codes, codeHeight code 0 = some 1 := by
  constructor
  · rintro ⟨hops, hstatements⟩
    obtain ⟨h, hh⟩ := (operands_iff call stack mem hfits).mp hops
    refine (codeHeight_of_statements ?_ (append_nil codes).symm).2
    intro before code after hcodes
    obtain ⟨hfirst, hsecond⟩ := vmSteps_statement call stack mem hfits hcodes
    obtain ⟨vm, vm', hvm, hvm', hsp⟩ := hstatements before code after hcodes
    cases hfirst.symm.trans hvm
    cases hsecond.symm.trans hvm'
    obtain ⟨tail, htail⟩ := textCode_eq before code after
    rw [hcodes, htail, codeHeight_append] at hh
    obtain ⟨k, hk, hrest⟩ := Option.bind_eq_some_iff.mp hh
    rw [codeHeight_append] at hrest
    obtain ⟨k', hk', -⟩ := Option.bind_eq_some_iff.mp hrest
    have hspk := ((codeHeight_eq_some_iff call (vmStart stack mem) rfl).mp hk).1
    have hspk' := ((codeHeight_eq_some_iff call _ hspk).mp hk').1
    have hnext : k' = k + 1 := by omega
    exact ⟨k, hk, hnext ▸ hk'⟩
  · intro h
    refine ⟨(operands_iff call stack mem hfits).mpr (codeHeight_textCode h), ?_⟩
    intro before code after hcodes
    obtain ⟨hfirst, hsecond⟩ := vmSteps_statement call stack mem hfits hcodes
    have hbefore :=
      codeHeight_before fun code' (hmem : code' ∈ before) => h code' (by simp [hcodes, hmem])
    have hsp := ((codeHeight_eq_some_iff call (vmStart stack mem) rfl).mp hbefore).1
    have hcode := ((codeHeight_eq_some_iff call _ hsp).mp (h code (by simp [hcodes]))).1
    refine ⟨_, _, hfirst, hsecond, ?_⟩
    rw [hcode, hsp]
    rfl

end

/-- A line whose code fits keeps to the stack exactly if in the tree of each of its statements the
operations find their operands and one entry is left. This holds for every tree. -/
theorem stackDiscipline_iff {layout : Layout} {vars : List Var} {root : Node} {errno : FinshError}
    (hfits : (writtenBytes (finshCompilerRun layout vars root errno).1).length ≤ finshTextMax)
    (call : CallFn) (stack : Int → BitVec 32) (mem : ByteMem) :
    StackDiscipline (finshCompilerRun layout vars root errno).1 call (vmStart stack mem) ↔
      ∀ statement ∈ root.statements, statement.heightAfter vars false 0 = some 1 := by
  rw [stackDiscipline_iff_codeHeight call stack mem hfits, finshCompilerRun_fst, forall_mem_map]
  simp only [codeHeight_checkedCode]

/-- `x=2+f(x,x++);` keeps to the stack. -/
theorem stackDiscipline_iff_call :
    ∃ self', finshParserRun sampleEnv 60 (sampleParser .int).flush
        (['x', '=', '2', '+', 'f', '(', 'x', ',', 'x', '+', '+', ')', ';'].map Char.byte)
          = .ok self' ∧
      self'.errno = .ok ∧
      ∀ call stack mem, StackDiscipline
        (finshCompilerRun sampleLayout self'.vars self'.root self'.errno).1 call
          (vmStart stack mem) := by
  refine Except.exists_ok (P := fun self => self.errno = .ok ∧
    (writtenBytes (finshCompilerRun sampleLayout self.vars self.root self.errno).1).length
      ≤ finshTextMax ∧
    ∀ statement ∈ self.root.statements, statement.heightAfter self.vars false 0 = some 1)
    (by decide +kernel) fun self' hparse hvalue => ?_
  obtain ⟨herrno, hfits, hheight⟩ := hvalue
  exact ⟨herrno, fun call stack mem => (stackDiscipline_iff hfits call stack mem).mpr hheight⟩

/-- With `x` of type `void *`, the code of `x+1;` has no load for `x`, and the addition finds one
operand. -/
theorem void_pointer_underflow : ∃ self', finshParserRun sampleEnv 40 (sampleParser .voidp).flush
        (['x', '+', '1', ';'].map Char.byte) = .ok self' ∧
      self'.errno = .ok ∧
      (finshCompilerRun sampleLayout self'.vars self'.root self'.errno).2 = .ok ∧
      (writtenBytes (finshCompilerRun sampleLayout self'.vars self'.root self'.errno).1).length
        ≤ finshTextMax ∧
      ∀ call stack mem, ¬StackDiscipline
        (finshCompilerRun sampleLayout self'.vars self'.root self'.errno).1 call
          (vmStart stack mem) := by
  refine Except.exists_ok
    (P := fun self => (self.errno, finshCompilerRun sampleLayout self.vars self.root self.errno) =
      (.ok, [[.ld .dword 1, .bin .add .dword]], .ok)) (by decide +kernel) fun self' _ hvalue => ?_
  obtain ⟨herrno, hcompile⟩ := Prod.mk.inj hvalue
  refine ⟨herrno, by rw [hcompile], by rw [hcompile]; decide, ?_⟩
  intro call stack mem hdiscipline
  rw [hcompile] at hdiscipline
  obtain ⟨vm, hrun, -, -, hoperands⟩ := hdiscipline.operands 1
  rw [vmSteps_textSegment call (by decide) stack mem] at hrun
  have hvm : vm = (Instr.ld .dword 1).step call (vmStart stack mem) := (Option.some.inj hrun).symm
  have hpc : vm.pc = 5 := by
    rw [hvm]
    rfl
  have hsp : vm.sp = 1 := by
    rw [hvm]
    rfl
  rw [hpc, hsp] at hoperands
  exact absurd (hoperands (by decide)) (by decide)

end RtThread.Finsh
