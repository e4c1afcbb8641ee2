import RtThread.Finsh.CheckedCode
import RtThread.Finsh.Parser
import RtThread.Lib.Outcome
import RtThread.Lib.StackHeight

/-!
# The size of the code

What the code of a node takes from the stack, what it leaves there, and how many bytes it has, can
be read off the tree of the line and the types of the variables. The emitters of `finsh_compiler.c`
do not look at the end of `text_segment`: a postfix step takes up to 18 bytes, and eight of them
more than there are.
-/

namespace RtThread.Finsh
open StackEffect

/-- What an instruction takes from the stack and leaves on it. -/
def Instr.effect : Instr → StackEffect
  | noOp => ⟨0, 0⟩
  | bin _ _ => ⟨2, 1⟩
  | bitwise _ => ⟨1, 1⟩
  | ld _ _ | ldValue _ _ => ⟨0, 1⟩
  | st _ => ⟨2, 1⟩
  | pop => ⟨1, 0⟩
  | syscall n => ⟨n.toNat + 1, 1⟩
  | ldValueStack _ => ⟨1, 1⟩

/-- The height of the stack behind the code, if every instruction finds its operands. -/
def codeHeight (code : List Instr) (h : Nat) : Option Nat := height (code.map Instr.effect) h

theorem codeHeight_append (code code' : List Instr) (h : Nat) :
    codeHeight (code ++ code') h = (codeHeight code h).bind (codeHeight code') := by
  rw [codeHeight, List.map_append, height_append]
  rfl

/-- The effect of a piece of code on the stack, and its size. -/
structure CodeCost extends StackEffect where
  bytes : Nat

namespace CodeCost

def none : CodeCost := ⟨⟨0, 0⟩, 0⟩

/-- An operation in the width of a data type. -/
def inWidth (dataType : Nat) (cost : Width → CodeCost) : CodeCost :=
  match Width.ofDataType dataType with
  | some w => cost w
  | .none => none

end CodeCost

/-- An identifier is loaded: it is not a variable of type `void` or `void *`. -/
def NodeInfo.HasValue (vars : List Var) (info : NodeInfo) : Bool :=
  match info.id with
  | some (.var i) => (loadWidth (varType vars i)).isSome
  | some (.sysvar sysvar) => (loadWidth sysvar.type).isSome
  | some (.syscall _) => true
  | none => false

section
variable (vars : List Var) (info : NodeInfo) (child : Node) (isAddr : Bool)

/-- What the code of a node costs, without that of its children. The width of an operation is that
of the leftmost leaf under it. -/
def nodeCost : CodeCost :=
  let dataType := (leafDataType vars (Node.mk info child .null).lead).1
  let step (cost : Width → CodeCost) :=
    if child.info.nodeType = .id then CodeCost.inWidth dataType cost else .none
  match info.nodeType with
  | .id => if info.HasValue vars then ⟨⟨0, 1⟩, 5⟩ else .none
  | .valueChar => ⟨⟨0, 1⟩, 2⟩
  | .valueInt | .valueLong | .valueNull | .valueString => ⟨⟨0, 1⟩, 5⟩
  | .sysBitwise => .inWidth dataType fun _ => ⟨⟨1, 1⟩, 1⟩
  | .sysFunc =>
    if child = .null then .none else ⟨⟨child.sibling.chainLength % 256 + 1, 1⟩, 2⟩
  | .sysAssign =>
    if child.info.nodeType = .sysGetvalue then .inWidth (dataType &&& 0x0F) fun _ => ⟨⟨2, 1⟩, 2⟩
    else step fun _ => ⟨⟨2, 1⟩, 2⟩
  | .sysPreinc | .sysPredec => step fun w => ⟨⟨1, 1⟩, 9 + w.bytes⟩
  | .sysInc | .sysDec => step fun w => ⟨⟨0, 0⟩, 14 + w.bytes⟩
  | .sysGetvalue =>
    if markAddr info isAddr then .none else .inWidth dataType fun _ => ⟨⟨1, 1⟩, 1⟩
  | .sysNull => ⟨⟨0, 0⟩, 4⟩
  | .sysGetaddr | .unknown | .sysCast => .none
  | _ => .inWidth dataType fun _ => ⟨⟨2, 1⟩, 1⟩

end

namespace Node
variable (vars : List Var)

/-- The bytes of the code of a tree. -/
def bytes : (node : Node) → (isAddr : Bool) → Nat
  | null, _ => 0
  | mk info child sibling, isAddr =>
    child.bytes (childIsAddr info.nodeType isAddr) + (nodeCost vars info child isAddr).bytes
      + sibling.bytes false

/-- The height of the stack behind the code of a tree, if every operation finds its operands. -/
def heightAfter : (node : Node) → (isAddr : Bool) → (h : Nat) → Option Nat
  | null, _, h => some h
  | mk info child sibling, isAddr, h =>
    ((child.heightAfter (childIsAddr info.nodeType isAddr) h).bind
      (height [(nodeCost vars info child isAddr).toStackEffect])).bind (sibling.heightAfter false)

end Node

/-- The code has the size and the effect of the cost. -/
structure Costs (code : List Instr) (cost : CodeCost) : Prop where
  size : codeSize code = cost.bytes
  height : codeHeight code = StackEffect.height [cost.toStackEffect]

theorem costs_nil : Costs [] .none := ⟨rfl, rfl⟩

theorem costs_inWidth {code : Width → List Instr} {cost : Width → CodeCost} (dataType : Nat)
    (h : ∀ w, Costs (code w) (cost w)) :
    Costs (inWidth dataType code) (.inWidth dataType cost) := by
  unfold inWidth CodeCost.inWidth
  cases Width.ofDataType dataType with
  | none => exact costs_nil
  | some w => exact h w

theorem costs_loadVar (type : FinshType) (addr : BitVec 32) (address : Bool) :
    Costs (loadVar type addr address)
      (if (loadWidth type).isSome then ⟨⟨0, 1⟩, 5⟩ else .none) := by
  unfold loadVar
  cases loadWidth type with
  | none => exact costs_nil
  | some w => cases address <;> exact ⟨rfl, rfl⟩

theorem costs_loadIdent (layout : Layout) (vars : List Var) (info : NodeInfo) :
    Costs (loadIdent layout vars info)
      (if info.HasValue vars then ⟨⟨0, 1⟩, 5⟩ else .none) := by
  unfold loadIdent NodeInfo.HasValue
  cases info.id with
  | none => exact costs_nil
  | some ident =>
    cases ident with
    | var i => exact costs_loadVar _ _ _
    | sysvar sysvar => exact costs_loadVar _ _ _
    | syscall syscall => exact ⟨rfl, rfl⟩

theorem costs_storeCode (dataType : Nat) :
    Costs (storeCode dataType).1 (.inWidth dataType fun _ => ⟨⟨2, 1⟩, 2⟩) := by
  unfold storeCode CodeCost.inWidth
  cases Width.ofDataType dataType with
  | none => exact costs_nil
  | some w =>
    refine ⟨rfl, funext fun h => ?_⟩
    simp only [codeHeight, List.map_cons, List.map_nil, Instr.effect, StackEffect.height]
    grind

theorem costs_preStep (op : BinOp) (addr : BitVec 32) (w : Width) :
    Costs (preStep op addr w) ⟨⟨1, 1⟩, 9 + w.bytes⟩ := by
  refine ⟨by cases w <;> rfl, funext fun h => ?_⟩
  simp only [preStep, codeHeight, List.map_cons, List.map_nil, Instr.effect, StackEffect.height]
  grind

theorem costs_postStep (op : BinOp) (addr : BitVec 32) (w : Width) :
    Costs (postStep op addr w) ⟨⟨0, 0⟩, 14 + w.bytes⟩ := by
  refine ⟨by cases w <;> rfl, funext fun h => ?_⟩
  simp only [postStep, codeHeight, List.map_cons, List.map_nil, Instr.effect, StackEffect.height]
  grind

section
variable (layout : Layout) (vars : List Var)

/-- The child is the first one after the check. -/
theorem costs_stepCode {code : BitVec 32 → Width → List Instr} {cost : Width → CodeCost}
    (h : ∀ addr w, Costs (code addr w) (cost w)) (info : NodeInfo) (child : Node) :
    Costs (stepCode layout code info child)
      (if child.info.nodeType = .id then .inWidth info.dataType cost else .none) := by
  unfold stepCode
  split
  · exact costs_inWidth _ (h _)
  · exact costs_nil

theorem costs_nodeCode (info : NodeInfo) (child : Node) (isAddr : Bool) :
    Costs (nodeCode layout vars (checkedInfo vars info child isAddr)
        (finshTypeCheck vars child (childIsAddr info.nodeType isAddr) .ok).1).1
      (nodeCost vars info child isAddr) := by
  have hnull := finshTypeCheck_eq_null vars child (childIsAddr info.nodeType isAddr) .ok
  have htype := finshTypeCheck_nodeType vars child (childIsAddr info.nodeType isAddr) .ok
  have harguments := finshTypeCheck_arguments vars child (childIsAddr info.nodeType isAddr) .ok
  have hdata := finshTypeCheck_dataType vars child (childIsAddr info.nodeType isAddr) .ok
  generalize (finshTypeCheck vars child (childIsAddr info.nodeType isAddr) .ok).1 = child'
    at hnull htype harguments hdata ⊢
  have hown : (checkedInfo vars info child isAddr).nodeType = info.nodeType := rfl
  -- the operand of an assignment gives it its data type
  have hlead : ∀ {type : NodeType}, child.info.nodeType = type → type ≠ .unknown →
      child'.info.dataType = (leafDataType vars (Node.mk info child .null).lead).1 := by
    rintro type hchild hknown
    rw [hdata, Node.lead_mk]
    rintro rfl
    exact hknown hchild.symm
  have hsteps : ∀ {code : BitVec 32 → Width → List Instr} {cost : Width → CodeCost},
      (∀ addr w, Costs (code addr w) (cost w)) →
      Costs (stepCode layout code (checkedInfo vars info child isAddr) child')
        (if child.info.nodeType = .id then
          .inWidth (leafDataType vars (Node.mk info child .null).lead).1 cost else .none) := by
    intro code cost h
    rw [← htype]
    exact costs_stepCode layout h _ child'
  unfold nodeCode nodeCost
  rw [hown]
  cases info.nodeType with
  | id => exact costs_loadIdent layout vars (checkedInfo vars info child isAddr)
  | valueChar | valueInt | valueLong | valueNull | valueString => exact ⟨rfl, rfl⟩
  | sysFunc =>
    by_cases hchild : child = .null
    · simp only [hnull.mpr hchild, hchild, ne_eq, not_true_eq_false, if_false, if_true]
      exact costs_nil
    · simp only [ne_eq, hnull, hchild, not_false_eq_true, if_true, if_false, ← harguments]
      exact ⟨rfl, rfl⟩
  | sysAssign =>
    simp only [htype]
    by_cases hid : child.info.nodeType = .id
    · rw [if_pos hid, if_neg (by rw [hid]; decide), if_pos hid, hlead hid (by decide)]
      exact costs_storeCode _
    · rw [if_neg hid, if_neg hid]
      split
      · rename_i hget
        rw [hlead hget (by decide)]
        exact costs_storeCode _
      · exact costs_nil
  | sysPreinc | sysPredec => exact hsteps (costs_preStep _)
  | sysInc | sysDec => exact hsteps (costs_postStep _)
  | sysGetvalue =>
    have haddress : (checkedInfo vars info child isAddr).address = markAddr info isAddr := rfl
    simp only [haddress]
    cases markAddr info isAddr with
    | true => exact costs_nil
    | false => exact costs_inWidth _ fun w => ⟨rfl, rfl⟩
  | sysNull => exact ⟨rfl, rfl⟩
  | sysGetaddr | unknown | sysCast => exact costs_nil
  | _ => exact costs_inWidth _ fun w => ⟨rfl, rfl⟩

theorem codeSize_checkedCode (node : Node) (isAddr : Bool) :
    codeSize (checkedCode layout vars node isAddr) = node.bytes vars isAddr := by
  induction node generalizing isAddr with
  | null => rfl
  | mk info child sibling ihc ihs =>
    rw [checkedCode_mk, codeSize_append, codeSize_append, ihc, ihs,
      (costs_nodeCode layout vars info child isAddr).size, Node.bytes]

theorem codeHeight_checkedCode (node : Node) (isAddr : Bool) :
    codeHeight (checkedCode layout vars node isAddr) = node.heightAfter vars isAddr := by
  induction node generalizing isAddr with
  | null => rfl
  | mk info child sibling ihc ihs =>
    funext h
    rw [checkedCode_mk, codeHeight_append, codeHeight_append, ihc, ihs,
      (costs_nodeCode layout vars info child isAddr).height, Node.heightAfter]

/-- The bytes of a line are those of its tree and one for each `POP`. -/
theorem length_writtenBytes (root : Node) (errno : FinshError) :
    (writtenBytes (finshCompilerRun layout vars root errno).1).length
      = root.bytes vars false + (root.chainLength - 1) := by
  have hsize : ∀ codes, (writtenBytes codes).length = codeSize (joinStatements codes) :=
    fun _ => rfl
  rw [finshCompilerRun_fst, hsize]
  induction root with
  | null => rfl
  | mk info child sibling _ ihs =>
    have hfirst : codeSize (checkedCode layout vars (.mk info child .null) false)
        + sibling.bytes vars false = (Node.mk info child sibling).bytes vars false := by
      rw [codeSize_checkedCode, Node.bytes, Node.bytes]
      rfl
    cases sibling with
    | null => exact hfirst
    | mk info' child' sibling' =>
      have hpop : Instr.pop.size = 1 := rfl
      simp only [Node.statements, List.map_cons, joinStatements, codeSize_append, codeSize_cons,
        codeSize_nil, Node.chainLength] at ihs ⊢
      omega

end

/-- The code of a line stays in the text segment exactly if the bytes of its nodes, and one for each
statement but the last, are no more than there are. This holds for every tree. -/
theorem code_fits_iff (layout : Layout) (vars : List Var) (root : Node) (errno : FinshError) :
    (writtenBytes (finshCompilerRun layout vars root errno).1).length ≤ finshTextMax ↔
      root.bytes vars false + (root.chainLength - 1) ≤ finshTextMax := by
  rw [length_writtenBytes]

/-- A shell with the variable `x`, and with a system call `f`. -/
def sampleEnv : Env Unit :=
  { symbols :=
      { sysvarTable := []
        globalSysvarList := []
        syscallTable := [{ name := ['f'].map Char.byte, func := 0x08000100, addr := 0x08010000 }]
        globalSyscallList := [] }
    idTail := []
    newString := fun heap _ => (heap, 0x20002000) }

/-- The parser of that shell, with the type of `x`. -/
def sampleParser (type : FinshType) : Parser Unit :=
  { token := .init []
    root := .null
    errno := .ok
    nodes := 0
    vars := { name := ['x'].map Char.byte, type } ::
      List.replicate 7 { name := [], type := .unknown }
    heap := () }

def sampleLayout : Layout := { globalVariable := 0x20001000, fits := by decide }

/-- Eight times `x++;` are 32 characters and 16 nodes. Their code has 191 bytes. -/
theorem eight_steps_overflow :
    ∃ line, line.length < 80 ∧ ∃ self',
      finshParserRun sampleEnv 40 (sampleParser .int).flush line = .ok self' ∧
      self'.errno = .ok ∧
      ¬(writtenBytes (finshCompilerRun sampleLayout self'.vars self'.root self'.errno).1).length
        ≤ finshTextMax := by
  refine ⟨(List.replicate 8 ['x', '+', '+', ';']).flatten.map Char.byte, by decide, ?_⟩
  exact Except.exists_ok (by decide +kernel) fun _ _ h => h

end RtThread.Finsh
