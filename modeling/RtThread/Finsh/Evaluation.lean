import RtThread.Finsh.CodeSize
import RtThread.Finsh.Parsing

/-!
# Expressions are evaluated as in C

The code of the tree of an expression leaves the value of the expression on the stack and its store
in the memory of the variables.
-/

namespace RtThread.Finsh
open Option
open Function
open ByteMem
open BitVec

def StepOp.binOp : StepOp → BinOp
  | inc => .add
  | dec => .sub

def CExpr.code (layout : Layout) (place : List Byte → Nat) : CExpr → List Instr
  | literal n => [.ld .dword (BitVec.ofNat 32 n)]
  | var x => [.ldValue .dword (layout.identValue (some (.var (place x))))]
  | plus e => e.code layout place
  | neg e => [.ld .dword 0] ++ e.code layout place ++ [.bin .sub .dword]
  | compl e => e.code layout place ++ [.bitwise .dword]
  | bin op l r => l.code layout place ++ r.code layout place ++ [.bin op .dword]
  | assign x e =>
    [.ld .dword (layout.identValue (some (.var (place x))))] ++ e.code layout place
      ++ [.st .dword, .ldValueStack .dword]
  | pre op x =>
    [.ld .dword (layout.identValue (some (.var (place x))))]
      ++ preStep op.binOp (layout.identValue (some (.var (place x)))) .dword
  | post op x =>
    [.ldValue .dword (layout.identValue (some (.var (place x))))]
      ++ postStep op.binOp (layout.identValue (some (.var (place x)))) .dword

section
variable (layout : Layout) (vars : List Var) {place : List Byte → Nat}
variable (i : Nat) (sibling node : Node) (isAddr : Bool) (errno errno' : FinshError)

def IsLong : Prop := varType vars i = .int ∨ varType vars i = .long

theorem checkedCode_varNode {i : Nat} (hi : IsLong vars i) (isAddr : Bool) (sibling : Node) :
    checkedCode layout vars ((varNode i).withSibling sibling) isAddr
      = (if isAddr then [.ld .dword (layout.identValue (some (.var i)))]
          else [.ldValue .dword (layout.identValue (some (.var i)))])
        ++ checkedCode layout vars sibling false := by
  have hload : ∀ addr address, loadVar (varType vars i) addr address
      = if address then [Instr.ld .dword addr] else [Instr.ldValue .dword addr] := by
    intro addr address
    rcases hi with htype | htype
    all_goals
      rw [htype]
      rfl
  rw [varNode, Node.leaf, Node.withSibling, checkedCode_mk]
  simp only [nodeCode, checkedInfo, NodeInfo.new, loadIdent, hload, markAddr, Bool.false_or]
  rfl

theorem checkedCode_valueNode {type : NodeType} (htype : type = .valueInt ∨ type = .valueLong)
    (value : BitVec 32) (sibling : Node) :
    checkedCode layout vars ((valueNode type value).withSibling sibling) false
      = [.ld .dword value] ++ checkedCode layout vars sibling false := by
  rw [valueNode, Node.leaf, Node.withSibling, checkedCode_mk]
  rcases htype with rfl | rfl <;> rfl

theorem lead_sysNode (type : NodeType) {node1 : Node} (node2 : Node) (h : node1 ≠ .null) :
    (sysNode type node1 node2).lead = node1.lead := by
  cases node1 with
  | null => exact absurd rfl h
  | mk info child sibling => cases child <;> rfl

theorem leafDataType_var {i : Nat} (hi : IsLong vars i) :
    (leafDataType vars (varNode i).lead).1 = 3 := by
  simp only [varNode, Node.leaf, Node.lead, leafDataType, NodeInfo.new]
  rcases hi with htype | htype
  all_goals
    rw [htype]
    rfl

attribute [local simp] CExpr.names

theorem leafDataType_node {e : CExpr} (hlong : ∀ x ∈ e.names, IsLong vars (place x)) :
    (leafDataType vars (e.node place).lead).1 = 3 := by
  induction e with
  | literal n => rfl
  | var x => exact leafDataType_var vars (hlong x (by simp))
  | plus e ih => exact ih hlong
  | neg e _ => rfl
  | compl e ih =>
    rw [CExpr.node, lead_sysNode _ _ (e.node_ne_null place)]
    exact ih hlong
  | bin op l r ihl _ =>
    rw [CExpr.node, lead_sysNode _ _ (l.node_ne_null place)]
    exact ihl fun x hx => hlong x (by simp [hx])
  | assign x e _ | pre op x | post op x =>
    exact leafDataType_var vars (hlong x (by simp))

theorem nodeCode_bin (op : BinOp) {info : NodeInfo} (child : Node)
    (htype : info.nodeType = op.nodeType)
    (hdata : info.dataType = 3) : (nodeCode layout vars info child).1 = [.bin op .dword] := by
  unfold nodeCode
  rw [htype, hdata]
  cases op <;> rfl

theorem nodeCode_step (op : StepOp) {info : NodeInfo} {child : Node} (hdata : info.dataType = 3)
    (hchild : child.info.nodeType = .id) :
    (info.nodeType = op.preType → (nodeCode layout vars info child).1
      = preStep op.binOp (layout.identValue child.info.id) .dword) ∧
    (info.nodeType = op.postType → (nodeCode layout vars info child).1
      = postStep op.binOp (layout.identValue child.info.id) .dword) := by
  constructor
  all_goals
    intro htype
    unfold nodeCode
    rw [htype]
    cases op
    all_goals
      simp only [StepOp.preType, StepOp.postType, stepCode, hchild, if_true, hdata]
      rfl

theorem CExpr.node_withSibling_null (e : CExpr) :
    (e.node place).withSibling .null = e.node place := by
  induction e with
  | plus e ih => exact ih
  | _ => rfl

@[simp]
theorem checkedCode_null : checkedCode layout vars .null isAddr = [] := rfl

theorem checkedCode_sysNode (type : NodeType) (node1 node2 sibling : Node) :
    checkedCode layout vars ((sysNode type node1 node2).withSibling sibling) false
      = checkedCode layout vars (node1.withSibling node2) (childIsAddr type false)
        ++ (nodeCode layout vars (checkedInfo vars (.new type) (node1.withSibling node2) false)
            (finshTypeCheck vars (node1.withSibling node2) (childIsAddr type false) .ok).1).1
        ++ checkedCode layout vars sibling false :=
  checkedCode_mk layout vars (.new type) (node1.withSibling node2) sibling false

theorem finshTypeCheck_varNode :
    (finshTypeCheck vars ((varNode i).withSibling sibling) isAddr errno).1.info
      = checkedInfo vars { NodeInfo.new .id with id := some (.var i) } .null isAddr := by
  rw [varNode, Node.leaf, Node.withSibling, finshTypeCheck_mk]
  rfl

attribute [local simp] CExpr.code

theorem checkedCode_node {e : CExpr} (hlong : ∀ x ∈ e.names, IsLong vars (place x))
    (sibling : Node) : checkedCode layout vars ((e.node place).withSibling sibling) false
      = e.code layout place ++ checkedCode layout vars sibling false := by
  induction e generalizing sibling with
  | literal n => exact checkedCode_valueNode layout vars (.inl rfl) _ sibling
  | var x => exact checkedCode_varNode layout vars (hlong x (by simp)) false sibling
  | plus e ih => exact ih hlong sibling
  | neg e ih =>
    have hdata := leafDataType_node vars hlong
    have he := ih hlong .null
    rw [CExpr.node_withSibling_null] at he
    have hzero := checkedCode_valueNode layout vars (.inr rfl) 0 (e.node place)
    rw [CExpr.node, checkedCode_sysNode, nodeCode_bin layout vars .sub _ rfl hdata]
    simp only [childIsAddr, hzero, he]
    simp
  | compl e ih =>
    have hdata := leafDataType_node vars hlong
    have hcode : (nodeCode layout vars
        (checkedInfo vars (.new .sysBitwise) ((e.node place).withSibling .null) false)
        (finshTypeCheck vars ((e.node place).withSibling .null) false .ok).1).1
          = [.bitwise .dword] := by
      show inWidth (leafDataType vars ((CExpr.compl e).node place).lead).1 _ = _
      rw [hdata]
      rfl
    rw [CExpr.node, checkedCode_sysNode]
    simp only [childIsAddr, hcode, ih hlong .null]
    simp
  | bin op l r ihl ihr =>
    have hdata := leafDataType_node vars hlong
    have hl := ihl (fun x hx => hlong x (by simp [hx])) (r.node place)
    have hr := ihr (fun x hx => hlong x (by simp [hx])) .null
    rw [CExpr.node_withSibling_null] at hr
    have haddr : childIsAddr op.nodeType false = false := by
      cases op <;> rfl
    rw [CExpr.node, checkedCode_sysNode, nodeCode_bin layout vars op _ rfl hdata]
    simp only [haddr, hl, hr]
    simp
  | assign x e ih =>
    have hx : IsLong vars (place x) := hlong x (by simp)
    have he := ih (fun y hy => hlong y (by simp [hy])) .null
    rw [CExpr.node_withSibling_null] at he
    have hvar := finshTypeCheck_varNode vars (place x) (e.node place) true .ok
    have hdata : (checkedInfo vars { NodeInfo.new .id with id := some (.var (place x)) } .null
        true).dataType = 3 := leafDataType_var vars hx
    have hcode : (nodeCode layout vars
        (checkedInfo vars (.new .sysAssign) ((varNode (place x)).withSibling (e.node place)) false)
        (finshTypeCheck vars ((varNode (place x)).withSibling (e.node place)) true .ok).1).1
          = [.st .dword, .ldValueStack .dword] := by
      have htype : (checkedInfo vars { NodeInfo.new .id with id := some (.var (place x)) } .null
          true).nodeType = .id := rfl
      simp only [nodeCode, checkedInfo, NodeInfo.new]
      rw [hvar, if_pos htype, hdata]
      rfl
    rw [CExpr.node, checkedCode_sysNode]
    simp only [childIsAddr, hcode, checkedCode_varNode layout vars hx, he]
    simp
  | pre op x =>
    have hx : IsLong vars (place x) := hlong x (by simp)
    have hdata := leafDataType_node vars hlong
    have haddr : childIsAddr op.preType false = true := by
      cases op <;> rfl
    have hvar := finshTypeCheck_varNode vars (place x) .null true .ok
    rw [CExpr.node, checkedCode_sysNode, haddr,
      (nodeCode_step layout vars op hdata (by rw [hvar]; rfl)).1 rfl, hvar,
      checkedCode_varNode layout vars hx]
    simp [checkedInfo]
  | post op x =>
    have hx : IsLong vars (place x) := hlong x (by simp)
    have hdata := leafDataType_node vars hlong
    have haddr : childIsAddr op.postType false = false := by
      cases op <;> rfl
    have hvar := finshTypeCheck_varNode vars (place x) .null false .ok
    rw [CExpr.node, checkedCode_sysNode, haddr,
      (nodeCode_step layout vars op hdata (by rw [hvar]; rfl)).2 rfl, hvar,
      checkedCode_varNode layout vars hx]
    simp [checkedInfo]

end

theorem toInt_ofNat_of_lt {n : Nat} (h : n < 2 ^ 31) : (BitVec.ofNat 32 n).toInt = n := by
  rw [toInt_ofNat', Int.bmod_def]
  omega

theorem toNat_of_toInt {b : BitVec 32} (hlo : 0 ≤ b.toInt) (hhi : b.toInt < 32) :
    b.toNat = b.toInt.toNat ∧ b.toNat < 32 := by
  have hb := b.isLt
  rw [toInt_eq_toNat_cond] at hlo hhi ⊢
  grind

def BinOp.eval32 (op : BinOp) (a b : BitVec 32) : BitVec 32 := op.eval .dword a b

theorem BinOp.toInt_eval32 {op : BinOp} {a b : BitVec 32} {v : Int}
    (h : op.value a.toInt b.toInt = some v) : (op.eval32 a b).toInt = v := by
  cases op with
  | add =>
    cases h
    exact toInt_add a b
  | sub =>
    cases h
    exact toInt_sub
  | mul =>
    cases h
    exact toInt_mul a b
  | div =>
    obtain ⟨hdiv, rfl⟩ := ite_some_none_eq_some.mp h
    refine toInt_sdiv_of_ne_or_ne a b ?_
    by_contra hboth
    obtain ⟨ha, hb⟩ := not_or.mp hboth
    rw [not_not.mp ha, not_not.mp hb] at hdiv
    exact hdiv.2 ⟨by decide, by decide⟩
  | mod =>
    obtain ⟨-, rfl⟩ := ite_some_none_eq_some.mp h
    exact toInt_srem a b
  | and | or | xor =>
    cases h
    simp only [onBits, ofInt_toInt]
    rfl
  | shl =>
    obtain ⟨⟨hlo, hhi⟩, rfl⟩ := ite_some_none_eq_some.mp h
    obtain ⟨hnat, hlt⟩ := toNat_of_toInt hlo hhi
    show (a <<< (b.toNat % 256)).toInt = _
    rw [Nat.mod_eq_of_lt (by omega), toInt_shiftLeft, Nat.shiftLeft_eq, wrap, ← hnat,
      toInt_eq_toNat_bmod a, Int.bmod_mul_bmod]
    simp
  | shr =>
    obtain ⟨⟨hlo, hhi⟩, rfl⟩ := ite_some_none_eq_some.mp h
    obtain ⟨hnat, hlt⟩ := toNat_of_toInt hlo hhi
    show (a.sshiftRight (b.toNat % 256)).toInt = _
    rw [Nat.mod_eq_of_lt (by omega), toInt_sshiftRight, hnat]

theorem toInt_not_eq (a : BitVec 32) : (~~~a).toInt = -a.toInt - 1 := by
  rw [toInt_eq_toNat_cond, toInt_eq_toNat_cond, toNat_not]
  split <;> split <;> omega

theorem Width.low_dword (slot : BitVec 32) : Width.dword.low slot = slot := setWidth_eq slot

theorem Width.setLow_dword (slot v : BitVec 32) : Width.dword.setLow slot v = v := by
  have hzero : slot >>> 32 <<< 32 = 0#32 := by
    apply eq_of_toNat_eq
    simp
  show (slot >>> 32 <<< 32) ||| v.setWidth 32 = v
  rw [hzero, zero_or, setWidth_eq]

theorem Vm.opBin_dword (op : BinOp) (vm : Vm) :
    vm.opBin op .dword = { vm.set 2 (op.eval32 (vm.top 2) (vm.top 1)) with sp := vm.sp - 1 } := by
  have hslot := (Width.setLow_dword (vm.top 2) _).trans
    (congrArg₂ op.eval32 (Width.low_dword (vm.top 2)) (Width.low_dword (vm.top 1)))
  exact congrArg (fun v => { vm.set 2 v with sp := vm.sp - 1 }) hslot

theorem Vm.opBw_dword (vm : Vm) : vm.opBw .dword = vm.set 1 (~~~vm.top 1) := by
  have hslot := (Width.setLow_dword (vm.top 1) _).trans
    (congrArg (fun v : BitVec 32 => ~~~v) (Width.low_dword (vm.top 1)))
  exact congrArg (vm.set 1) hslot

/-- The slots in front of the stack pointer, the topmost one first, above a base below which nothing
has changed. -/
def OnStack (stack0 : Int → BitVec 32) (base : Int) (stack : Int → BitVec 32) :
    (slots : List (BitVec 32)) → (sp : Int) → Prop
  | [], sp => sp = base ∧ ∀ k < base, stack k = stack0 k
  | slot :: slots, sp => stack (sp - 1) = slot ∧ OnStack stack0 base stack slots (sp - 1)

section
variable {stack0 stack stack' : Int → BitVec 32} {base sp : Int} {slots : List (BitVec 32)}
  {x y : BitVec 32} (call : CallFn) {vm : Vm} {mem : ByteMem}

theorem OnStack.congr (h : OnStack stack0 base stack slots sp)
    (hstack : ∀ k < sp, stack' k = stack k) : OnStack stack0 base stack' slots sp := by
  induction slots generalizing sp with
  | nil =>
    refine ⟨h.1, ?_⟩
    intro k hk
    have hsp := h.1
    rw [hstack k (by omega)]
    exact h.2 k hk
  | cons slot slots ih =>
    refine ⟨?_, ih h.2 fun k hk => hstack k (by omega)⟩
    rw [hstack (sp - 1) (by omega)]
    exact h.1

theorem OnStack.push (h : OnStack stack0 base stack slots sp) (v : BitVec 32) :
    OnStack stack0 base (update stack sp v) (v :: slots) (sp + 1) := by
  have hsp : sp + 1 - 1 = sp := by omega
  refine ⟨?_, ?_⟩
  · rw [hsp, update_self]
  · rw [hsp]
    refine h.congr ?_
    intro k hk
    exact update_of_ne (by omega) _ _

/-- The slots and the memory of the machine. -/
structure Vm.Has (stack0 : Int → BitVec 32) (base : Int) (vm : Vm) (slots : List (BitVec 32))
    (mem : ByteMem) : Prop where
  slots : OnStack stack0 base vm.stack slots vm.sp
  mem : vm.mem = mem

theorem Vm.Has.ld (h : vm.Has stack0 base slots mem) (v : BitVec 32) :
    ((Instr.ld .dword v).step call vm).Has stack0 base (v :: slots) mem := by
  refine ⟨?_, h.mem⟩
  simp only [Instr.step, Instr.exec, Vm.opLd, Vm.push, Vm.set, Vm.top, Width.low_dword,
    Width.setLow_dword, Int.sub_zero]
  exact h.slots.push v

theorem Vm.Has.ldValue (h : vm.Has stack0 base slots mem) (addr : BitVec 32) :
    ((Instr.ldValue .dword addr).step call vm).Has stack0 base
      (BitVec.ofNat 32 (mem.readLE 4 addr.toNat) :: slots) mem := by
  refine ⟨?_, h.mem⟩
  simp only [Instr.step, Instr.exec, Vm.opLdValue, Vm.push, Vm.set, Vm.top, Int.sub_zero]
  rw [← h.mem]
  have hload : vm.load .dword addr = BitVec.ofNat 32 (vm.mem.readLE 4 addr.toNat) := rfl
  rw [hload, Width.setLow_dword]
  exact h.slots.push _

theorem Vm.Has.bin (h : vm.Has stack0 base (y :: x :: slots) mem) (op : BinOp) :
    ((Instr.bin op .dword).step call vm).Has stack0 base (op.eval32 x y :: slots) mem := by
  obtain ⟨⟨hy, hx, hslots⟩, hmem⟩ := h
  refine ⟨?_, hmem⟩
  have hsp : vm.sp - 1 - 1 = vm.sp - 2 := by omega
  rw [hsp] at hx hslots
  simp only [Instr.step, Instr.exec, Vm.opBin_dword, Vm.set, Vm.top, hx, hy]
  have hpush := hslots.push (op.eval32 x y)
  rwa [show vm.sp - 2 + 1 = vm.sp - 1 by omega] at hpush

section
variable (h : vm.Has stack0 base (x :: slots) mem)
include h

theorem Vm.Has.replace (v : BitVec 32) :
    OnStack stack0 base (update vm.stack (vm.sp - 1) v) (v :: slots) vm.sp := by
  have hpush := h.slots.2.push v
  rwa [show vm.sp - 1 + 1 = vm.sp by omega] at hpush

theorem Vm.Has.bitwise :
    ((Instr.bitwise .dword).step call vm).Has stack0 base (~~~x :: slots) mem := by
  refine ⟨?_, h.mem⟩
  have hx := h.slots.1
  simp only [Instr.step, Instr.exec, Vm.opBw_dword, Vm.set, Vm.top, hx]
  exact h.replace _

theorem Vm.Has.ldValueStack : ((Instr.ldValueStack .dword).step call vm).Has stack0 base
      (BitVec.ofNat 32 (mem.readLE 4 x.toNat) :: slots) mem := by
  refine ⟨?_, h.mem⟩
  have hx := h.slots.1
  have hload : vm.load .dword x = BitVec.ofNat 32 (mem.readLE 4 x.toNat) := by
    rw [← h.mem]
    rfl
  simp only [Instr.step, Instr.exec, Vm.opLdValueStack, Vm.set, Vm.top, hx]
  rw [hload, Width.setLow_dword]
  exact h.replace _

end

theorem Vm.Has.st (h : vm.Has stack0 base (y :: x :: slots) mem) :
    ((Instr.st .dword).step call vm).Has stack0 base (x :: slots)
      (mem.writeLE 4 x.toNat y.toNat) := by
  obtain ⟨⟨hy, hx, hslots⟩, hmem⟩ := h
  refine ⟨⟨hx, hslots⟩, ?_⟩
  have hsp : vm.sp - 1 - 1 = vm.sp - 2 := by omega
  rw [hsp] at hx
  simp only [Instr.step, Instr.exec, Vm.opSt, Vm.top, Width.low_dword, hx, hy, hmem]
  rfl

theorem Vm.Has.pop (h : vm.Has stack0 base (x :: slots) mem) :
    (Instr.pop.step call vm).Has stack0 base slots mem := ⟨h.slots.2, h.mem⟩

theorem Vm.Has.noOps (h : vm.Has stack0 base slots mem) (n : Nat) :
    (runInstrs call (List.replicate n .noOp) vm).Has stack0 base slots mem := by
  induction n generalizing vm with
  | zero => exact h
  | succ n ih =>
    rw [List.replicate_succ, runInstrs_cons]
    exact ih ⟨h.slots, h.mem⟩

end

namespace Layout
variable (layout : Layout)

def varInt (mem : ByteMem) (i : Nat) : Int :=
  (BitVec.ofNat 32 (mem.readLE 4 (layout.varValue i))).toInt

/-- The variables hold what the store says, and nothing else has changed. -/
structure StoreIs (mem0 mem : ByteMem) (σ : Nat → Int) : Prop where
  value : ∀ i < finshVariableMax, layout.varInt mem i = σ i
  frame : ∀ a, (∀ i < finshVariableMax, a < layout.varValue i ∨ layout.varValue i + 4 ≤ a) →
    mem a = mem0 a

variable {layout} {mem0 mem : ByteMem} {σ : Nat → Int} {i : Nat}

theorem toNat_identValue (hi : i < finshVariableMax) :
    (layout.identValue (some (.var i))).toNat = layout.varValue i := by
  have hfits := layout.fits
  rw [finshVariableMax] at hi hfits
  show (BitVec.ofNat 32 (layout.varValue i)).toNat = _
  rw [toNat_ofNat, Nat.mod_eq_of_lt]
  rw [varValue]
  omega

theorem StoreIs.toInt_readLE (h : layout.StoreIs mem0 mem σ) (hi : i < finshVariableMax) :
    (BitVec.ofNat 32 (mem.readLE 4 (layout.identValue (some (.var i))).toNat)).toInt = σ i := by
  rw [toNat_identValue hi]
  exact h.value i hi

theorem StoreIs.update (h : layout.StoreIs mem0 mem σ) (hi : i < finshVariableMax) (v : BitVec 32) :
    layout.StoreIs mem0 (mem.writeLE 4 (layout.identValue (some (.var i))).toNat v.toNat)
      (update σ i v.toInt) := by
  rw [toNat_identValue hi]
  constructor
  · intro j hj
    by_cases hji : j = i
    · rw [hji, update_self, varInt, readLE_writeLE_same,
        show (256 : Nat) ^ 4 = 2 ^ 32 from rfl, Nat.mod_eq_of_lt v.isLt, ofNat_toNat,
        setWidth_eq]
    · rw [update_of_ne hji, varInt, readLE_writeLE_of_disjoint _ ?_]
      · exact h.value j hj
      · simp only [varValue]
        omega
  · intro a ha
    rw [writeLE_apply_of_disjoint _ _ _ _ _ (ha i hi)]
    exact h.frame a ha

end Layout

/-- The literals have fewer than 32 bits. -/
def CExpr.Small : CExpr → Prop
  | literal n => n < 2 ^ 31
  | plus e | neg e | compl e => e.Small
  | bin _ l r => l.Small ∧ r.Small
  | assign _ e => e.Small
  | _ => True

theorem Derives.small {k : Nat} {e : CExpr} {ts : List CToken} (h : Derives k e ts) : e.Small := by
  induction h with
  | literal h => exact h
  | plus h ih | neg h ih | compl h ih | up h _ ih => exact ih
  | bin op _ hl hr ihl ihr => exact ⟨ihl, ihr⟩
  | assign x h ih => exact ih
  | _ => trivial

section
variable {layout : Layout} {place : List Byte → Nat} {stack0 : Int → BitVec 32} {base : Int}
  (call : CallFn) {mem0 : ByteMem}

variable {slots : List (BitVec 32)}

theorem Vm.Has.stepVar {vm : Vm} {mem : ByteMem} {σ : Nat → Int} {i : Nat}
    (h : vm.Has stack0 base (layout.identValue (some (.var i)) :: slots) mem)
    (hstore : layout.StoreIs mem0 mem σ) (hi : i < finshVariableMax) (op : StepOp) :
    ∃ mem', (runInstrs call [.ldValue .dword (layout.identValue (some (.var i))), .ld .dword 1,
        .bin op.binOp .dword, .st .dword] vm).Has stack0 base
          (layout.identValue (some (.var i)) :: slots) mem' ∧
      layout.StoreIs mem0 mem' (update σ i (op.value (σ i))) := by
  have hstep := ((h.ldValue call (layout.identValue (some (.var i)))).ld call 1).bin call op.binOp
  refine ⟨_, hstep.st call, ?_⟩
  have hset := hstore.update hi
    (op.binOp.eval32 (.ofNat 32 (mem.readLE 4 (layout.identValue (some (.var i))).toNat)) 1)
  rwa [BinOp.toInt_eval32] at hset
  rw [hstore.toInt_readLE hi]
  cases op <;> rfl

/-- The code of an expression leaves its value on the stack, and its store in the memory. -/
theorem CExpr.run_code {e : CExpr} (hsmall : e.Small)
    (hplace : ∀ x ∈ e.names, place x < finshVariableMax)
    {σ σ' : Nat → Int} {v : Int} (heval : e.eval place σ = some (v, σ')) {vm : Vm} {mem : ByteMem}
    (hvm : vm.Has stack0 base slots mem) (hstore : layout.StoreIs mem0 mem σ) :
    ∃ slot mem', (runInstrs call (e.code layout place) vm).Has stack0 base (slot :: slots) mem' ∧
      slot.toInt = v ∧ layout.StoreIs mem0 mem' σ' := by
  induction e generalizing σ σ' v vm slots mem with
  | literal n =>
    cases heval
    exact ⟨_, _, hvm.ld call _, toInt_ofNat_of_lt hsmall, hstore⟩
  | var x =>
    cases heval
    have hx := hplace x (by simp [names])
    exact ⟨_, _, hvm.ldValue call _, hstore.toInt_readLE hx, hstore⟩
  | plus e ih => exact ih hsmall hplace heval hvm hstore
  | neg e ih =>
    obtain ⟨⟨a, σ1⟩, he, ⟨⟩⟩ := bind_eq_some_iff.mp heval
    obtain ⟨slot, mem', hhas, rfl, hstore'⟩ := ih hsmall hplace he (hvm.ld call 0) hstore
    refine ⟨BinOp.sub.eval32 0 slot, mem', ?_, ?_, hstore'⟩
    · rw [code, runInstrs_append, runInstrs_append]
      exact hhas.bin call .sub
    · apply BinOp.toInt_eval32
      simp [BinOp.value]
  | compl e ih =>
    obtain ⟨⟨a, σ1⟩, he, ⟨⟩⟩ := bind_eq_some_iff.mp heval
    obtain ⟨slot, mem', hhas, rfl, hstore'⟩ := ih hsmall hplace he hvm hstore
    refine ⟨~~~slot, mem', ?_, toInt_not_eq slot, hstore'⟩
    rw [code, runInstrs_append]
    exact hhas.bitwise call
  | bin op l r ihl ihr =>
    simp only [eval, bind_eq_bind, bind_eq_some_iff] at heval
    obtain ⟨⟨a, σ1⟩, hl, ⟨b, σ2⟩, hr, c, hc, hv⟩ := heval
    cases hv
    obtain ⟨slot, mem1, hhas, rfl, hstore1⟩ :=
      ihl hsmall.1 (fun x hx => hplace x (by simp [names, hx])) hl hvm hstore
    obtain ⟨slot', mem2, hhas', rfl, hstore2⟩ :=
      ihr hsmall.2 (fun x hx => hplace x (by simp [names, hx])) hr hhas hstore1
    refine ⟨op.eval32 slot slot', mem2, ?_, BinOp.toInt_eval32 hc, hstore2⟩
    rw [code, runInstrs_append, runInstrs_append]
    exact hhas'.bin call op
  | assign x e ih =>
    obtain ⟨⟨a, σ1⟩, he, ⟨⟩⟩ := bind_eq_some_iff.mp heval
    have hx := hplace x (by simp [names])
    obtain ⟨slot, mem', hhas, rfl, hstore'⟩ :=
      ih hsmall (fun y hy => hplace y (by simp [names, hy])) he (hvm.ld call _) hstore
    have hset := hstore'.update hx slot
    refine ⟨_, _, ?_, (hset.toInt_readLE hx).trans (update_self ..), hset⟩
    rw [code, runInstrs_append, runInstrs_append]
    exact (hhas.st call).ldValueStack call
  | pre op x =>
    cases heval
    have hx := hplace x (by simp [names])
    obtain ⟨mem', hhas, hset⟩ := (hvm.ld call _).stepVar call hstore hx op
    exact ⟨_, mem', hhas.ldValueStack call, (hset.toInt_readLE hx).trans (update_self ..), hset⟩
  | post op x =>
    cases heval
    have hx := hplace x (by simp [names])
    obtain ⟨mem', hhas, hset⟩ := ((hvm.ldValue call _).ld call _).stepVar call hstore hx op
    exact ⟨_, mem', hhas.pop call, hstore.toInt_readLE hx, hset⟩

end

theorem length_textCode_le {codes : List (List Instr)}
    (hfits : (writtenBytes codes).length ≤ finshTextMax) :
    (textCode codes).length ≤ finshTextMax := by
  rw [← codeSize_textCode hfits]
  generalize textCode codes = code
  induction code with
  | nil => exact Nat.le_refl 0
  | cons i code ih =>
    have hi := i.size_pos
    rw [codeSize_cons, List.length_cons]
    omega

theorem CExpr.statements_node (place : List Byte → Nat) (e : CExpr) :
    (e.node place).statements = [e.node place] := by
  induction e with
  | plus e ih => exact ih
  | _ => rfl

/-- The variable that a name stands for. -/
def varPlace (vars : List Var) (x : List Byte) : Nat := (finshVarLookup vars x).getD 0

/-- A line that is an integer expression, that the parser accepts and whose code fits, is evaluated
as in C: its value is at the bottom of the stack, and the variables hold its store. -/
theorem finsh_evaluates_expression {H : Type} {env : Env H} {self self' : Parser H} {fuel : Nat}
    {line : List Byte} {e : CExpr} {ts : List CToken} (hderives : Derives 7 e ts)
    (hspells : Spells (ts ++ [.punct .semicolon]) line)
    (hdeclared : ∀ x ∈ e.names, ∃ i, finshVarLookup self.vars x = some i ∧ IsLong self.vars i)
    (htable : self.vars.length = finshVariableMax)
    (hparse : finshParserRun env fuel self.flush line = .ok self') (herrno : self'.errno = .ok)
    {layout : Layout}
    (hfits : (writtenBytes (finshCompilerRun layout self'.vars self'.root self'.errno).1).length
      ≤ finshTextMax)
    (call : CallFn) (stack : Int → BitVec 32) (mem : ByteMem) {v : Int} {σ : Nat → Int}
    (heval : e.eval (varPlace self.vars) (layout.varInt mem) = some (v, σ)) :
    ∃ vm, finshVmRun (textSegment (finshCompilerRun layout self'.vars self'.root self'.errno).1)
        call stack mem = some vm ∧
      (finshStackBottom vm).toInt = v ∧ layout.StoreIs mem vm.mem σ := by
  have hplace : ∀ x ∈ e.names, finshVarLookup self.vars x = some (varPlace self.vars x) ∧
      IsLong self.vars (varPlace self.vars x) ∧ varPlace self.vars x < finshVariableMax := by
    intro x hx
    obtain ⟨i, hi, hlong⟩ := hdeclared x hx
    have hvar : varPlace self.vars x = i := by
      rw [varPlace, hi]
      rfl
    rw [hvar, ← htable]
    exact ⟨hi, hlong, (List.findIdx?_eq_some_iff_findIdx_eq.mp hi).1⟩
  obtain ⟨hroot, hvars⟩ := finshParserRun_expr env fuel hderives hspells
    (fun x hx => (hplace x hx).1) rfl self' hparse herrno
  -- there is one statement, and its code is that of the expression
  have hcodes : (finshCompilerRun layout self'.vars self'.root self'.errno).1
      = [e.code layout (varPlace self.vars)] := by
    rw [hroot, hvars, finshCompilerRun_fst, CExpr.statements_node, List.map_singleton]
    have hcode := checkedCode_node layout self.vars (fun x hx => (hplace x hx).2.1) .null
    rw [CExpr.node_withSibling_null, checkedCode_null, List.append_nil] at hcode
    rw [hcode]
  rw [hcodes] at hfits ⊢
  have hstart : (vmStart stack mem).Has stack 0 [] mem := ⟨⟨rfl, fun k _ => rfl⟩, rfl⟩
  have hstore : layout.StoreIs mem mem (layout.varInt mem) := ⟨fun i _ => rfl, fun a _ => rfl⟩
  obtain ⟨slot, mem', hhas, hslot, hstore'⟩ := CExpr.run_code call hderives.small
    (fun x hx => (hplace x hx).2.2) heval hstart hstore
  have hrun := vmSteps_textSegment call hfits stack mem finshTextMax
  rw [List.take_of_length_le (length_textCode_le hfits), textCode, joinStatements, runInstrs_append]
    at hrun
  have hend := hhas.noOps call
    (finshTextMax - (writtenBytes [e.code layout (varPlace self.vars)]).length)
  refine ⟨_, hrun, ?_, ?_⟩
  · obtain ⟨hbottom, hsp, -⟩ := hend.slots
    rw [hsp] at hbottom
    rw [finshStackBottom, hbottom, hslot]
  · rw [hend.mem]
    exact hstore'

attribute [local simp] CExpr.names

/-- `x=x+++2;` with `x` zero. -/
theorem finsh_evaluates_expression_step :
    ∃ self', finshParserRun sampleEnv 60 (sampleParser .int).flush
        (['x', '=', 'x', '+', '+', '+', '2', ';'].map Char.byte) = .ok self' ∧
      self'.errno = .ok ∧ ∀ call stack, ∃ vm,
        finshVmRun (textSegment (finshCompilerRun sampleLayout self'.vars self'.root self'.errno).1)
          call stack (fun _ => 0) = some vm ∧
        (finshStackBottom vm).toInt = 2 ∧ sampleLayout.varInt vm.mem 0 = 2 := by
  let e : CExpr := .assign ['x'.byte] (.bin .add (.post .inc ['x'.byte]) (.literal 2))
  let ts : List CToken := [.identifier ['x'.byte], .punct .assign, .identifier ['x'.byte],
    .punct .inc, .punct .add, .literal ['2'.byte]]
  have hderives : Derives 7 e ts := by
    refine .assign _ ?_
    iterate 5 refine .up ?_ (by decide)
    exact .bin .add rfl (.up (.up (.post .inc ['x'.byte]) (by decide)) (by decide))
      (.up (@Derives.literal ['2'.byte] (by decide)) (by decide))
  have hspells : Spells (ts ++ [.punct .semicolon])
      (['x', '=', 'x', '+', '+', '+', '2', ';'].map Char.byte) := by
    have hcons : ∀ {t us rest}, t.Valid → t.Ends rest → Spells us rest →
        Spells (t :: us) ([] ++ (t.text ++ rest)) := fun hvalid => .cons (by simp) hvalid
    have hname : (CToken.identifier ['x'.byte]).Valid :=
      ⟨⟨_, _, rfl, by decide⟩, by decide, by decide⟩
    have hpunct : ∀ {p c cs}, punctText p = c :: cs → (CToken.punct p).Valid := by
      simp +contextual [CToken.Valid]
    exact hcons hname (by rintro c ⟨⟩; rfl) <| hcons (hpunct rfl) trivial <|
      hcons hname (by rintro c ⟨⟩; rfl) <| hcons (hpunct rfl) trivial <|
      hcons (hpunct rfl) (by unfold CToken.Ends; decide) <|
      hcons ⟨by decide, .inr ⟨_, _, rfl, by decide⟩⟩ (by rintro c ⟨⟩; rfl) <|
      hcons (hpunct rfl) trivial <| .nil (by simp)
  refine Except.exists_ok (P := fun self => self.errno = .ok ∧
    (writtenBytes (finshCompilerRun sampleLayout self.vars self.root self.errno).1).length
      ≤ finshTextMax) (by decide +kernel) fun self' hparse hvalue => ?_
  obtain ⟨herrno, hfits⟩ := hvalue
  refine ⟨herrno, fun call stack => ?_⟩
  have hdeclared : ∀ x ∈ e.names, ∃ i, finshVarLookup (sampleParser .int).vars x = some i ∧
      IsLong (sampleParser .int).vars i := by
    intro x hx
    have hname : x = ['x'.byte] := by simpa [e] using hx
    rw [hname]
    exact ⟨0, by decide, .inl rfl⟩
  obtain ⟨vm, hrun, hbottom, hstore⟩ :=
    finsh_evaluates_expression hderives hspells hdeclared rfl hparse
    herrno hfits call stack (fun _ => 0) rfl
  exact ⟨vm, hrun, hbottom.trans (by decide), (hstore.value 0 (by decide)).trans (by decide)⟩

end RtThread.Finsh
