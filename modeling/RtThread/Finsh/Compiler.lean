import RtThread.Finsh.Vm

/-!
# The compiler

`finsh_compiler.c`: a first pass marks the nodes that stand for addresses and computes the data
types from the first children up, a second one emits the code of a node behind that of its children.
-/

namespace RtThread.Finsh

/-- `FINSH_DATA_TYPE_BYTE`, `FINSH_DATA_TYPE_WORD` and `FINSH_DATA_TYPE_DWORD` name a width. -/
def Width.ofDataType : Nat → Option Width
  | 1 => some .byte
  | 2 => some .word
  | 3 => some .dword
  | _ => none

/-- Where `global_variable` lies. A `struct finsh_var` takes 24 bytes. -/
structure Layout where
  globalVariable : Nat
  fits : globalVariable + 24 * finshVariableMax ≤ 2 ^ 32

namespace Layout
variable (layout : Layout)

/-- `&global_variable[i].value`. -/
def varValue (i : Nat) : Nat := layout.globalVariable + 24 * i + 20

/-- `&id.var->value`, whatever the union `id` points to. -/
def identValue : Option Ident → BitVec 32
  | some (.var i) => BitVec.ofNat 32 (layout.varValue i)
  | some (.sysvar sysvar) => sysvar.addr + 20
  | some (.syscall syscall) => syscall.addr + 20
  | none => 20

end Layout

/-- The data type of a variable (`finsh_compiler.c:805-835` and `846-876`). -/
def dataTypeOf : FinshType → Option Nat
  | .void => some 0
  | .char | .uchar => some 1
  | .short | .ushort => some 2
  | .unknown => none
  | _ => some 3

def varType (vars : List Var) (i : Nat) : FinshType := (vars[i]?.map (·.type)).getD .unknown

section
variable (vars : List Var)

/-- The data type of a node without children, and the error that is set. -/
def leafDataType (info : NodeInfo) : Nat × Option FinshError :=
  let ofType type :=
    match dataTypeOf type with
    | some dataType => (dataType, none)
    | none => (info.dataType, some .unknownType)
  match info.nodeType with
  | .id =>
    match info.id with
    | some (.var i) => ofType (varType vars i)
    | some (.sysvar sysvar) => ofType sysvar.type
    | _ => (info.dataType, none)
  | .valueChar => (1, none)
  | .valueInt | .valueLong | .valueString | .valueNull => (3, none)
  | _ => (info.dataType, none)

/-- Whether the first child is checked as an address. -/
def childIsAddr (nodeType : NodeType) (isAddr : Bool) : Bool :=
  match nodeType with
  | .sysAssign | .sysPreinc | .sysPredec | .sysGetaddr => true
  | .sysGetvalue => false
  | _ => isAddr

/-- The bit `FINSH_IDTYPE_ADDRESS` after the check. -/
def markAddr (info : NodeInfo) (isAddr : Bool) : Bool :=
  match info.id with
  | some (.syscall _) => info.address
  | _ => info.address || isAddr

def finshTypeCheck : (node : Node) → (isAddr : Bool) → (errno : FinshError) → Node × FinshError
  | .null, _, errno => (.null, errno)
  | .mk info child sibling, isAddr, errno =>
    let (child, errno) := finshTypeCheck child (childIsAddr info.nodeType isAddr) errno
    let (sibling, errno) := finshTypeCheck sibling false errno
    let address := markAddr info isAddr
    if child ≠ .null then
      (.mk { info with address, dataType := child.info.dataType } child sibling, errno)
    else
      let (dataType, error) := leafDataType vars info
      (.mk { info with address, dataType } child sibling, error.getD errno)

end

/-- The width in which a variable is loaded (`:60-115` and `127-189`). -/
def loadWidth : FinshType → Option Width
  | .char | .uchar => some .byte
  | .short | .ushort => some .word
  | .unknown | .void | .voidp => none
  | _ => some .dword

section
variable (layout : Layout) (vars : List Var)

def loadVar (type : FinshType) (addr : BitVec 32) (address : Bool) : List Instr :=
  match loadWidth type with
  | none => []
  | some w => if address then [.ld .dword addr] else [.ldValue w addr]

def loadIdent (info : NodeInfo) : List Instr :=
  match info.id with
  | some (.syscall syscall) => [.ld .dword syscall.func]
  | some (.sysvar sysvar) => loadVar sysvar.type sysvar.var info.address
  | some (.var i) => loadVar (varType vars i) (layout.identValue info.id) info.address
  | none => []

/-- An operation in the width of a data type. -/
def inWidth (dataType : Nat) (code : Width → List Instr) : List Instr :=
  match Width.ofDataType dataType with
  | some w => code w
  | none => []

/-- The store of an assignment, and the error for a data type without width. -/
def storeCode (dataType : Nat) : List Instr × Option FinshError :=
  match Width.ofDataType dataType with
  | some w => ([.st w, .ldValueStack w], none)
  | none => ([], some .unknownType)

/-- `FINSH_NODE_SYS_PREINC` and `FINSH_NODE_SYS_PREDEC`. The result is loaded as a `long`. -/
def preStep (op : BinOp) (addr : BitVec 32) (w : Width) : List Instr :=
  [.ldValue w addr, .ld w 1, .bin op w, .st w, .ldValueStack .dword]

/-- `FINSH_NODE_SYS_INC` and `FINSH_NODE_SYS_DEC`. -/
def postStep (op : BinOp) (addr : BitVec 32) (w : Width) : List Instr :=
  [.ld .dword addr, .ldValue w addr, .ld w 1, .bin op w, .st w, .pop]

/-- The code of a step, if the operand is an identifier. -/
def stepCode (code : BitVec 32 → Width → List Instr) (info : NodeInfo) (child : Node) :
    List Instr :=
  if child.info.nodeType = .id then inWidth info.dataType (code (layout.identValue child.info.id))
  else []

/-- The code of a node behind that of its children (`:51-750`), and the error that
is set. -/
def nodeCode (info : NodeInfo) (child : Node) : List Instr × Option FinshError :=
  match info.nodeType with
  | .id => (loadIdent layout vars info, none)
  | .valueChar => ([.ld .byte info.value], none)
  | .valueInt | .valueLong | .valueNull | .valueString => ([.ld .dword info.value], none)
  | .sysAdd => (inWidth info.dataType fun w => [.bin .add w], none)
  | .sysSub => (inWidth info.dataType fun w => [.bin .sub w], none)
  | .sysMul => (inWidth info.dataType fun w => [.bin .mul w], none)
  | .sysDiv => (inWidth info.dataType fun w => [.bin .div w], none)
  | .sysMod => (inWidth info.dataType fun w => [.bin .mod w], none)
  | .sysAnd => (inWidth info.dataType fun w => [.bin .and w], none)
  | .sysOr => (inWidth info.dataType fun w => [.bin .or w], none)
  | .sysXor => (inWidth info.dataType fun w => [.bin .xor w], none)
  | .sysBitwise => (inWidth info.dataType fun w => [.bitwise w], none)
  | .sysShl => (inWidth info.dataType fun w => [.bin .shl w], none)
  | .sysShr => (inWidth info.dataType fun w => [.bin .shr w], none)
  | .sysFunc =>
    if child ≠ .null then ([.syscall (BitVec.ofNat 8 child.sibling.chainLength)], none)
      else ([], none)
  | .sysAssign =>
    if child.info.nodeType = .id then storeCode child.info.dataType
    else if child.info.nodeType = .sysGetvalue then storeCode (child.info.dataType &&& 0x0F)
    else ([], none)
  | .sysPreinc => (stepCode layout (preStep .add) info child, none)
  | .sysPredec => (stepCode layout (preStep .sub) info child, none)
  | .sysInc => (stepCode layout (postStep .add) info child, none)
  | .sysDec => (stepCode layout (postStep .sub) info child, none)
  | .sysNull => ([.noOp, .noOp, .noOp, .noOp], none)
  | .sysGetvalue =>
    if info.address then ([], none) else (inWidth info.dataType fun w => [.ldValueStack w], none)
  | .sysGetaddr => ([], none)
  | .unknown | .sysCast => ([], some .unknownNode)

def finshCompile : (node : Node) → (errno : FinshError) → List Instr × FinshError
  | .null, errno => ([], errno)
  | .mk info child sibling, errno =>
    let (childCode, errno) := finshCompile child errno
    let (code, error) := nodeCode layout vars info child
    let (siblingCode, errno) := finshCompile sibling (error.getD errno)
    (childCode ++ code ++ siblingCode, errno)

/-- The loop of `finsh_compiler_run`: the code of each statement. -/
def compileStatements : (node : Node) → (errno : FinshError) → List (List Instr) × FinshError
  | .null, errno => ([], errno)
  | .mk info child sibling, errno =>
    let (code, errno) := finshCompile layout vars (.mk info child .null) errno
    let (codes, errno) := compileStatements sibling errno
    (code :: codes, errno)

/-- `finsh_compiler_run`: the code of each statement. -/
def finshCompilerRun (node : Node) (errno : FinshError) : List (List Instr) × FinshError :=
  compileStatements layout vars (finshTypeCheck vars node false errno).1
    (finshTypeCheck vars node false errno).2

end

/-- The code of a line: a `POP` stands between two statements. -/
def joinStatements : List (List Instr) → List Instr
  | [] => []
  | [code] => code
  | code :: codes => code ++ [.pop] ++ joinStatements codes

/-- The bytes that are written from the start of `text_segment` on. -/
def writtenBytes (codes : List (List Instr)) : List Byte :=
  (joinStatements codes).flatMap Instr.encode

/-- `text_segment`, which was cleared before. -/
def textSegment (codes : List (List Instr)) : List Byte :=
  writtenBytes codes ++ List.replicate (finshTextMax - (writtenBytes codes).length) 0

end RtThread.Finsh
