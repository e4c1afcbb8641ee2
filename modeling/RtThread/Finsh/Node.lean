import RtThread.Finsh.Token

/-!
# Symbols and syntax trees

The variables and symbol tables of `finsh_var.c` and `finsh_vm.c`, and the nodes of `finsh_node.c`,
with a first child and a next sibling. No node is shared between two places, so the tree is a value,
and the node table is the number of its entries in use.
-/

namespace RtThread.Finsh
open Buffer

def finshNameMax : Nat := 16

def finshNodeMax : Nat := 16

def finshVariableMax : Nat := 8

/-- `enum finsh_type` (`finsh.h:416-433`). -/
inductive FinshType
  | unknown
  | void
  | voidp
  | char
  | uchar
  | charp
  | short
  | ushort
  | shortp
  | int
  | uint
  | intp
  | long
  | ulong
  | longp
  deriving DecidableEq

def FinshType.code : FinshType → Nat
  | unknown => 0
  | void => 1
  | voidp => 2
  | char => 3
  | uchar => 4
  | charp => 5
  | short => 6
  | ushort => 7
  | shortp => 8
  | int => 9
  | uint => 10
  | intp => 11
  | long => 12
  | ulong => 13
  | longp => 14

/-- The name and the type of a `struct finsh_var` (`finsh_var.h:37-53`). The value is in memory. -/
structure Var where
  name : List Byte
  type : FinshType
  deriving DecidableEq

variable (vars : List Var) (symbols : Symbols) (name : List Byte)

/-- `finsh_var_insert`: the table with the new variable. -/
def finshVarInsert (type : FinshType) : Option (List Var) :=
  if vars.any fun var => strncmp var.name name finshNameMax = 0 then none
  else
    match vars.findIdx? (·.type = .unknown) with
    | none => none
    | some empty => some (vars.set empty { name := name.take finshNameMax, type })

def finshVarLookup : Option Nat :=
  vars.findIdx? fun var => strncmp var.name name finshNameMax = 0

/-- `struct finsh_sysvar`, and the address of the structure itself. -/
structure Sysvar where
  name : List Byte
  type : FinshType
  var : BitVec 32
  addr : BitVec 32
  deriving DecidableEq

/-- `struct finsh_syscall`, and the address of the structure itself. -/
structure Syscall where
  name : List Byte
  func : BitVec 32
  addr : BitVec 32
  deriving DecidableEq

/-- The tables that the linker makes, and the lists of what was appended to them. -/
structure Symbols where
  sysvarTable : List Sysvar
  globalSysvarList : List Sysvar
  syscallTable : List Syscall
  globalSyscallList : List Syscall

def finshSysvarLookup : Option Sysvar :=
  (symbols.sysvarTable.find? (·.name = name)).or
    (symbols.globalSysvarList.find? fun item => strncmp item.name name name.length = 0)

def finshSyscallLookup : Option Syscall :=
  (symbols.syscallTable.find? (·.name = name)).or
    (symbols.globalSyscallList.find? fun item => strncmp item.name name name.length = 0)

/-- `FINSH_NODE_*` (`finsh_node.h:33-63`). -/
inductive NodeType
  | unknown
  | id
  | valueChar
  | valueInt
  | valueLong
  | valueString
  | valueNull
  | sysAdd
  | sysSub
  | sysMul
  | sysDiv
  | sysMod
  | sysAnd
  | sysOr
  | sysXor
  | sysBitwise
  | sysShl
  | sysShr
  | sysFunc
  | sysAssign
  | sysCast
  | sysPreinc
  | sysPredec
  | sysInc
  | sysDec
  | sysGetvalue
  | sysGetaddr
  | sysNull
  deriving DecidableEq

/-- What the union `id` of a node points to. The constructor is the kind in `idtype`. -/
inductive Ident
  | var (i : Nat)
  | sysvar (sysvar : Sysvar)
  | syscall (syscall : Syscall)
  deriving DecidableEq

/-- The fields of `struct finsh_node` (`finsh.h:380-404`) other than its links. `address` is the bit
`FINSH_IDTYPE_ADDRESS` of `idtype`. -/
structure NodeInfo where
  nodeType : NodeType
  dataType : Nat
  address : Bool
  value : BitVec 32
  id : Option Ident
  deriving DecidableEq

/-- A node as `finsh_node_allocate` leaves it in a table of zeros. -/
def NodeInfo.new (nodeType : NodeType) : NodeInfo :=
  { nodeType, dataType := 0, address := false, value := 0, id := none }

/-- A pointer to a node, with what it leads to. -/
inductive Node
  | null
  | mk (info : NodeInfo) (child sibling : Node)
  deriving DecidableEq

namespace Node

def leaf (info : NodeInfo) : Node := mk info null null

def info : Node → NodeInfo
  | null => .new .unknown
  | mk info _ _ => info

def sibling : Node → Node
  | null => null
  | mk _ _ sibling => sibling

def withSibling (node sibling : Node) : Node :=
  match node with
  | null => null
  | mk info child _ => mk info child sibling

def withDataType (node : Node) (dataType : Nat) : Node :=
  match node with
  | null => null
  | mk info child sibling => mk { info with dataType } child sibling

/-- Sets the sibling of the node that is `k` siblings behind the first one. -/
def setSibling : (node : Node) → (k : Nat) → (sibling : Node) → Node
  | null, _, _ => null
  | mk info child _, 0, sibling => mk info child sibling
  | mk info child next, k + 1, sibling => mk info child (next.setSibling k sibling)

def chainLength : Node → Nat
  | null => 0
  | mk _ _ sibling => sibling.chainLength + 1

end Node
end RtThread.Finsh
