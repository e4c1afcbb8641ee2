import RtThread.Finsh.Node

/-!
# The parser

The recursive descent of `finsh_parser.c`, with the constructors of `finsh_node.c`. Each function is
given the functions that it calls for an operand, and `procCastExpr` closes the circle. A line that
does not end with a `;` can keep the parser busy for ever, so loops and recursions are bounded by
fuel.
-/

namespace RtThread.Finsh

/-- What the parser finds around it: the symbol tables, the bytes behind an identifier that
`strncpy` did not terminate, and where the heap puts a string. -/
structure Env (H : Type) where
  symbols : Symbols
  idTail : List Byte
  newString : H → List Byte → H × BitVec 32

/-- `struct finsh_parser`, and the globals that it works on: `global_errno`, the number of nodes in
use, `global_variable` and the heap. -/
structure Parser (H : Type) where
  token : Token
  root : Node
  errno : FinshError
  nodes : Nat
  vars : List Var
  heap : H

/-- A function of the parser: its result, and the state that it leaves. -/
abbrev Parse (H α : Type) := Parser H → Except Fault (α × Parser H)

variable {H : Type} (env : Env H)

namespace Parser
variable (self : Parser H)

def errorSet (errno : FinshError) : Parser H := { self with errno }

def replay : Parser H := { self with token := { self.token with replay := true } }

/-- `finsh_flush`: what is left of a line before is cleared. -/
def flush : Parser H := { self with root := .null, errno := .ok, nodes := 0 }

end Parser

def finshNodeAllocate (nodeType : NodeType) (self : Parser H) : Node × Parser H :=
  if self.nodes < finshNodeMax then (.leaf (.new nodeType), { self with nodes := self.nodes + 1 })
  else (.null, self)

/-- The node that the functions `finsh_node_new_*` make. -/
def newNode (info : NodeInfo) (self : Parser H) : Node × Parser H :=
  if self.nodes < finshNodeMax then (.leaf info, { self with nodes := self.nodes + 1 })
  else (.null, self.errorSet .memoryFull)

/-- `finsh_node_new_char`, `finsh_node_new_int`, `finsh_node_new_long` and `finsh_node_new_ptr`. -/
def newValue (nodeType : NodeType) (value : BitVec 32) (self : Parser H) : Node × Parser H :=
  newNode { NodeInfo.new nodeType with value } self

/-- `finsh_node_new_string`. A string that fills its buffer is read past the end. -/
def finshNodeNewString : Parse H Node := fun self =>
  if self.nodes < finshNodeMax then
    if self.token.string.length < finshStringMax then
      let (heap, value) := env.newString self.heap self.token.string
      .ok (newValue .valueString value { self with heap })
    else .error .outOfBounds
  else .ok (.null, self.errorSet .memoryFull)

/-- The entity that an identifier stands for. -/
def lookupSymbol (vars : List Var) (id : List Byte) : Option Ident :=
  ((finshVarLookup vars id).map Ident.var).or
    (((finshSysvarLookup env.symbols id).map Ident.sysvar).or
      ((finshSyscallLookup env.symbols id).map Ident.syscall))

def finshNodeNewId (id : List Byte) (self : Parser H) : Node × Parser H :=
  match lookupSymbol env self.vars id with
  | some ident => newNode { NodeInfo.new .id with id := some ident } self
  | none => (.null, self.errorSet .unknownSymbol)

def makeSysNode (type : NodeType) (node1 node2 : Node) (self : Parser H) : Node × Parser H :=
  let (node, self) := finshNodeAllocate type self
  if node1 ≠ .null ∧ node ≠ .null then (.mk node.info (node1.withSibling node2) node.sibling, self)
  else (node, self.errorSet .nullNode)

def nextToken : Parse H TokenType := fun self =>
  if self.token.replay then
    .ok (self.token.currentToken, { self with token := { self.token with replay := false } })
  else do
    let (token, error) ← self.token.run
    .ok (token.currentToken, { self with token, errno := error.getD self.errno })

def checkToken (token type : TokenType) (self : Parser H) : Parser H :=
  if token ≠ type then (self.errorSet .invalidToken).replay else self

def matchToken (type : TokenType) (self : Parser H) : Except Fault (Parser H) := do
  let (token, self) ← nextToken self
  .ok (checkToken token type self)

def baseType : TokenType → Option FinshType
  | .void => some .void
  | .char => some .char
  | .short => some .short
  | .int => some .int
  | .long => some .long
  | _ => none

/-- The type of `unsigned` and a base type. -/
def unsignedType : FinshType → Option FinshType
  | .char => some .uchar
  | .short => some .ushort
  | .int => some .uint
  | .long => some .ulong
  | _ => none

/-- The type of the pointers to a type (`finsh_parser.c:351-382`). -/
def pointerType : FinshType → FinshType
  | .void => .voidp
  | .char | .uchar => .charp
  | .short | .ushort => .shortp
  | .int => .intp
  | .uint => .intp
  | .long | .ulong => .longp
  | _ => .voidp

/-- The end of `proc_type`: a `*`, or not. -/
def procPointer (type : FinshType) : Parse H FinshType := fun self => do
  let (token, self) ← nextToken self
  if token = .mul then .ok (pointerType type, self) else .ok (type, self.replay)

def procType : Parse H FinshType := fun self => do
  let (token, self) ← nextToken self
  match baseType token with
  | some type => procPointer type self
  | none =>
    if token = .unsigned then
      let (token, self) ← nextToken self
      match baseType token with
      | some type =>
        match unsignedType type with
        | some type => procPointer type self
        | none => .ok (.unknown, self.replay.errorSet .unknownType)
      | none => procPointer .unknown (self.replay.errorSet .expectType)
    else .ok (.unknown, self.replay.errorSet .unknownType)

/-- `strncpy(id, string, FINSH_NAME_MAX)` to a buffer of one byte more. -/
def idBuffer (string : List Byte) : List Byte :=
  if string.length < finshNameMax then string else string.take finshNameMax ++ env.idTail

def procIdentifier : Parse H (List Byte) := fun self => do
  let self ← matchToken .identifier self
  .ok (idBuffer env self.token.string, self)

/-- The node of a binary operator, unless its right operand is missing. -/
def joinOperand (type : NodeType) (left right : Node) (self : Parser H) : Node × Parser H :=
  if right = .null then (left, self.errorSet .expectOperator) else makeSysNode type left right self

/-- The loop of an expression of binary operators. `ops` gives the node of an operator. -/
def binaryLoop (ops : TokenType → Option NodeType) (operand : Parse H Node) :
    (fuel : Nat) → (left : Node) → (token : TokenType) → Parse H Node
  | 0, _, _, _ => .error .outOfFuel
  | fuel + 1, left, token, self =>
    match ops token with
    | none => .ok (left, self.replay)
    | some type => do
      let (right, self) ← operand self
      let (left, self) := joinOperand type left right self
      let (token, self) ← nextToken self
      binaryLoop ops operand fuel left token self

/-- An expression of operands with binary operators between them, grouped from the left. -/
def procBinary (ops : TokenType → Option NodeType) (operand : Parse H Node) (fuel : Nat) :
    Parse H Node := fun self => do
  let (left, self) ← operand self
  let (token, self) ← nextToken self
  binaryLoop ops operand fuel left token self

def multiplicativeOps : TokenType → Option NodeType
  | .mul => some .sysMul
  | .div => some .sysDiv
  | .mod => some .sysMod
  | _ => none

def additiveOps : TokenType → Option NodeType
  | .sub => some .sysSub
  | .add => some .sysAdd
  | _ => none

def shiftOps : TokenType → Option NodeType
  | .shl => some .sysShl
  | .shr => some .sysShr
  | _ => none

def andOps : TokenType → Option NodeType
  | .and => some .sysAnd
  | _ => none

def exclusiveOrOps : TokenType → Option NodeType
  | .xor => some .sysXor
  | _ => none

def inclusiveOrOps : TokenType → Option NodeType
  | .or => some .sysOr
  | _ => none

variable (cast assign : Parse H Node)

def procMultiplicativeExpr (fuel : Nat) : Parse H Node := procBinary multiplicativeOps cast fuel

def procAdditiveExpr (fuel : Nat) : Parse H Node :=
  procBinary additiveOps (procMultiplicativeExpr cast fuel) fuel

def procShiftExpr (fuel : Nat) : Parse H Node :=
  procBinary shiftOps (procAdditiveExpr cast fuel) fuel

def procAndExpr (fuel : Nat) : Parse H Node := procBinary andOps (procShiftExpr cast fuel) fuel

def procExclusiveOrExpr (fuel : Nat) : Parse H Node :=
  procBinary exclusiveOrOps (procAndExpr cast fuel) fuel

def procInclusiveOrExpr (fuel : Nat) : Parse H Node :=
  procBinary inclusiveOrOps (procExclusiveOrExpr cast fuel) fuel

def procAssignExpr : (fuel : Nat) → Parse H Node
  | 0, _ => .error .outOfFuel
  | fuel + 1, self => do
    let (or, self) ← procInclusiveOrExpr cast fuel self
    let (token, self) ← nextToken self
    if token = .assign then
      let (assign, self) ← procAssignExpr fuel self
      .ok (makeSysNode .sysAssign or assign self)
    else .ok (or, self.replay)

/-- The loop of `proc_param_list`. The last parameter is `k` siblings behind `node`. -/
def paramLoop : (fuel : Nat) → (node : Node) → (k : Nat) → (token : TokenType) → Parse H Node
  | 0, _, _, _, _ => .error .outOfFuel
  | fuel + 1, node, k, token, self =>
    if token = .comma then do
      let (next, self) ← assign self
      let self := if next = .null then self.errorSet .expectOperator else self
      let (token, self) ← nextToken self
      paramLoop fuel (node.setSibling k next) (if next = .null then k else k + 1) token self
    else .ok (node, self.replay)

def procParamList (fuel : Nat) : Parse H Node := fun self => do
  let (node, self) ← assign self
  if node = .null then .ok (.null, self)
  else
    let (token, self) ← nextToken self
    paramLoop assign fuel node 0 token self

def procParams (fuel : Nat) : Parse H Node := fun self => do
  let (token, self) ← nextToken self
  if token ≠ .rightParen then
    let (params, self) ← procParamList assign fuel self.replay
    let self ← matchToken .rightParen self
    .ok (params, self)
  else .ok (.null, self)

def procPrimaryExpr : Parse H Node := fun self => do
  let (token, self) ← nextToken self
  match token with
  | .identifier =>
    let (id, self) ← procIdentifier env self.replay
    .ok (finshNodeNewId env id self)
  | .leftParen =>
    let (expr, self) ← assign self
    let self ← matchToken .rightParen self
    .ok (expr, self)
  | .valueInt => .ok (newValue .valueInt self.token.value self)
  | .valueLong => .ok (newValue .valueLong self.token.value self)
  | .valueChar => .ok (newValue .valueChar (self.token.value &&& 0xFF) self)
  | .valueString => finshNodeNewString env self
  | .valueNull => .ok (newValue .valueNull 0 self)
  | _ => .ok (.null, self.errorSet .invalidToken)

def postfixLoop : (fuel : Nat) → (node : Node) → (token : TokenType) → Parse H Node
  | 0, _, _, _ => .error .outOfFuel
  | fuel + 1, node, token, self =>
    match token with
    | .inc => do
      let (node, self) := makeSysNode .sysInc node .null self
      let (token, self) ← nextToken self
      postfixLoop fuel node token self
    | .dec => do
      let (node, self) := makeSysNode .sysDec node .null self
      let (token, self) ← nextToken self
      postfixLoop fuel node token self
    | .leftParen => do
      let (params, self) ← procParams assign fuel self
      let (node, self) := makeSysNode .sysFunc node params self
      let (token, self) ← nextToken self
      postfixLoop fuel node token self
    | _ => .ok (node, self.replay)

def procPostfixExpr (fuel : Nat) : Parse H Node := fun self => do
  let (node, self) ← procPrimaryExpr env assign self
  let (token, self) ← nextToken self
  postfixLoop assign fuel node token self

/-- The node of a unary operator that has its operand as its only child. -/
def unaryNode : TokenType → Option NodeType
  | .inc => some .sysPreinc
  | .dec => some .sysPredec
  | .bitwise => some .sysBitwise
  | .mul => some .sysGetvalue
  | .and => some .sysGetaddr
  | _ => none

def procUnaryExpr (fuel : Nat) : Parse H Node := fun self => do
  let (token, self) ← nextToken self
  match unaryNode token with
  | some type =>
    let (cast, self) ← cast self
    .ok (makeSysNode type cast .null self)
  | none =>
    match token with
    | .add => cast self
    | .sub =>
      let (cast, self) ← cast self
      let (zero, self) := newValue .valueLong 0 self
      .ok (makeSysNode .sysSub zero cast self)
    | _ => procPostfixExpr env assign fuel self.replay

def procCastExpr : (fuel : Nat) → Parse H Node
  | 0, _ => .error .outOfFuel
  | fuel + 1, self => do
    let cast := procCastExpr fuel
    let assign := procAssignExpr cast fuel
    let (token, self) ← nextToken self
    if token = .leftParen then
      let (type, self) ← procType self
      let self ← matchToken .rightParen self
      let (node, self) ← cast self
      if node ≠ .null then .ok (node.withDataType type.code, self)
      else procUnaryExpr env cast assign fuel self.replay
    else procUnaryExpr env cast assign fuel self.replay

def procExpr (fuel : Nat) : Parse H Node := procAssignExpr (procCastExpr env fuel) fuel

def procExprStatement (fuel : Nat) : Parse H Node := fun self => do
  let (token, self) ← nextToken self
  if token ≠ .semicolon then
    let (expr, self) ← procExpr env fuel self.replay
    let self ← matchToken .semicolon self
    .ok (expr, self)
  else .ok (.null, self)

def procDeclarator (type : FinshType) : Parse H (List Byte) := fun self => do
  let (id, self) ← procIdentifier env self
  match finshVarInsert self.vars id type with
  | some vars => .ok (id, { self with vars })
  | none => .ok (id, self.errorSet .variableExist)

/-- The assignments of a declaration with another one behind them. The last of them is `k - 1`
siblings behind `node`. -/
def appendAssign (node : Node) (k : Nat) (next : Node) : Node × Nat :=
  if node ≠ .null then (node.setSibling (k - 1) next, k + 1) else (next, 1)

/-- The right side of an initialiser, after its `=`. -/
def procInitializer (id : List Byte) (node : Node) (k : Nat) (fuel : Nat) :
    Parse H ((Node × Nat) × TokenType) := fun self => do
  let (assign, self) ← procExpr env fuel self
  if assign ≠ .null then
    let (idnode, self) := finshNodeNewId env id self
    let (next, self) := makeSysNode .sysAssign idnode assign self
    let (token, self) ← nextToken self
    .ok ((appendAssign node k next, token), self)
  else .ok (((node, k), .assign), self)

def procNextDeclarator (type : FinshType) (node : Node) (k : Nat) (fuel : Nat) :
    Parse H ((Node × Nat) × TokenType) := fun self => do
  let (id, self) ← procDeclarator env type self
  let (token, self) ← nextToken self
  if token = .assign then procInitializer env id node k fuel self
    else .ok (((node, k), token), self)

/-- The loop of `proc_variable_decl` over the declarators behind a comma. -/
def declLoop (type : FinshType) :
    (fuel : Nat) → (assigns : Node × Nat) → (token : TokenType) → Parse H Node
  | 0, _, _, _ => .error .outOfFuel
  | fuel + 1, (node, k), token, self =>
    if token = .comma then do
      let ((assigns, token), self) ← procNextDeclarator env type node k fuel self
      declLoop type fuel assigns token self
    else .ok (node, checkToken token .semicolon self)

def procVariableDecl (fuel : Nat) : Parse H Node := fun self => do
  let (type, self) ← procType self
  let (id, self) ← procDeclarator env type self
  let (token, self) ← nextToken self
  match token with
  | .comma => declLoop env type fuel (.null, 0) .comma self
  | .assign =>
    let ((assigns, token), self) ← procInitializer env id .null 0 fuel self
    declLoop env type fuel assigns token self
  | .semicolon => .ok (.null, self)
  | _ => .ok (.null, self.errorSet .expectType)

def startsDecl (token : TokenType) : Bool := (baseType token).isSome || token = .unsigned

/-- A statement of a line. -/
def procStatement (fuel : Nat) (token : TokenType) : Parse H Node := fun self =>
  if startsDecl token then procVariableDecl env fuel self.replay
  else procExprStatement env fuel self.replay

/-- An empty statement, unless it is the first one, takes the token behind it away. -/
def skipEmpty (node : Node) (token : TokenType) (self : Parser H) : Except Fault (Parser H) :=
  if node = .null ∧ token ≠ .identifier ∧ startsDecl token = false then do
    let (_, self) ← nextToken self
    .ok self
  else .ok self

/-- The loop of `finsh_parser_run`. The local `node` is `k` siblings behind the root. -/
def parserLoop : (fuel : Nat) → (k : Nat) → (token : TokenType) → Parser H → Except Fault (Parser H)
  | 0, _, _, _ => .error .outOfFuel
  | fuel + 1, k, token, self =>
    if token = .eof ∨ token = .bad then .ok self
    else if self.root = .null then do
      let (node, self) ← procStatement env fuel token self
      if node = .null then .ok self
      else
        let (token, self) ← nextToken { self with root := node }
        parserLoop fuel 0 token self
    else do
      let (node, self) ← procStatement env fuel token self
      let self ← skipEmpty node token { self with root := self.root.setSibling k node }
      let (token, self) ← nextToken self
      parserLoop fuel (if node = .null then k else k + 1) token self

def finshParserRun (fuel : Nat) (self : Parser H) (line : List Byte) : Except Fault (Parser H) := do
  let (token, self) ← nextToken { self with token := .init line }
  parserLoop env fuel 0 token self

end RtThread.Finsh
