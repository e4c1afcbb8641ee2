import RtThread.Finsh.Lexing
import RtThread.Finsh.Parser

/-!
# The parser on expressions

The functions of the descent read what the grammar derives at their levels, stop in front of the
first token that does not belong to it, and build the tree of the expression.
-/

namespace RtThread.Finsh
open Except (holds_ok holds_error)
open List

def BinOp.nodeType : BinOp → NodeType
  | add => .sysAdd
  | sub => .sysSub
  | div => .sysDiv
  | mod => .sysMod
  | mul => .sysMul
  | and => .sysAnd
  | or => .sysOr
  | xor => .sysXor
  | shl => .sysShl
  | shr => .sysShr

def StepOp.preType : StepOp → NodeType
  | inc => .sysPreinc
  | dec => .sysPredec

def StepOp.postType : StepOp → NodeType
  | inc => .sysInc
  | dec => .sysDec

def varNode (i : Nat) : Node := .leaf { NodeInfo.new .id with id := some (.var i) }

def valueNode (type : NodeType) (value : BitVec 32) : Node := .leaf { NodeInfo.new type with value }

def sysNode (type : NodeType) (node1 node2 : Node) : Node :=
  .mk (.new type) (node1.withSibling node2) .null

def CExpr.node (place : List Byte → Nat) : CExpr → Node
  | literal n => valueNode .valueInt (BitVec.ofNat 32 n)
  | var x => varNode (place x)
  | plus e => e.node place
  | neg e => sysNode .sysSub (valueNode .valueLong 0) (e.node place)
  | compl e => sysNode .sysBitwise (e.node place) .null
  | bin op l r => sysNode op.nodeType (l.node place) (r.node place)
  | assign x e => sysNode .sysAssign (varNode (place x)) (e.node place)
  | pre op x => sysNode op.preType (varNode (place x)) .null
  | post op x => sysNode op.postType (varNode (place x)) .null

section
variable {H : Type}

/-- The type of the next token, if a `;` follows the tokens. -/
def headType : List CToken → TokenType
  | [] => .semicolon
  | t :: _ => t.type

/-- The parser is going to see these tokens, a `;`, and the end of the line. The first of them may
have been read before. -/
def Parser.Ahead (s : Parser H) (ts : List CToken) : Prop :=
  ∃ text, s.token.At text ∧
    if s.token.replay then
      ∃ t us, ts ++ [.punct .semicolon] = t :: us ∧ s.token.Shows t ∧ Spells us text
    else Spells (ts ++ [.punct .semicolon]) text

/-- The parser has seen the `;`. -/
def Parser.AtEnd (s : Parser H) : Prop :=
  s.token.replay = false ∧ ∃ text, s.token.At text ∧ Spells [] text

/-- The parser has read the first of these tokens. -/
structure Looked (s : Parser H) (type : TokenType) (ts : List CToken) : Prop where
  type : type = headType ts
  again : s.replay.Ahead ts
  tail : ∀ t us, ts = t :: us → s.Ahead us ∧ s.token.Shows t
  last : ts = [] → s.AtEnd

/-- Nothing but the scanner differs. -/
structure SameData (s s1 : Parser H) : Prop where
  root : s1.root = s.root
  errno : s1.errno = s.errno
  vars : s1.vars = s.vars

variable {s s1 s2 : Parser H} {ts us : List CToken} {k fuel : Nat} {node expected : Node}
  {e l : CExpr} {assign cast : Parse H Node} {token : TokenType}

variable {t : CToken} {r : Node × Parser H}

theorem looked_of_shows {text : List Byte}
    (hts : ts ++ [.punct .semicolon] = t :: us) (hreplay : s.token.replay = false)
    (hshows : s.token.Shows t) (hat : s.token.At text) (hspells : Spells us text) :
    Looked s s.token.currentToken ts := by
  refine ⟨hshows.type.trans (by cases ts <;> cases hts <;> rfl), ?_, ?_, ?_⟩
  · refine ⟨text, ⟨hat.eof, hat.text⟩, ?_⟩
    exact (if_pos rfl).mpr ⟨t, us, hts, ⟨hshows.type, hshows.name, hshows.value⟩, hspells⟩
  · rintro t' us' rfl
    obtain ⟨rfl, rfl⟩ := List.cons.inj hts
    refine ⟨⟨text, hat, ?_⟩, hshows⟩
    rw [hreplay]
    exact (if_neg Bool.false_ne_true).mpr hspells
  · rintro rfl
    obtain ⟨-, rfl⟩ := List.cons.inj hts
    exact ⟨hreplay, text, hat, hspells⟩

theorem nextToken_ahead (h : s.Ahead ts) :
    (nextToken s).Holds fun r => Looked r.2 r.1 ts ∧ SameData s r.2 := by
  obtain ⟨text, hat, hahead⟩ := h
  unfold nextToken
  split at hahead
  · rename_i hreplay
    obtain ⟨t, us, hts, hshows, hspells⟩ := hahead
    rw [if_pos hreplay, holds_ok]
    refine ⟨?_, rfl, rfl, rfl⟩
    exact looked_of_shows hts rfl
      ⟨hshows.type, hshows.name, hshows.value⟩ ⟨hat.eof, hat.text⟩ hspells
  · rename_i hreplay
    rw [if_neg hreplay]
    obtain ⟨t, us, hts⟩ : ∃ t us, ts ++ [.punct .semicolon] = t :: us :=
      exists_cons_of_ne_nil (by simp)
    rw [hts] at hahead
    have hlast : t = .punct .semicolon ∨ us ≠ [] := by
      cases ts with
      | nil =>
        cases hts
        exact .inl rfl
      | cons t' ts =>
        cases hts
        exact .inr (by simp)
    refine (hat.run_cons hahead hlast).bind ?_
    rintro ⟨token, error⟩ ⟨rfl, hshows, hsame, rest, hrest, hspells⟩
    rw [holds_ok]
    refine ⟨?_, rfl, rfl, rfl⟩
    exact looked_of_shows hts (hsame.trans (by simpa using hreplay)) hshows
      hrest hspells

theorem nextToken_punct {type : TokenType} (h : s.Ahead (.punct type :: ts)) :
    (nextToken s).Holds fun r => r.1 = type ∧ r.2.Ahead ts ∧ SameData s r.2 := by
  refine (nextToken_ahead h).mono ?_
  rintro r ⟨hlooked, hsame⟩
  exact ⟨hlooked.type, (hlooked.tail _ _ rfl).1, hsame⟩

theorem SameData.trans (h : SameData s s1) (h' : SameData s1 s2) :
    SameData s s2 := ⟨h'.root.trans h.root, h'.errno.trans h.errno, h'.vars.trans h.vars⟩

theorem sameData_replay (s : Parser H) : SameData s s.replay := ⟨rfl, rfl, rfl⟩

/-- A function that does not read has made a node, unless there is an error. -/
structure Makes (s : Parser H) (node : Node) (r : Node × Parser H) : Prop where
  token : r.2.token = s.token
  root : r.2.root = s.root
  vars : r.2.vars = s.vars
  node : r.2.errno = .ok → s.errno = .ok ∧ r.1 = node

theorem newNode_makes (info : NodeInfo) (s : Parser H) : Makes s (.leaf info) (newNode info s) := by
  unfold newNode
  split
  · exact ⟨rfl, rfl, rfl, fun hok => ⟨hok, rfl⟩⟩
  · exact ⟨rfl, rfl, rfl, nofun⟩

theorem makeSysNode_makes (type : NodeType) (node1 node2 : Node) (s : Parser H) :
    Makes s (sysNode type node1 node2) (makeSysNode type node1 node2 s) := by
  unfold makeSysNode finshNodeAllocate
  by_cases hlt : s.nodes < finshNodeMax
  · rw [if_pos hlt]
    dsimp only
    split
    · exact ⟨rfl, rfl, rfl, fun hok => ⟨hok, rfl⟩⟩
    · exact ⟨rfl, rfl, rfl, nofun⟩
  · rw [if_neg hlt]
    simp only [ne_eq, not_true_eq_false, and_false, if_false]
    exact ⟨rfl, rfl, rfl, nofun⟩

theorem joinOperand_makes (type : NodeType) (left right : Node) (s : Parser H) :
    Makes s (sysNode type left right) (joinOperand type left right s) := by
  unfold joinOperand
  split
  · exact ⟨rfl, rfl, rfl, nofun⟩
  · exact makeSysNode_makes type left right s

theorem strncmp_take_append (name string tail : List Byte) (n : Nat) (h : n ≤ string.length) :
    Buffer.strncmp name (string.take n ++ tail) n = Buffer.strncmp name string n := by
  induction n generalizing name string with
  | zero => simp [Buffer.strncmp]
  | succ n ih =>
    cases string with
    | nil => cases h
    | cons c string =>
      cases name with
      | nil => rfl
      | cons c' name =>
        simp only [take_succ_cons, cons_append, Buffer.strncmp]
        rw [ih name string (Nat.le_of_succ_le_succ h)]

variable (env : Env H)

theorem finshVarLookup_idBuffer (vars : List Var) (x : List Byte) :
    finshVarLookup vars (idBuffer env x) = finshVarLookup vars x := by
  unfold idBuffer
  split
  · rfl
  · rename_i hlen
    unfold finshVarLookup
    congr 1
    funext var
    rw [strncmp_take_append _ _ _ _ (Nat.le_of_not_lt hlen)]

theorem finshNodeNewId_makes {x : List Byte} {i : Nat} (h : finshVarLookup s.vars x = some i) :
    Makes s (varNode i) (finshNodeNewId env (idBuffer env x) s) := by
  have hsymbol : lookupSymbol env s.vars (idBuffer env x) = some (.var i) := by
    rw [lookupSymbol, finshVarLookup_idBuffer, h]
    rfl
  unfold finshNodeNewId
  rw [hsymbol]
  exact newNode_makes _ s

/-- A function has read an expression up to these tokens and built its node, unless there is an
error. -/
structure Parsed (s : Parser H) (us : List CToken) (node : Node) (r : Node × Parser H) : Prop where
  ahead : r.2.Ahead us
  root : r.2.root = s.root
  vars : r.2.vars = s.vars
  node : r.2.errno = .ok → s.errno = .ok ∧ r.1 = node

/-- The token that follows does not belong to an expression of level `k`. -/
structure Follows (k : Nat) (us : List CToken) : Prop where
  inc : headType us ≠ .inc
  dec : headType us ≠ .dec
  leftParen : headType us ≠ .leftParen
  op : ∀ op : BinOp, op.level ≤ k → headType us ≠ op.token
  assign : 7 ≤ k → headType us ≠ .assign

theorem Follows.mono {n : Nat} (h : Follows n us) (hk : k ≤ n) : Follows k us :=
  ⟨h.inc, h.dec, h.leftParen, fun op hop => h.op op (Nat.le_trans hop hk),
    fun h7 => h.assign (Nat.le_trans h7 hk)⟩

/-- The names of an expression stand for variables. -/
def CExpr.Resolves (vars : List Var) (place : List Byte → Nat) (e : CExpr) : Prop :=
  ∀ x ∈ e.names, finshVarLookup vars x = some (place x)

/-- The function reads the expressions of level `k`. -/
def Parse.Reads (vars : List Var) (place : List Byte → Nat) (k : Nat) (p : Parse H Node) : Prop :=
  ∀ ⦃e : CExpr⦄ ⦃ts us : List CToken⦄ ⦃s : Parser H⦄, Derives k e ts → Follows k us →
    e.Resolves vars place → s.vars = vars → s.Ahead (ts ++ us) →
    (p s).Holds (Parsed s us (e.node place))

variable {vars : List Var} {place : List Byte → Nat} {ops : TokenType → Option NodeType}

theorem Parsed.after (hsame : SameData s s1) (h : Parsed s1 us node r) : Parsed s us node r :=
  ⟨h.ahead, h.root.trans hsame.root, h.vars.trans hsame.vars, fun hok =>
    ⟨hsame.errno.symm.trans (h.node hok).1, (h.node hok).2⟩⟩

theorem Makes.parsed (h : Makes s node r) (hahead : s.Ahead us) : Parsed s us node r := by
  refine ⟨?_, h.root, h.vars, h.node⟩
  unfold Parser.Ahead
  rw [h.token]
  exact hahead

theorem Parsed.makes {r' : Node × Parser H}
    (f : Node → Node) (h : Parsed s us node r) (h' : Makes r.2 (f r.1) r') :
    Parsed s us (f node) r' := by
  have hnext := h'.parsed h.ahead
  refine ⟨hnext.ahead, hnext.root.trans h.root, hnext.vars.trans h.vars, ?_⟩
  intro hok
  obtain ⟨hok', hr'⟩ := hnext.node hok
  obtain ⟨hok, hr⟩ := h.node hok'
  exact ⟨hok, by rw [hr', hr]⟩

theorem Parsed.join {node' left right : Node} {s3 : Parser H}
    (f : Node → Node → Node) (hl : Parsed s ts node (left, s1)) (hsame : SameData s1 s2)
    (hr : Parsed s2 us node' (right, s3)) (h : Makes s3 (f left right) r) :
    Parsed s us (f node node') r := by
  refine ⟨(h.parsed hr.ahead).ahead, h.root.trans (hr.root.trans (hsame.root.trans hl.root)),
    h.vars.trans (hr.vars.trans (hsame.vars.trans hl.vars)), ?_⟩
  intro hok
  obtain ⟨hok3, hnode⟩ := h.node hok
  obtain ⟨hok2, hright⟩ := hr.node hok3
  obtain ⟨hok, hleft⟩ := hl.node (hsame.errno.symm.trans hok2)
  have hleft' : left = node := hleft
  have hright' : right = node' := hright
  exact ⟨hok, by rw [hnode, hleft', hright']⟩

/-- An operand of level 0 without operators. -/
inductive Primary : CExpr → CToken → Prop
  | literal {digits : List Byte} (h : decimalValue digits < 2 ^ 31) :
    Primary (.literal (decimalValue digits)) (.literal digits)
  | var (x : List Byte) : Primary (.var x) (.identifier x)

attribute [local simp] CExpr.names

theorem procPrimaryExpr_reads (assign : Parse H Node) (hprimary : Primary e t)
    (hresolves : e.Resolves vars place) (hvars : s.vars = vars) (hahead : s.Ahead (t :: us)) :
    (procPrimaryExpr env assign s).Holds (Parsed s us (e.node place)) := by
  unfold procPrimaryExpr
  refine (nextToken_ahead hahead).bind ?_
  rintro ⟨token, s1⟩ ⟨hlooked, hsame⟩
  obtain ⟨htail, hshows⟩ := hlooked.tail t us rfl
  have htoken := hlooked.type
  cases hprimary with
  | @literal digits h =>
    rw [show token = .valueInt from htoken]
    have hvalue := hshows.value digits rfl
    refine holds_ok.mpr (Parsed.after hsame ?_)
    rw [newValue, hvalue]
    exact (newNode_makes _ s1).parsed htail
  | var x =>
    rw [show token = .identifier from htoken]
    unfold procIdentifier matchToken
    simp only [bind_assoc]
    refine (nextToken_ahead hlooked.again).bind ?_
    rintro ⟨token', s2⟩ ⟨hlooked', hsame'⟩
    obtain ⟨htail', hshows'⟩ := hlooked'.tail _ us rfl
    have htype : token' = .identifier := hlooked'.type
    have hcheck : checkToken token' .identifier s2 = s2 := by
      rw [checkToken, if_neg (not_not.mpr htype)]
    have hvars' : s2.vars = vars := (hsame'.vars.trans hsame.vars).trans hvars
    have hplace : finshVarLookup s2.vars x = some (place x) := by
      rw [hvars']
      exact hresolves x (by simp)
    refine holds_ok.mpr (Parsed.after (hsame.trans ((sameData_replay s1).trans hsame')) ?_)
    rw [hcheck, hshows'.name x rfl]
    exact (finshNodeNewId_makes env hplace).parsed htail'

theorem postfixLoop_stop (hfollows : Follows 0 us)
    (hlooked : Looked s1 token us) (hparsed : Parsed s us expected (node, s1.replay)) :
    (postfixLoop assign fuel node token s1).Holds (Parsed s us expected) := by
  have hinc : token ≠ .inc := fun h => hfollows.inc (hlooked.type.symm.trans h)
  have hdec : token ≠ .dec := fun h => hfollows.dec (hlooked.type.symm.trans h)
  have hparen : token ≠ .leftParen := fun h => hfollows.leftParen (hlooked.type.symm.trans h)
  cases fuel with
  | zero => exact holds_error
  | succ fuel =>
    unfold postfixLoop
    split
    · exact absurd rfl hinc
    · exact absurd rfl hdec
    · exact absurd rfl hparen
    · exact holds_ok.mpr hparsed

theorem Parsed.replay (h : Parsed s us expected (node, s1)) (hsame : SameData s1 s2)
    (hlooked : Looked s2 token us) : Parsed s us expected (node, s2.replay) := by
  refine ⟨hlooked.again, hsame.root.trans h.root, hsame.vars.trans h.vars, ?_⟩
  intro hok
  exact h.node (hsame.errno.symm.trans hok)

theorem procPostfixExpr_primary (assign : Parse H Node) (fuel : Nat) (hprimary : Primary e t)
    (hfollows : Follows 0 us) (hresolves : e.Resolves vars place) (hvars : s.vars = vars)
    (hahead : s.Ahead (t :: us)) :
    (procPostfixExpr env assign fuel s).Holds (Parsed s us (e.node place)) := by
  unfold procPostfixExpr
  refine (procPrimaryExpr_reads env assign hprimary hresolves hvars hahead).bind ?_
  rintro ⟨node, s1⟩ hnode
  refine (nextToken_ahead hnode.ahead).bind ?_
  rintro ⟨token, s2⟩ ⟨hlooked, hsame⟩
  exact postfixLoop_stop hfollows hlooked (hnode.replay hsame hlooked)

theorem procPostfixExpr_step (assign : Parse H Node) (fuel : Nat) {op : StepOp}
    {x : List Byte} (hfollows : Follows 0 us)
    (hresolves : (CExpr.var x).Resolves vars place) (hvars : s.vars = vars)
    (hahead : s.Ahead (.identifier x :: .punct op.token :: us)) :
    (procPostfixExpr env assign fuel s).Holds (Parsed s us ((CExpr.post op x).node place)) := by
  unfold procPostfixExpr
  refine (procPrimaryExpr_reads env assign (.var x) hresolves hvars hahead).bind ?_
  rintro ⟨node, s1⟩ hnode
  refine (nextToken_punct hnode.ahead).bind ?_
  rintro ⟨_, s2⟩ ⟨rfl, htail, hsame⟩
  have hread : Parsed s us ((CExpr.var x).node place) (node, s2) :=
    ⟨htail, hsame.root.trans hnode.root, hsame.vars.trans hnode.vars,
      fun hok => hnode.node (hsame.errno.symm.trans hok)⟩
  have hmade := hread.makes (sysNode op.postType · .null)
    (makeSysNode_makes op.postType node .null s2)
  cases fuel with
  | zero => exact holds_error
  | succ fuel =>
    cases op
    all_goals
      refine (nextToken_ahead hmade.ahead).bind ?_
      rintro ⟨token', s3⟩ ⟨hlooked', hsame'⟩
      exact postfixLoop_stop hfollows hlooked' (hmade.replay hsame' hlooked')

theorem procUnaryExpr_operator {type : TokenType} {nodeType : NodeType}
    (htype : unaryNode type = some nodeType) (hcast : cast.Reads vars place 0)
    (hderives : Derives 0 e ts) (hfollows : Follows 0 us) (hresolves : e.Resolves vars place)
    (hvars : s.vars = vars) (hahead : s.Ahead (.punct type :: (ts ++ us))) :
    (procUnaryExpr env cast assign fuel s).Holds
      (Parsed s us (sysNode nodeType (e.node place) .null)) := by
  unfold procUnaryExpr
  refine (nextToken_punct hahead).bind ?_
  rintro ⟨_, s1⟩ ⟨rfl, htail, hsame⟩
  simp only [htype]
  refine (hcast hderives hfollows hresolves (hsame.vars.trans hvars) htail).bind ?_
  rintro ⟨node, s2⟩ hnode
  have hmade := hnode.makes (sysNode nodeType · .null) (makeSysNode_makes nodeType node .null s2)
  exact holds_ok.mpr (Parsed.after hsame hmade)

theorem procUnaryExpr_operand (ht : ∀ type, t ≠ .punct type) (hahead : s.Ahead (t :: ts))
    (hpost : ∀ s1 : Parser H, s1.vars = s.vars → s1.Ahead (t :: ts) →
      (procPostfixExpr env assign fuel s1).Holds (Parsed s1 us expected)) :
    (procUnaryExpr env cast assign fuel s).Holds (Parsed s us expected) := by
  unfold procUnaryExpr
  refine (nextToken_ahead hahead).bind ?_
  rintro ⟨token, s1⟩ ⟨hlooked, hsame⟩
  have htoken : token = t.type := hlooked.type
  have hrest := (hpost s1.replay hsame.vars hlooked.again).mono fun r hr =>
    Parsed.after (hsame.trans (sameData_replay s1)) hr
  cases t with
  | identifier x | literal digits => simpa only [htoken, CToken.type, unaryNode] using hrest
  | punct type => exact absurd rfl (ht type)

theorem procUnaryExpr_reads (fuel : Nat)
    (hcast : cast.Reads vars place 0) :
    (procUnaryExpr env cast assign fuel).Reads vars place 0 := by
  intro e ts us s hderives hfollows hresolves hvars hahead
  cases hderives with
  | @literal digits h =>
    refine procUnaryExpr_operand env (by simp) hahead ?_
    intro s1 hvars1 hahead1
    exact procPostfixExpr_primary env assign fuel (.literal h) hfollows hresolves
      (hvars1.trans hvars) hahead1
  | var x =>
    refine procUnaryExpr_operand env (by simp) hahead ?_
    intro s1 hvars1 hahead1
    exact procPostfixExpr_primary env assign fuel (.var x) hfollows hresolves (hvars1.trans hvars)
      hahead1
  | post op x =>
    refine procUnaryExpr_operand env (by simp) hahead ?_
    intro s1 hvars1 hahead1
    exact procPostfixExpr_step env assign fuel hfollows hresolves (hvars1.trans hvars) hahead1
  | pre op x =>
    have htype : unaryNode op.token = some op.preType := by
      cases op <;> rfl
    exact procUnaryExpr_operator env htype hcast (.var x) hfollows hresolves hvars hahead
  | compl h => exact procUnaryExpr_operator env rfl hcast h hfollows hresolves hvars hahead
  | plus h =>
    unfold procUnaryExpr
    refine (nextToken_punct hahead).bind ?_
    rintro ⟨_, s1⟩ ⟨rfl, htail, hsame⟩
    exact (hcast h hfollows hresolves (hsame.vars.trans hvars) htail).mono fun r hr =>
      Parsed.after hsame hr
  | neg h =>
    unfold procUnaryExpr
    refine (nextToken_punct hahead).bind ?_
    rintro ⟨_, s1⟩ ⟨rfl, htail, hsame⟩
    refine (hcast h hfollows hresolves (hsame.vars.trans hvars) htail).bind ?_
    rintro ⟨node, s2⟩ hnode
    -- the zero is made behind the operand
    have hzero := (newNode_makes { NodeInfo.new .valueLong with value := 0 } s2).parsed hnode.ahead
    exact holds_ok.mpr (Parsed.after hsame (hnode.join (fun node zero => sysNode .sysSub zero node)
      ⟨rfl, rfl, rfl⟩ hzero (makeSysNode_makes .sysSub _ node _)))

theorem procCastExpr_reads (fuel : Nat) : (procCastExpr env fuel).Reads vars place 0 := by
  induction fuel with
  | zero => exact fun _ _ _ _ _ _ _ _ _ => holds_error
  | succ fuel ih =>
    intro e ts us s hderives hfollows hresolves hvars hahead
    unfold procCastExpr
    refine (nextToken_ahead hahead).bind ?_
    rintro ⟨token, s1⟩ ⟨hlooked, hsame⟩
    have htoken : token = headType (ts ++ us) := hlooked.type
    have hparen : ¬token = .leftParen := by
      rw [htoken]
      cases hderives with
      | pre op x => cases op <;> simp [headType, CToken.type, StepOp.token]
      | _ => simp [headType, CToken.type]
    dsimp only
    rw [if_neg hparen]
    refine (procUnaryExpr_reads env fuel ih (s := s1.replay) hderives hfollows hresolves
      (hsame.vars.trans hvars) hlooked.again).mono ?_
    intro r hr
    exact Parsed.after (hsame.trans (sameData_replay s1)) hr

/-- An expression of level `k + 1`, from its first operand of level `k` on. -/
inductive Chain (k : Nat) : (l : CExpr) → (ts : List CToken) → (e : CExpr) → Prop
  | nil (l : CExpr) : Chain k l [] l
  | cons (op : BinOp) (hop : op.level = k + 1) {l r e : CExpr} {ts us : List CToken}
    (hr : Derives k r ts) (h : Chain k (.bin op l r) us e) :
    Chain k l (.punct op.token :: (ts ++ us)) e

theorem Chain.snoc {r : CExpr} (h : Chain k l ts e) (op : BinOp)
    (hop : op.level = k + 1) (hr : Derives k r us) :
    Chain k l (ts ++ .punct op.token :: us) (.bin op e r) := by
  induction h with
  | nil l =>
    have hlast := Chain.cons op hop hr (.nil (.bin op l r))
    rwa [append_nil] at hlast
  | cons op' hop' hr' _ ih =>
    rw [cons_append, append_assoc]
    exact .cons op' hop' hr' ih

/-- The grammar groups from the left, the parser reads from the left. -/
theorem Derives.exists_chain (h : Derives (k + 1) e ts) (hk : k < 6) :
    ∃ l us vs, Derives k l us ∧ Chain k l vs e ∧ ts = us ++ vs := by
  generalize hn : k + 1 = n at h
  induction h with
  | up h _ =>
    cases hn
    exact ⟨_, _, [], h, .nil _, by simp⟩
  | @bin k' op hop l r ts us hl hr ih _ =>
    cases hn
    obtain ⟨l', us', vs, hl', hchain, rfl⟩ := ih rfl
    exact ⟨l', us', _, hl', hchain.snoc op hop hr, by simp⟩
  | assign => omega
  | _ => cases hn

theorem BinOp.token_ne (op : BinOp) :
    op.token ≠ .inc ∧ op.token ≠ .dec ∧ op.token ≠ .leftParen ∧ op.token ≠ .assign := by
  cases op <;> decide

theorem Chain.follows (h : Chain k l ts e)
    (hfollows : Follows (k + 1) us) : Follows k (ts ++ us) := by
  cases h with
  | nil => exact hfollows.mono (Nat.le_succ k)
  | cons op hop hr h =>
    obtain ⟨hinc, hdec, hparen, hassign⟩ := op.token_ne
    refine ⟨hinc, hdec, hparen, ?_, fun _ => hassign⟩
    intro op' hop' heq
    have hsame : op = op' := by
      cases op <;> cases op' <;> first | rfl | cases heq
    rw [← hsame] at hop'
    omega

theorem CExpr.Resolves.chain (h : Chain k l ts e)
    (hresolves : e.Resolves vars place) : l.Resolves vars place := by
  induction h with
  | nil => exact hresolves
  | cons op hop hr h ih =>
    intro x hx
    exact ih hresolves x (by simp [hx])

/-- The table of a level has exactly its operators. -/
structure LevelOps (k : Nat) (ops : TokenType → Option NodeType) : Prop where
  some : ∀ op : BinOp, op.level = k → ops op.token = some op.nodeType
  none : ∀ token, (∀ op : BinOp, op.level = k → token ≠ op.token) → ops token = none

variable {operand : Parse H Node}

theorem binaryLoop_reads
    (hops : LevelOps (k + 1) ops) (hoperand : operand.Reads vars place k) (hchain : Chain k l ts e)
    (hfollows : Follows (k + 1) us)
    (hresolves : e.Resolves vars place) {left : Node} (hvars : s.vars = vars)
    (hparsed : Parsed s (ts ++ us) (l.node place) (left, s1))
    (hsame : SameData s1 s2) (hlooked : Looked s2 token (ts ++ us)) :
    (binaryLoop ops operand fuel left token s2).Holds (Parsed s us (e.node place)) := by
  induction fuel generalizing l ts left token s1 s2 with
  | zero => exact holds_error
  | succ fuel ih =>
    unfold binaryLoop
    have htoken : token = headType (ts ++ us) := hlooked.type
    cases hchain with
    | nil =>
      have hnone : ops token = none := by
        rw [htoken]
        exact hops.none _ fun op hop => hfollows.op op (Nat.le_of_eq hop)
      rw [hnone]
      exact holds_ok.mpr (hparsed.replay hsame hlooked)
    | @cons op hop _ r _ vs ws hr hchain =>
      have hsome : ops token = some op.nodeType := by
        rw [htoken]
        exact hops.some op hop
      rw [hsome]
      have hrest : s2.Ahead (vs ++ (ws ++ us)) := by
        rw [← append_assoc]
        exact (hlooked.tail _ _ rfl).1
      have hvars2 : s2.vars = vars := (hsame.vars.trans hparsed.vars).trans hvars
      have hresolves_r : r.Resolves vars place := by
        intro x hx
        exact CExpr.Resolves.chain hchain hresolves x (by simp [hx])
      refine (hoperand hr (hchain.follows hfollows) hresolves_r hvars2 hrest).bind ?_
      rintro ⟨right, s3⟩ hright
      have hjoined := hparsed.join (sysNode op.nodeType) hsame hright
        (joinOperand_makes op.nodeType left right s3)
      refine (nextToken_ahead hjoined.ahead).bind ?_
      rintro ⟨token', s4⟩ ⟨hlooked', hsame'⟩
      exact ih hchain hjoined hsame' hlooked'

theorem procBinary_reads
    (hops : LevelOps (k + 1) ops) (hoperand : operand.Reads vars place k) (fuel : Nat)
    (hk : k < 6 := by decide) :
    (procBinary ops operand fuel).Reads vars place (k + 1) := by
  intro e ts us s hderives hfollows hresolves hvars hahead
  obtain ⟨l, vs, ws, hl, hchain, rfl⟩ := hderives.exists_chain hk
  rw [append_assoc] at hahead
  unfold procBinary
  refine (hoperand hl (hchain.follows hfollows) (CExpr.Resolves.chain hchain hresolves) hvars
    hahead).bind ?_
  rintro ⟨left, s1⟩ hleft
  refine (nextToken_ahead hleft.ahead).bind ?_
  rintro ⟨token, s2⟩ ⟨hlooked, hsame⟩
  exact binaryLoop_reads hops hoperand hchain hfollows hresolves hvars hleft hsame hlooked

theorem levelOps : LevelOps 1 multiplicativeOps ∧ LevelOps 2 additiveOps ∧ LevelOps 3 shiftOps ∧
    LevelOps 4 andOps ∧ LevelOps 5 exclusiveOrOps ∧ LevelOps 6 inclusiveOrOps := by
  refine ⟨⟨?_, ?_⟩, ⟨?_, ?_⟩, ⟨?_, ?_⟩, ⟨?_, ?_⟩, ⟨?_, ?_⟩, ?_, ?_⟩
  all_goals intro x h; cases x
  all_goals first | rfl | cases h | exact absurd rfl (h .mul rfl) | exact absurd rfl (h .div rfl) |
    exact absurd rfl (h .mod rfl) | exact absurd rfl (h .add rfl) | exact absurd rfl (h .sub rfl) |
    exact absurd rfl (h .shl rfl) | exact absurd rfl (h .shr rfl) | exact absurd rfl (h .and rfl) |
    exact absurd rfl (h .xor rfl) | exact absurd rfl (h .or rfl)

theorem procInclusiveOrExpr_reads (hcast : cast.Reads vars place 0)
    (fuel : Nat) : (procInclusiveOrExpr cast fuel).Reads vars place 6 := by
  obtain ⟨hmul, hadd, hshift, hand, hxor, hor⟩ := levelOps
  have h1 := procBinary_reads hmul hcast fuel
  have h2 := procBinary_reads hadd h1 fuel
  have h3 := procBinary_reads hshift h2 fuel
  have h4 := procBinary_reads hand h3 fuel
  have h5 := procBinary_reads hxor h4 fuel
  exact procBinary_reads hor h5 fuel

theorem derives_var (x : List Byte) (k : Nat) (hk : k ≤ 7) :
    Derives k (.var x) [.identifier x] := by
  induction k with
  | zero => exact .var x
  | succ k ih => exact .up (ih (by omega)) (by omega)

theorem procAssignExpr_reads (hcast : cast.Reads vars place 0) (fuel : Nat) :
    (procAssignExpr cast fuel).Reads vars place 7 := by
  induction fuel with
  | zero => exact fun _ _ _ _ _ _ _ _ _ => holds_error
  | succ fuel ih =>
    intro e ts us s hderives hfollows hresolves hvars hahead
    unfold procAssignExpr
    cases hderives with
    | up h _ =>
      refine (procInclusiveOrExpr_reads hcast fuel h (hfollows.mono (by decide)) hresolves hvars
        hahead).bind ?_
      rintro ⟨or, s1⟩ hor
      refine (nextToken_ahead hor.ahead).bind ?_
      rintro ⟨token, s2⟩ ⟨hlooked, hsame⟩
      have htoken : token = headType us := hlooked.type
      have hassign : ¬token = .assign := by
        rw [htoken]
        exact hfollows.assign (Nat.le_refl 7)
      dsimp only
      rw [if_neg hassign]
      exact holds_ok.mpr (hor.replay hsame hlooked)
    | bin op hop => cases op <;> cases hop
    | @assign x e' ts' h =>
      have hleft : Follows 6 (.punct .assign :: (ts' ++ us)) :=
        ⟨nofun, nofun, nofun, fun op _ heq => op.token_ne.2.2.2 heq.symm,
          fun h7 => absurd h7 (by decide)⟩
      have hx : (CExpr.var x).Resolves vars place := fun y hy =>
        hresolves y (by simpa using .inl (by simpa using hy))
      have he : e'.Resolves vars place := fun y hy => hresolves y (by simp [hy])
      refine (procInclusiveOrExpr_reads hcast fuel (derives_var x 6 (by decide)) hleft hx hvars
        hahead).bind ?_
      rintro ⟨or, s1⟩ hor
      refine (nextToken_punct hor.ahead).bind ?_
      rintro ⟨_, s2⟩ ⟨rfl, htail, hsame⟩
      dsimp only
      rw [if_pos rfl]
      refine (ih h hfollows he ((hsame.vars.trans hor.vars).trans hvars) htail).bind ?_
      rintro ⟨right, s3⟩ hright
      exact holds_ok.mpr (hor.join (sysNode .sysAssign) hsame hright
        (makeSysNode_makes .sysAssign or right s3))

theorem CExpr.node_ne_null (place : List Byte → Nat) (e : CExpr) : e.node place ≠ .null := by
  induction e with
  | plus e ih => exact ih
  | _ => exact nofun

theorem Derives.headType (h : Derives k e ts) :
    headType (ts ++ us) ≠ .semicolon ∧ headType (ts ++ us) ≠ .eof ∧ headType (ts ++ us) ≠ .bad ∧
      startsDecl (headType (ts ++ us)) = false := by
  induction h generalizing us with
  | up h _ ih => exact ih
  | bin op hop hl hr ihl _ =>
    rw [append_assoc]
    exact ihl
  | pre op x => cases op <;> exact ⟨nofun, nofun, nofun, rfl⟩
  | _ => exact ⟨nofun, nofun, nofun, rfl⟩

theorem follows_nil : Follows 7 [] := by
  refine ⟨nofun, nofun, nofun, ?_, nofun⟩
  intro op _
  cases op <;> exact nofun

theorem procExprStatement_reads (fuel : Nat) (hderives : Derives 7 e ts)
    (hresolves : e.Resolves vars place) (hvars : s.vars = vars) (hahead : s.Ahead ts) :
    (procExprStatement env fuel s).Holds fun r => r.2.AtEnd ∧ r.2.vars = s.vars ∧
      r.2.root = s.root ∧ (r.2.errno = .ok → r.1 = e.node place) := by
  unfold procExprStatement
  refine (nextToken_ahead hahead).bind ?_
  rintro ⟨token, s1⟩ ⟨hlooked, hsame⟩
  have htoken : token = headType (ts ++ []) := by
    rw [append_nil]
    exact hlooked.type
  have hsemi : token ≠ .semicolon := by
    rw [htoken]
    exact hderives.headType.1
  dsimp only
  rw [if_pos hsemi]
  have hagain : s1.replay.Ahead (ts ++ []) := by
    rw [append_nil]
    exact hlooked.again
  refine (procAssignExpr_reads (procCastExpr_reads env fuel) fuel (s := s1.replay) hderives
    follows_nil hresolves (hsame.vars.trans hvars) hagain).bind ?_
  rintro ⟨expr, s2⟩ hexpr
  unfold matchToken
  simp only [bind_assoc]
  refine (nextToken_ahead hexpr.ahead).bind ?_
  rintro ⟨token', s3⟩ ⟨hlooked', hsame'⟩
  have htype : token' = .semicolon := hlooked'.type
  have hcheck : checkToken token' .semicolon s3 = s3 := by
    rw [checkToken, if_neg (not_not.mpr htype)]
  refine holds_ok.mpr ?_
  rw [hcheck]
  refine ⟨hlooked'.last rfl, ?_, ?_, ?_⟩
  · exact hsame'.vars.trans (hexpr.vars.trans hsame.vars)
  · exact hsame'.root.trans (hexpr.root.trans hsame.root)
  · intro hok
    exact (hexpr.node (hsame'.errno.symm.trans hok)).2

theorem nextToken_atEnd (h : s.AtEnd) :
    (nextToken s).Holds fun r => r.1 = .eof ∧ SameData s r.2 := by
  obtain ⟨hreplay, text, hat, hspells⟩ := h
  unfold nextToken
  rw [if_neg (by simp [hreplay]), hat.run_nil hspells]
  exact holds_ok.mpr ⟨rfl, rfl, rfl, rfl⟩

/-- The parser builds the tree of the expression that a line spells. -/
theorem finshParserRun_expr (fuel : Nat) {line : List Byte} (hderives : Derives 7 e ts)
    (hspells : Spells (ts ++ [.punct .semicolon]) line) (hresolves : e.Resolves vars place)
    (hvars : s.vars = vars) :
    (finshParserRun env fuel s.flush line).Holds fun s1 =>
      s1.errno = .ok → s1.root = e.node place ∧ s1.vars = vars := by
  unfold finshParserRun
  have hstart : Parser.Ahead { s.flush with token := .init line } ts :=
    ⟨line, ⟨rfl, rfl⟩, (if_neg Bool.false_ne_true).mpr hspells⟩
  refine (nextToken_ahead hstart).bind ?_
  rintro ⟨token, s1⟩ ⟨hlooked, hsame⟩
  have htoken : token = headType (ts ++ []) := by
    rw [append_nil]
    exact hlooked.type
  obtain ⟨-, heof, hbad, hdecl⟩ := @Derives.headType _ [] _ _ hderives
  rw [← htoken] at heof hbad hdecl
  have hroot : s1.root = .null := hsame.root
  cases fuel with
  | zero => exact holds_error
  | succ fuel =>
    dsimp only
    unfold parserLoop
    rw [if_neg (not_or.mpr ⟨heof, hbad⟩), if_pos hroot]
    unfold procStatement
    rw [if_neg (by simp [hdecl])]
    refine (procExprStatement_reads env fuel (s := s1.replay) hderives hresolves
      (hsame.vars.trans hvars) hlooked.again).bind ?_
    rintro ⟨node, s2⟩ ⟨hend, hvars2, -, hnode⟩
    have hvars' : s2.vars = vars := hvars2.trans (hsame.vars.trans hvars)
    dsimp only
    split
    · rename_i hnull
      refine holds_ok.mpr ?_
      intro hok
      have hexpr : node = e.node place := hnode hok
      exact absurd (hexpr.symm.trans hnull) (e.node_ne_null place)
    · have hend' : Parser.AtEnd { s2 with root := node } := hend
      refine (nextToken_atEnd hend').bind ?_
      rintro ⟨token', s3⟩ ⟨htoken', hsame'⟩
      have hlast : token' = .eof := htoken'
      cases fuel with
      | zero => exact holds_error
      | succ fuel =>
        unfold parserLoop
        rw [if_pos (.inl hlast)]
        refine holds_ok.mpr ?_
        intro hok
        exact ⟨hsame'.root.trans (hnode (hsame'.errno.symm.trans hok)), hsame'.vars.trans hvars'⟩

end
end RtThread.Finsh
