import RtThread.Finsh.Parser
import RtThread.Lib.Outcome

/-!
# Errors of the parser

No function of the parser takes back an error that was set before it was called.
-/

namespace RtThread.Finsh
open Except (holds_ok holds_error)

variable {H : Type} {env : Env H} {s : Parser H} {errno : FinshError}

/-- There has been an error. -/
def Parser.Failed (s : Parser H) : Prop := s.errno ≠ .ok

/-- A function that comes back with an error, if it is called with one. -/
def Parse.KeepsError {α : Type} (p : Parse H α) : Prop :=
  ∀ ⦃s⦄, s.Failed → (p s).Holds fun r => r.2.Failed

theorem failed_errorSet (herrno : errno ≠ .ok) (s : Parser H) : (s.errorSet errno).Failed := herrno

theorem Token.procStringLoop_error (n : Nat) (written : List Byte) (token : Token) :
    (token.procStringLoop n written).2 ≠ some .ok := by
  induction n generalizing written token with
  | zero => simp [Token.procStringLoop]
  | succ n ih =>
    unfold Token.procStringLoop
    split
    split
    · simp
    · split
      · exact ih _ _
      · split
        · simp
        · exact ih _ _

theorem Token.procChar_error (token : Token) : token.procChar.Holds fun r => r.2.2 ≠ some .ok := by
  unfold Token.procChar
  refine Except.Holds.bind (fun _ _ => trivial) ?_
  rintro ⟨ch, token⟩ -
  simp only
  split <;> simp

theorem Token.run_error (token : Token) : token.run.Holds fun r => r.2 ≠ some .ok := by
  unfold Token.run
  refine Except.Holds.bind (fun _ _ => trivial) ?_
  rintro token -
  split
  · simp
  · split
    · simp
    · generalize token.nextChar.1 = ch
      unfold Token.procOperator
      split
      · simp
      · split_ifs
        · simp
        · simp
        · simp
        · simp
        · simp
        · refine (token.nextChar.2.procChar_error).bind ?_
          rintro ⟨ch, token, error⟩ herror
          simpa using herror
        · exact holds_ok.mpr (Token.procStringLoop_error _ _ _)
        · refine Except.Holds.bind (fun _ _ => trivial) ?_
          rintro token -
          simp
        · simp

theorem nextToken_keepsError : (nextToken (H := H)).KeepsError := by
  intro s h
  unfold nextToken
  split
  · exact holds_ok.mpr h
  · refine s.token.run_error.bind ?_
    rintro ⟨token, error⟩ herror
    refine holds_ok.mpr fun hok => ?_
    cases error with
    | none => exact h hok
    | some e => exact herror (congrArg some hok)

theorem checkToken_failed (h : s.Failed) (token type : TokenType) :
    (checkToken token type s).Failed := by
  unfold checkToken
  split
  · exact failed_errorSet (by decide : FinshError.invalidToken ≠ .ok) s
  · exact h

theorem matchToken_failed (h : s.Failed) (type : TokenType) :
    (matchToken type s).Holds Parser.Failed := by
  unfold matchToken
  exact (nextToken_keepsError h).bind fun r h => holds_ok.mpr (checkToken_failed h r.1 type)

theorem procIdentifier_keepsError : (procIdentifier env).KeepsError := by
  intro s h
  unfold procIdentifier
  exact (matchToken_failed h .identifier).bind fun s h => holds_ok.mpr h

theorem procPointer_keepsError (type : FinshType) : (procPointer (H := H) type).KeepsError := by
  intro s h
  unfold procPointer
  refine (nextToken_keepsError h).bind fun r h => ?_
  dsimp only
  split <;> exact holds_ok.mpr h

theorem procType_keepsError : (procType (H := H)).KeepsError := by
  intro s h
  unfold procType
  refine (nextToken_keepsError h).bind fun r h => ?_
  dsimp only
  split
  · exact procPointer_keepsError _ h
  · split
    · refine (nextToken_keepsError h).bind fun r h => ?_
      split
      · split
        · exact procPointer_keepsError _ h
        · exact holds_ok.mpr (failed_errorSet (by decide) _)
      · exact procPointer_keepsError _ (failed_errorSet (by decide) _)
    · exact holds_ok.mpr (failed_errorSet (by decide) _)

theorem newNode_failed (h : s.Failed) (info : NodeInfo) : (newNode info s).2.Failed := by
  unfold newNode
  split
  · exact h
  · exact failed_errorSet (by decide) s

theorem finshNodeNewId_failed (h : s.Failed) (env : Env H) (id : List Byte) :
    (finshNodeNewId env id s).2.Failed := by
  unfold finshNodeNewId
  split
  · exact newNode_failed h _
  · exact failed_errorSet (by decide) s

theorem finshNodeNewString_keepsError : (finshNodeNewString env).KeepsError := by
  intro s h
  unfold finshNodeNewString
  split
  · split
    · exact holds_ok.mpr (newNode_failed (by exact h) _)
    · exact holds_error
  · exact holds_ok.mpr (failed_errorSet (by decide) s)

theorem makeSysNode_failed (h : s.Failed) (type : NodeType) (node1 node2 : Node) :
    (makeSysNode type node1 node2 s).2.Failed := by
  unfold makeSysNode finshNodeAllocate
  by_cases hroom : s.nodes < finshNodeMax <;> simp only [hroom, if_true, if_false] <;> split <;>
    first | exact h | exact failed_errorSet (by decide) _

section
variable {ops : TokenType → Option NodeType} {operand cast assign : Parse H Node}

theorem binaryLoop_keepsError (hoperand : operand.KeepsError) (fuel : Nat) (left : Node)
    (token : TokenType) : (binaryLoop ops operand fuel left token).KeepsError := by
  induction fuel generalizing left token with
  | zero => exact fun _ _ => holds_error
  | succ fuel ih =>
    intro s h
    unfold binaryLoop
    split
    · exact holds_ok.mpr h
    · refine (hoperand h).bind fun r h => ?_
      have hjoin : ∀ type, (joinOperand type left r.1 r.2).2.Failed := by
        intro type
        unfold joinOperand
        split
        · exact failed_errorSet (by decide) r.2
        · exact makeSysNode_failed h type left r.1
      exact (nextToken_keepsError (hjoin _)).bind fun r h => ih _ r.1 h

theorem procBinary_keepsError (hoperand : operand.KeepsError) (fuel : Nat) :
    (procBinary ops operand fuel).KeepsError := by
  intro s h
  unfold procBinary
  refine (hoperand h).bind fun left h => (nextToken_keepsError h).bind fun token h => ?_
  exact binaryLoop_keepsError hoperand fuel left.1 token.1 h

/-- What a level of binary operators takes over from its operands, the whole expression takes over
from the casts. -/
theorem procInclusiveOrExpr_induct {P : Parse H Node → Prop} {fuel : Nat}
    (hbinary : ∀ ops operand, P operand → P (procBinary ops operand fuel)) (hcast : P cast) :
    P (procInclusiveOrExpr cast fuel) := by
  unfold procInclusiveOrExpr procExclusiveOrExpr procAndExpr procShiftExpr procAdditiveExpr
    procMultiplicativeExpr
  iterate 6 refine hbinary _ _ ?_
  exact hcast

theorem procAssignExpr_keepsError (hcast : cast.KeepsError) (fuel : Nat) :
    (procAssignExpr cast fuel).KeepsError := by
  induction fuel with
  | zero => exact fun _ _ => holds_error
  | succ fuel ih =>
    have hlevels : (procInclusiveOrExpr cast fuel).KeepsError :=
      procInclusiveOrExpr_induct (fun _ _ hoperand => procBinary_keepsError hoperand fuel) hcast
    intro s h
    unfold procAssignExpr
    refine (hlevels h).bind fun or h => (nextToken_keepsError h).bind fun token h => ?_
    dsimp only
    split
    · exact (ih h).bind fun r h => holds_ok.mpr (makeSysNode_failed h _ _ _)
    · exact holds_ok.mpr h

section
variable (hassign : assign.KeepsError)
include hassign

theorem paramLoop_keepsError (fuel : Nat) (node : Node) (k : Nat) (token : TokenType) :
    (paramLoop assign fuel node k token).KeepsError := by
  induction fuel generalizing node k token with
  | zero => exact fun _ _ => holds_error
  | succ fuel ih =>
    intro s h
    unfold paramLoop
    split
    · refine (hassign h).bind fun r h => ?_
      have hset : (if r.1 = .null then r.2.errorSet .expectOperator else r.2).Failed := by
        split
        · exact failed_errorSet (by decide) r.2
        · exact h
      exact (nextToken_keepsError hset).bind fun r h => ih _ _ r.1 h
    · exact holds_ok.mpr h

theorem procParams_keepsError (fuel : Nat) : (procParams assign fuel).KeepsError := by
  have hlist : (procParamList assign fuel).KeepsError := by
    intro s h
    unfold procParamList
    refine (hassign h).bind fun r h => ?_
    dsimp only
    split
    · exact holds_ok.mpr h
    · exact (nextToken_keepsError h).bind fun r h => paramLoop_keepsError hassign fuel _ 0 r.1 h
  intro s h
  unfold procParams
  refine (nextToken_keepsError h).bind fun r h => ?_
  dsimp only
  split
  · exact (hlist (s := r.2.replay) h).bind fun r h =>
      (matchToken_failed h .rightParen).bind fun s h => holds_ok.mpr h
  · exact holds_ok.mpr h

theorem procPrimaryExpr_keepsError : (procPrimaryExpr env assign).KeepsError := by
  intro s h
  unfold procPrimaryExpr
  refine (nextToken_keepsError h).bind fun r h => ?_
  dsimp only
  split
  · exact (procIdentifier_keepsError (s := r.2.replay) h).bind fun r h =>
      holds_ok.mpr (finshNodeNewId_failed h env r.1)
  · exact (hassign h).bind fun r h =>
      (matchToken_failed h .rightParen).bind fun s h => holds_ok.mpr h
  · exact holds_ok.mpr (newNode_failed h _)
  · exact holds_ok.mpr (newNode_failed h _)
  · exact holds_ok.mpr (newNode_failed h _)
  · exact finshNodeNewString_keepsError h
  · exact holds_ok.mpr (newNode_failed h _)
  · exact holds_ok.mpr (failed_errorSet (by decide) _)

theorem postfixLoop_keepsError (fuel : Nat) (node : Node) (token : TokenType) :
    (postfixLoop assign fuel node token).KeepsError := by
  induction fuel generalizing node token with
  | zero => exact fun _ _ => holds_error
  | succ fuel ih =>
    intro s h
    unfold postfixLoop
    split
    · exact (nextToken_keepsError (makeSysNode_failed h _ _ _)).bind fun r h => ih _ r.1 h
    · exact (nextToken_keepsError (makeSysNode_failed h _ _ _)).bind fun r h => ih _ r.1 h
    · refine (procParams_keepsError hassign fuel h).bind fun r h => ?_
      exact (nextToken_keepsError (makeSysNode_failed h _ _ _)).bind fun r h => ih _ r.1 h
    · exact holds_ok.mpr h

end

theorem procUnaryExpr_keepsError (hcast : cast.KeepsError) (hassign : assign.KeepsError)
    (fuel : Nat) : (procUnaryExpr env cast assign fuel).KeepsError := by
  intro s h
  unfold procUnaryExpr
  refine (nextToken_keepsError h).bind fun r h => ?_
  dsimp only
  split
  · exact (hcast h).bind fun r h => holds_ok.mpr (makeSysNode_failed h _ _ _)
  · split
    · exact hcast h
    · exact (hcast h).bind fun r h =>
        holds_ok.mpr (makeSysNode_failed (newNode_failed h _) _ _ _)
    · unfold procPostfixExpr
      refine (procPrimaryExpr_keepsError hassign (s := r.2.replay) h).bind fun r h => ?_
      exact (nextToken_keepsError h).bind fun r h => postfixLoop_keepsError hassign fuel _ r.1 h

end

variable (fuel : Nat)

theorem procCastExpr_keepsError : (procCastExpr env fuel).KeepsError := by
  induction fuel with
  | zero => exact fun _ _ => holds_error
  | succ fuel ih =>
    have hunary : (procUnaryExpr env (procCastExpr env fuel)
        (procAssignExpr (procCastExpr env fuel) fuel) fuel).KeepsError :=
      procUnaryExpr_keepsError ih (procAssignExpr_keepsError ih fuel) fuel
    intro s h
    unfold procCastExpr
    refine (nextToken_keepsError h).bind fun r h => ?_
    dsimp only
    split
    · refine (procType_keepsError h).bind fun r h => (matchToken_failed h .rightParen).bind ?_
      refine fun s h => (ih h).bind fun r h => ?_
      split
      · exact holds_ok.mpr h
      · exact hunary h
    · exact hunary h

theorem procExpr_keepsError : (procExpr env fuel).KeepsError :=
  procAssignExpr_keepsError (procCastExpr_keepsError fuel) fuel

theorem procDeclarator_keepsError (type : FinshType) : (procDeclarator env type).KeepsError := by
  intro s h
  unfold procDeclarator
  refine (procIdentifier_keepsError h).bind fun r h => ?_
  dsimp only
  split
  · exact holds_ok.mpr h
  · exact holds_ok.mpr (failed_errorSet (by decide) _)

theorem procInitializer_keepsError (id : List Byte) (node : Node) (k : Nat) :
    (procInitializer env id node k fuel).KeepsError := by
  intro s h
  unfold procInitializer
  refine (procExpr_keepsError fuel h).bind fun r h => ?_
  dsimp only
  split
  · have hid := finshNodeNewId_failed h env id
    exact (nextToken_keepsError (makeSysNode_failed hid _ _ _)).bind fun r h => holds_ok.mpr h
  · exact holds_ok.mpr h

theorem declLoop_keepsError (type : FinshType) (assigns : Node × Nat) (token : TokenType) :
    (declLoop env type fuel assigns token).KeepsError := by
  induction fuel generalizing assigns token with
  | zero => exact fun _ _ => holds_error
  | succ fuel ih =>
    obtain ⟨node, k⟩ := assigns
    have hnext : (procNextDeclarator env type node k fuel).KeepsError := by
      intro s h
      unfold procNextDeclarator
      refine (procDeclarator_keepsError type h).bind fun r h => ?_
      refine (nextToken_keepsError h).bind fun r h => ?_
      dsimp only
      split
      · exact procInitializer_keepsError fuel _ node k h
      · exact holds_ok.mpr h
    intro s h
    unfold declLoop
    split
    · exact (hnext h).bind fun r h => ih r.1.1 r.1.2 h
    · exact holds_ok.mpr (checkToken_failed h token .semicolon)

theorem procStatement_keepsError (token : TokenType) :
    (procStatement env fuel token).KeepsError := by
  intro s h
  unfold procStatement
  split
  · unfold procVariableDecl
    refine (procType_keepsError (s := s.replay) h).bind fun type h => ?_
    refine (procDeclarator_keepsError type.1 h).bind fun id h => ?_
    refine (nextToken_keepsError h).bind fun r h => ?_
    dsimp only
    split
    · exact declLoop_keepsError fuel _ (.null, 0) .comma h
    · exact (procInitializer_keepsError fuel _ .null 0 h).bind fun r h =>
        declLoop_keepsError fuel _ r.1.1 r.1.2 h
    · exact holds_ok.mpr h
    · exact holds_ok.mpr (failed_errorSet (by decide) _)
  · unfold procExprStatement
    refine (nextToken_keepsError (s := s.replay) h).bind fun r h => ?_
    dsimp only
    split
    · exact (procExpr_keepsError fuel (s := r.2.replay) h).bind fun r h =>
        (matchToken_failed h .semicolon).bind fun s h => holds_ok.mpr h
    · exact holds_ok.mpr h

theorem skipEmpty_failed (h : s.Failed) (node : Node) (token : TokenType) :
    (skipEmpty node token s).Holds Parser.Failed := by
  unfold skipEmpty
  split
  · exact (nextToken_keepsError h).bind fun r h => holds_ok.mpr h
  · exact holds_ok.mpr h

theorem parserLoop_failed (h : s.Failed) (k : Nat) (token : TokenType) :
    (parserLoop env fuel k token s).Holds Parser.Failed := by
  induction fuel generalizing k token s with
  | zero => exact holds_error
  | succ fuel ih =>
    unfold parserLoop
    split
    · exact holds_ok.mpr h
    · split
      · refine (procStatement_keepsError fuel token h).bind fun r h => ?_
        dsimp only
        split
        · exact holds_ok.mpr h
        · exact (nextToken_keepsError (s := { r.2 with root := r.1 }) h).bind fun r h => ih h 0 r.1
      · refine (procStatement_keepsError fuel token h).bind fun r h => ?_
        refine (skipEmpty_failed (s := { r.2 with root := r.2.root.setSibling k r.1 }) h r.1
          token).bind ?_
        intro s h
        exact (nextToken_keepsError h).bind fun r h => ih h _ r.1

end RtThread.Finsh
