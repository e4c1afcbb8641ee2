import RtThread.Finsh.CodeSize
import RtThread.Finsh.Lexing
import RtThread.Finsh.ParserErrors

/-!
# Groups in parentheses

`proc_cast_expr` takes every `(` for the start of a cast, and `proc_type` reports whatever else
stands behind it. The error stays, so the alternative of `proc_primary_expr` for a group is of no
use.
-/

namespace RtThread.Finsh
open Except (holds_ok holds_error)

section
variable {H : Type} {env : Env H} {s : Parser H} {fuel : Nat}

/-- The parser has read a `(`, and no type stands behind it. -/
structure PastParen (s : Parser H) : Prop where
  paren : s.token.currentToken = .leftParen
  fresh : s.token.replay = false
  behind : s.token.run.Holds fun r => startsDecl r.1.currentToken = false

section
variable (h : PastParen s)
include h

theorem PastParen.nextToken_replay : nextToken s.replay = .ok (.leftParen, s) := by
  obtain ⟨⟨eof, replay, position, type, value, string, line⟩, root, errno, nodes, vars, heap⟩ := s
  cases h.paren
  cases h.fresh
  rfl

theorem PastParen.procCastExpr_failed :
    (procCastExpr env fuel s.replay).Holds fun r => r.2.Failed := by
  cases fuel with
  | zero => exact holds_error
  | succ fuel =>
    have htype : (procType s).Holds fun r => r.2.Failed := by
      have hnext : (nextToken s).Holds fun r => startsDecl r.1 = false := by
        rw [nextToken, if_neg (by simp [h.fresh])]
        exact h.behind.bind fun r hr => holds_ok.mpr hr
      unfold procType
      refine hnext.bind ?_
      rintro ⟨token, s1⟩ hdecl
      simp only [startsDecl, Bool.or_eq_false_iff, Option.isSome_eq_false_iff,
        Option.isNone_iff_eq_none, decide_eq_false_iff_not] at hdecl
      simp [hdecl, Parser.errorSet, Parser.Failed]
    unfold procCastExpr
    rw [h.nextToken_replay]
    refine htype.bind fun r h => (matchToken_failed h .rightParen).bind fun s h => ?_
    refine (procCastExpr_keepsError fuel h).bind fun r h => ?_
    dsimp only
    split
    · exact holds_ok.mpr h
    · exact procUnaryExpr_keepsError (procCastExpr_keepsError fuel)
        (procAssignExpr_keepsError (procCastExpr_keepsError fuel) fuel) fuel h

theorem PastParen.procExpr_failed :
    (procExpr env fuel s.replay).Holds fun r => r.2.Failed := by
  cases fuel with
  | zero => exact holds_error
  | succ fuel =>
    let P : Parse H Node → Prop := fun p => p.KeepsError ∧ (p s.replay).Holds fun r => r.2.Failed
    have hlevels : P (procInclusiveOrExpr (procCastExpr env (fuel + 1)) fuel) :=
      procInclusiveOrExpr_induct (by
        rintro ops operand ⟨hkeeps, hfailed⟩
        refine ⟨procBinary_keepsError hkeeps fuel, ?_⟩
        unfold procBinary
        refine hfailed.bind fun left h => (nextToken_keepsError h).bind fun token h => ?_
        exact binaryLoop_keepsError hkeeps fuel left.1 token.1 h)
      ⟨procCastExpr_keepsError (fuel + 1), h.procCastExpr_failed⟩
    unfold procExpr procAssignExpr
    refine hlevels.2.bind fun or h => (nextToken_keepsError h).bind fun token h => ?_
    dsimp only
    split
    · refine (procAssignExpr_keepsError (procCastExpr_keepsError (fuel + 1)) fuel h).bind ?_
      exact fun r h => holds_ok.mpr (makeSysNode_failed h _ _ _)
    · exact holds_ok.mpr h

theorem PastParen.procStatement_failed :
    (procStatement env fuel .leftParen s).Holds fun r => r.2.Failed := by
  unfold procStatement procExprStatement
  rw [if_neg (by decide), h.nextToken_replay]
  exact h.procExpr_failed.bind fun r h =>
    (matchToken_failed h .semicolon).bind fun s h => holds_ok.mpr h

theorem PastParen.parserLoop_failed :
    (parserLoop env fuel 0 .leftParen s).Holds Parser.Failed := by
  cases fuel with
  | zero => exact holds_error
  | succ fuel =>
    unfold parserLoop
    rw [if_neg (by decide)]
    split
    · refine h.procStatement_failed.bind fun r h => ?_
      dsimp only
      split
      · exact holds_ok.mpr h
      · exact (nextToken_keepsError (s := { r.2 with root := r.1 }) h).bind fun r h =>
          Finsh.parserLoop_failed fuel h 0 r.1
    · refine h.procStatement_failed.bind fun r h => ?_
      refine (skipEmpty_failed (s := { r.2 with root := r.2.root.setSibling 0 r.1 }) h r.1 _).bind
        ?_
      intro s h
      exact (nextToken_keepsError h).bind fun r h => Finsh.parserLoop_failed fuel h _ r.1

end

/-- The scanner behind the `(` that a line starts with. -/
def behindParen (line : List Byte) : Token :=
  { Token.init line with position := 1, currentToken := .leftParen }

theorem nextToken_paren {text : List Byte} (s : Parser H) :
    nextToken { s with token := .init ('('.byte :: text) }
      = .ok (.leftParen, { s with token := behindParen ('('.byte :: text) }) := by
  have hat : (Token.init ('('.byte :: text)).At ([] ++ '('.byte :: text) := ⟨rfl, rfl⟩
  have hempty := hat.getString_empty (.inr (by decide)) (by decide)
  have hrun := Token.run_of_empty (hat.trimSpace (by simp) (by decide) (by decide)) hempty rfl rfl
  rw [(hat.withString []).nextChar (by decide), Token.procOperator_single rfl] at hrun
  rw [nextToken, if_neg (by simp [Token.init])]
  rw [hrun]
  rfl

end

/-- If the token behind a `(` does not start a type, a line that starts with the `(` is not
accepted, and neither is an operand that starts with it. -/
theorem group_not_accepted {H : Type} (env : Env H) (fuel : Nat) :
    (∀ (s s₁ : Parser H) (text : List Byte),
      (behindParen ('('.byte :: text)).run.Holds (fun r => startsDecl r.1.currentToken = false) →
      finshParserRun env fuel s.flush ('('.byte :: text) = .ok s₁ → s₁.errno ≠ .ok) ∧
    (∀ (s s₁ : Parser H) r, nextToken s = .ok (.leftParen, s₁) → PastParen s₁ →
      procCastExpr env fuel s = .ok r → r.2.errno ≠ .ok) := by
  constructor
  · intro s s₁ text hexpr hrun
    have hparen : PastParen { s.flush with token := behindParen ('('.byte :: text) } :=
      ⟨rfl, rfl, hexpr⟩
    rw [finshParserRun, nextToken_paren] at hrun
    exact hparen.parserLoop_failed s₁ hrun
  · intro s s₁ r hnext hparen hrun
    have hsame : procCastExpr env fuel s = procCastExpr env fuel s₁.replay := by
      cases fuel with
      | zero => rfl
      | succ fuel => rw [procCastExpr, procCastExpr, hnext, hparen.nextToken_replay]
    rw [hsame] at hrun
    exact hparen.procCastExpr_failed r hrun

theorem group_not_accepted_sum : ∃ s₁ : Parser Unit,
    finshParserRun sampleEnv 40 (sampleParser .int).flush
      (['(', 'x', '+', '1', ')', ';'].map Char.byte) = .ok s₁ ∧ s₁.errno ≠ .ok := by
  refine Except.exists_ok (P := fun _ => True) (by decide +kernel) fun s₁ hrun _ => ?_
  refine (group_not_accepted sampleEnv 40).1 _ s₁ _ (fun r hr => ?_) hrun
  obtain ⟨r', hr', htype⟩ : ∃ r', (behindParen (['(', 'x', '+', '1', ')', ';'].map Char.byte)).run =
      .ok r' ∧ startsDecl r'.1.currentToken = false :=
    Except.exists_ok (by decide +kernel) fun _ _ h => h
  cases hr'.symm.trans hr
  exact htype

/-- The line `1;` is accepted, and the line `(1);` is not. -/
theorem group_of_literal_rejected : (finshParserRun sampleEnv 40 (sampleParser .int).flush
        (['1', ';'].map Char.byte)).toOption.map (·.errno) = some .ok ∧
      (finshParserRun sampleEnv 40 (sampleParser .int).flush
        (['(', '1', ')', ';'].map Char.byte)).toOption.map (·.errno) = some .invalidToken := by
  decide +kernel

end RtThread.Finsh
