import RtThread.Finsh.VmRun

/-!
# The code of a tree

What the two passes of the compiler make of a tree, without the errors that they report: the check
takes the data type of a node from its leftmost leaf, and the code of a line is that of its
statements.
-/

namespace RtThread.Finsh

namespace Node

/-- The node without children that the data type of a tree comes from. -/
def lead : Node → NodeInfo
  | null => .new .unknown
  | mk info .null _ => info
  | mk _ (mk info child sibling) _ => (mk info child sibling).lead

theorem lead_mk (info : NodeInfo) {child : Node} (hchild : child ≠ null) (sibling : Node) :
    (mk info child sibling).lead = child.lead := by
  cases child with
  | null => exact absurd rfl hchild
  | mk info' child' sibling' => rfl

/-- The statements of a line, each for itself. -/
def statements : Node → List Node
  | null => []
  | mk info child sibling => mk info child null :: sibling.statements

end Node

section
variable (vars : List Var) (node : Node) (isAddr : Bool) (errno errno' : FinshError)

theorem finshTypeCheck_eq_null :
    (finshTypeCheck vars node isAddr errno).1 = .null ↔ node = .null := by
  cases node with
  | null => simp [finshTypeCheck]
  | mk info child sibling =>
    simp only [finshTypeCheck]
    split <;> simp

theorem finshTypeCheck_dataType :
    (finshTypeCheck vars node isAddr errno).1.info.dataType = (leafDataType vars node.lead).1 := by
  induction node generalizing isAddr errno with
  | null => rfl
  | mk info child sibling ihc _ =>
    have hnull := finshTypeCheck_eq_null vars child (childIsAddr info.nodeType isAddr) errno
    simp only [finshTypeCheck]
    cases child with
    | null => rfl
    | mk info' child' sibling' =>
      rw [if_pos (by simp [hnull])]
      exact ihc _ _

/-- A node after the check, without its links. Only the address bit and the data type change. -/
def checkedInfo (info : NodeInfo) (child : Node) (isAddr : Bool) : NodeInfo :=
  { info with
    address := markAddr info isAddr
    dataType := (leafDataType vars (Node.mk info child .null).lead).1 }

theorem finshTypeCheck_mk (info : NodeInfo) (child sibling : Node) :
    (finshTypeCheck vars (.mk info child sibling) isAddr errno).1
      = .mk (checkedInfo vars info child isAddr)
          (finshTypeCheck vars child (childIsAddr info.nodeType isAddr) errno).1
          (finshTypeCheck vars sibling false
            (finshTypeCheck vars child (childIsAddr info.nodeType isAddr) errno).2).1 := by
  have hnull := finshTypeCheck_eq_null vars child (childIsAddr info.nodeType isAddr) errno
  have hdata := finshTypeCheck_dataType vars child (childIsAddr info.nodeType isAddr) errno
  simp only [finshTypeCheck]
  cases child with
  | null => rfl
  | mk info' child' sibling' =>
    rw [if_pos (by simp [hnull]), hdata]
    rfl

theorem finshTypeCheck_nodeType :
    (finshTypeCheck vars node isAddr errno).1.info.nodeType = node.info.nodeType := by
  cases node with
  | null => rfl
  | mk info child sibling =>
    rw [finshTypeCheck_mk]
    rfl

theorem finshTypeCheck_chainLength :
    (finshTypeCheck vars node isAddr errno).1.chainLength = node.chainLength := by
  induction node generalizing isAddr errno with
  | null => rfl
  | mk info child sibling _ ihs =>
    rw [finshTypeCheck_mk, Node.chainLength, Node.chainLength, ihs]

theorem finshTypeCheck_arguments :
    (finshTypeCheck vars node isAddr errno).1.sibling.chainLength = node.sibling.chainLength := by
  cases node with
  | null => rfl
  | mk info child sibling =>
    rw [finshTypeCheck_mk]
    exact finshTypeCheck_chainLength vars sibling _ _

theorem finshTypeCheck_fst :
    (finshTypeCheck vars node isAddr errno).1 = (finshTypeCheck vars node isAddr errno').1 := by
  induction node generalizing isAddr errno errno' with
  | null => rfl
  | mk info child sibling ihc ihs =>
    rw [finshTypeCheck_mk, finshTypeCheck_mk, ihc _ errno errno', ihs]

end

section
variable (layout : Layout) (vars : List Var) (node : Node) (isAddr : Bool)
variable (errno errno' : FinshError)

theorem finshCompile_fst :
    (finshCompile layout vars node errno).1 = (finshCompile layout vars node errno').1 := by
  induction node generalizing errno errno' with
  | null => rfl
  | mk info child sibling ihc ihs =>
    simp only [finshCompile]
    rw [ihc errno errno', ihs]

/-- The code of a tree after the check. -/
def checkedCode : List Instr :=
  (finshCompile layout vars (finshTypeCheck vars node isAddr .ok).1 .ok).1

theorem finshCompile_check :
    (finshCompile layout vars (finshTypeCheck vars node isAddr errno).1 errno').1
      = checkedCode layout vars node isAddr := by
  rw [checkedCode, finshTypeCheck_fst vars node isAddr errno .ok, finshCompile_fst]

theorem checkedCode_mk (info : NodeInfo) (child sibling : Node) (isAddr : Bool) :
    checkedCode layout vars (.mk info child sibling) isAddr
      = checkedCode layout vars child (childIsAddr info.nodeType isAddr)
        ++ (nodeCode layout vars (checkedInfo vars info child isAddr)
            (finshTypeCheck vars child (childIsAddr info.nodeType isAddr) .ok).1).1
        ++ checkedCode layout vars sibling false := by
  rw [checkedCode, finshTypeCheck_mk]
  simp only [finshCompile]
  rw [finshCompile_check, finshCompile_check]

theorem finshCompilerRun_fst : (finshCompilerRun layout vars node errno).1
    = node.statements.map (checkedCode layout vars · false) := by
  suffices h : ∀ errno errno',
      (compileStatements layout vars (finshTypeCheck vars node false errno).1 errno').1
        = node.statements.map (checkedCode layout vars · false) from h _ _
  induction node with
  | null => exact fun _ _ => rfl
  | mk info child sibling _ ihs =>
    intro errno errno'
    have hfirst := finshCompile_check layout vars (.mk info child .null) false errno errno'
    rw [finshTypeCheck_mk] at hfirst ⊢
    simp only [compileStatements, Node.statements, List.map_cons, ihs]
    exact congrArg (· :: _) hfirst

end
end RtThread.Finsh
