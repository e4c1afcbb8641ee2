import Mathlib.Data.List.Basic
import Mathlib.Data.List.Induction

/-!
# Labelled runs

A system is a step relation with labels. `Run step s₀ tr s` says that `s` is reached from `s₀` by
steps whose labels, in order, are `tr`. An invariant may speak of the labels so far, so that what
was observed along a run can be compared with the state it led to.
-/

theorem List.filterMap_snoc {A O : Type*} (f : A → Option O) (tr : List A) (a : A) :
    (tr ++ [a]).filterMap f = tr.filterMap f ++ (f a).toList := by
  rw [List.filterMap_append, List.filterMap_eq_flatMap_toList f [a], List.flatMap_singleton]

/-- `s` is reached from `s₀` along the labels `tr`. -/
inductive Run {S A : Type*} (step : S → A → S → Prop) (s₀ : S) : List A → S → Prop
  | nil : Run step s₀ [] s₀
  | snoc {tr : List A} {s : S} {a : A} {s' : S} :
      Run step s₀ tr s → step s a s' → Run step s₀ (tr ++ [a]) s'

namespace Run
variable {S A : Type*} {step step' : S → A → S → Prop} {s₀ s : S} {tr : List A}

section
variable (hrun : Run step s₀ tr s)
include hrun

/-- What holds at the start and is kept by every step holds of every run. -/
@[elab_as_elim]
theorem invariant {I : List A → S → Prop} (hinit : I [] s₀)
    (hstep : ∀ tr s a s', I tr s → step s a s' → I (tr ++ [a]) s') : I tr s := by
  induction hrun with
  | nil => exact hinit
  | snoc _ hs ih => exact hstep _ _ _ _ ih hs

@[elab_as_elim]
theorem state_invariant {I : S → Prop} (hinit : I s₀)
    (hstep : ∀ s a s', I s → step s a s' → I s') : I s :=
  hrun.invariant (I := fun _ => I) hinit fun _ => hstep

theorem mono (h : ∀ {s a s'}, step s a s' → step' s a s') : Run step' s₀ tr s := by
  induction hrun with
  | nil => exact .nil
  | snoc _ hs ih => exact .snoc ih (h hs)

theorem append {tr' : List A} {s' : S} (hrun' : Run step s tr' s') :
    Run step s₀ (tr ++ tr') s' := by
  induction hrun' with
  | nil => simpa using hrun
  | snoc _ hs ih =>
    rw [← List.append_assoc]
    exact .snoc ih hs

/-- If a relation of the states is kept by matching steps, a run is matched by a run with the same
labels. -/
theorem simulation {T : Type*} {step' : T → A → T → Prop} {rel : S → T → Prop} {t0 : T}
    (hinit : rel s₀ t0)
    (hstep : ∀ s t a s', rel s t → step s a s' → ∃ t', step' t a t' ∧ rel s' t') :
    ∃ t, Run step' t0 tr t ∧ rel s t := by
  induction hrun with
  | nil => exact ⟨t0, .nil, hinit⟩
  | snoc _ hs ih =>
    obtain ⟨t, hrun', hrel⟩ := ih
    obtain ⟨t', ht, hrel'⟩ := hstep _ _ _ _ hrel hs
    exact ⟨t', .snoc hrun' ht, hrel'⟩

end

section Exec
variable {B : Type*} (next : S → B → Option (A × S))

/-- One command; it is skipped if it cannot be taken. -/
def execStep (x : List A × S) (b : B) : List A × S :=
  match next x.2 b with
  | none => x
  | some y => (x.1 ++ [y.1], y.2)

/-- Runs a list of commands, and collects the labels of their steps. -/
def exec (s₀ : S) (ops : List B) : List A × S := ops.foldl (execStep next) ([], s₀)

variable {next}

theorem of_exec (hnext : ∀ {s b a s'}, next s b = some (a, s') → step s a s') (s₀ : S)
    (ops : List B) : Run step s₀ (exec next s₀ ops).1 (exec next s₀ ops).2 := by
  induction ops using List.reverseRecOn with
  | nil => exact .nil
  | append_singleton ops b ih =>
    have hlast : exec next s₀ (ops ++ [b]) = execStep next (exec next s₀ ops) b := by
      simp [exec]
    rw [hlast, execStep]
    split
    · exact ih
    · rename_i y hy
      exact .snoc ih (hnext hy)

end Exec
end Run

/-- A system driven by commands: when a command can be taken, its result, and the state after it. -/
structure Machine (S B R : Type*) where
  Enabled : S → B → Prop
  apply : S → B → R × S

namespace Machine
variable {S B R : Type*} (M : Machine S B R)

def Step (s : S) (e : B × R) (s' : S) : Prop := M.Enabled s e.1 ∧ M.apply s e.1 = (e.2, s')

variable (P : S → B → Prop)

/-- A step that meets the condition `P`. -/
def StepIf (s : S) (e : B × R) (s' : S) : Prop := M.Step s e s' ∧ P s e.1

/-- The step of a command, if it can be taken and meets the condition. -/
def next [∀ s b, Decidable (M.Enabled s b ∧ P s b)] (s : S) (b : B) : Option ((B × R) × S) :=
  if M.Enabled s b ∧ P s b then some ((b, (M.apply s b).1), (M.apply s b).2) else none

theorem run_exec [∀ s b, Decidable (M.Enabled s b ∧ P s b)] (s₀ : S) (ops : List B) :
    Run (M.StepIf P) s₀ (Run.exec (M.next P) s₀ ops).1 (Run.exec (M.next P) s₀ ops).2 := by
  refine Run.of_exec (fun {s b a s'} h => ?_) s₀ ops
  obtain ⟨hcond, hnext⟩ := Option.ite_none_right_eq_some.mp h
  cases hnext
  exact ⟨⟨hcond.1, rfl⟩, hcond.2⟩

theorem run_steps [∀ s b, Decidable (M.Enabled s b)] (s₀ : S) (ops : List B) :
    Run M.Step s₀ (Run.exec (M.next fun _ _ => True) s₀ ops).1
      (Run.exec (M.next fun _ _ => True) s₀ ops).2 :=
  (M.run_exec _ s₀ ops).mono And.left

/-- A machine that answers every command as another one does has the runs of the other one. -/
theorem simulation {T : Type*} {N : Machine T B R} {P : S → B → Prop} (rel : S → T → Prop)
    {s₀ s : S} {t0 : T} {tr : List (B × R)} (hrun : Run (M.StepIf P) s₀ tr s) (hinit : rel s₀ t0)
    (hop : ∀ s t b, rel s t → M.Enabled s b → P s b →
      N.Enabled t b ∧ (N.apply t b).1 = (M.apply s b).1 ∧ rel (M.apply s b).2 (N.apply t b).2) :
    ∃ t, Run N.Step t0 tr t ∧ rel s t := by
  refine hrun.simulation hinit fun s t e s' hrel ⟨⟨henabled, happly⟩, hcond⟩ => ?_
  obtain ⟨henabled', hresult, hrel'⟩ := hop s t e.1 hrel henabled hcond
  rw [happly] at hresult hrel'
  exact ⟨(N.apply t e.1).2, ⟨henabled', Prod.ext hresult rfl⟩, hrel'⟩

end Machine

section
variable {S A : Type*} (step : S → A → S) {I : S → Prop} {P : S → A → Prop}

/-- `P` holds of every step of the run. -/
def Throughout (P : S → A → Prop) : S → List A → Prop
  | _, [] => True
  | s, a :: as => P s a ∧ Throughout P (step s a) as

variable {step}

/-- An invariant that is kept by exactly the steps with `P` is kept by exactly the runs with `P`. -/
theorem throughout_iff (hstep : ∀ {s}, I s → ∀ a, I (step s a) ↔ P s a) {s : S} (h : I s)
    (as : List A) : Throughout step (fun s a => I (step s a)) s as ↔ Throughout step P s as := by
  induction as generalizing s with
  | nil => exact Iff.rfl
  | cons a as ih =>
    rw [Throughout, Throughout, ← hstep h a]
    exact and_congr_right ih

end
