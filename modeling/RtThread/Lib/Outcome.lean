import Mathlib.Init

/-!
# Results that may be missing

Rules for computations in `Except`: `x.Holds Q` says that the value of `x`, if it has one, satisfies
`Q`. A sequence of computations is followed from one intermediate assertion to the next.
-/

namespace Except

universe u v

variable {ε : Type u} {α β : Type v} {x : Except ε α} {P Q : α → Prop} {R : β → Prop}

/-- The value, if there is one, satisfies `Q`. -/
def Holds (x : Except ε α) (Q : α → Prop) : Prop := ∀ a, x = .ok a → Q a

@[simp]
theorem holds_ok {a : α} : Holds (.ok a : Except ε α) Q ↔ Q a := by
  constructor
  · intro h
    exact h a rfl
  · intro hQ b hb
    cases hb
    exact hQ

@[simp]
theorem holds_error {e : ε} : Holds (.error e : Except ε α) Q := by
  nofun

theorem Holds.mono (h : x.Holds P) (hPQ : ∀ a, P a → Q a) : x.Holds Q := fun a ha => hPQ a (h a ha)

theorem Holds.bind {f : α → Except ε β} (h : x.Holds P) (hf : ∀ a, P a → (f a).Holds R) :
    (x >>= f).Holds R := by
  intro b hb
  cases hx : x with
  | error e =>
    rw [hx] at hb
    cases hb
  | ok a =>
    rw [hx] at hb
    exact hf a (h a hx) b hb

/-- A result that has been evaluated, with what is read off it. -/
theorem exists_ok [DecidablePred P] (h : x.toOption.any (fun a => decide (P a)) = true)
    (hPQ : ∀ a, x = .ok a → P a → Q a) : ∃ a, x = .ok a ∧ Q a := by
  cases x with
  | error e => cases h
  | ok a => exact ⟨a, rfl, hPQ a rfl (of_decide_eq_true h)⟩

end Except
