import Mathlib.Data.List.Basic

/-!
# Heights of a stack

Straight-line code for a stack machine, seen only by what its instructions take from the stack and
leave on it.
-/

/-- How many entries an instruction takes, and how many it leaves. -/
structure StackEffect where
  pops : Nat
  pushes : Nat

namespace StackEffect

/-- The height of the stack behind the code that starts with `h` entries, if every instruction finds
the entries that it takes. -/
def height : (code : List StackEffect) → (h : Nat) → Option Nat
  | [], h => some h
  | e :: code, h => if e.pops ≤ h then height code (h - e.pops + e.pushes) else none

@[simp]
theorem height_nil (h : Nat) : height [] h = some h := rfl

theorem height_append (code code' : List StackEffect) (h : Nat) :
    height (code ++ code') h = (height code h).bind (height code') := by
  induction code generalizing h with
  | nil => rfl
  | cons e code ih =>
    simp only [List.cons_append, height]
    split
    · exact ih _
    · rfl

end StackEffect
