import Mathlib.Data.List.Nodup

/-!
# Singly linked lists

Nodes are linked by a `next` field, and a list is given by a pointer to its first node. `NodesFrom`
says which nodes are met from a pointer on. The lemmas give the effect of taking the first node off,
putting a node in front, and linking a node behind the last one.
-/

/-- The nodes from `p` on are those of the list, in this order, and then there is no more. -/
def NodesFrom {α : Type*} (next : α → Option α) : Option α → List α → Prop
  | p, [] => p = none
  | p, a :: l => p = some a ∧ NodesFrom next (next a) l

namespace NodesFrom
open Function
open List
variable {α : Type*} {next next' : α → Option α} {p : Option α} {a b : α} {l l' : List α}

@[simp] theorem nodesFrom_nil : NodesFrom next p [] ↔ p = none := Iff.rfl

@[simp] theorem nodesFrom_cons :
    NodesFrom next p (a :: l) ↔ p = some a ∧ NodesFrom next (next a) l := Iff.rfl

theorem eq_head? (h : NodesFrom next p l) : p = l.head? := by
  cases l with
  | nil => exact h
  | cons a l => exact h.1

theorem congr (h : NodesFrom next p l) (heq : ∀ a ∈ l, next' a = next a) : NodesFrom next' p l := by
  induction l generalizing p with
  | nil => exact h
  | cons a l ih =>
    refine ⟨h.1, ?_⟩
    rw [heq a mem_cons_self]
    exact ih h.2 fun b hb => heq b (mem_cons_of_mem a hb)

variable [DecidableEq α]

theorem update (h : NodesFrom next p l) (ha : a ∉ l) (q : Option α) :
    NodesFrom (update next a q) p l := by
  refine h.congr fun b hb => update_of_ne ?_ _ _
  rintro rfl
  exact ha hb

theorem push (h : NodesFrom next p l) (ha : a ∉ l) :
    NodesFrom (Function.update next a p) (some a) (a :: l) := by
  refine ⟨rfl, ?_⟩
  rw [update_self]
  exact h.update ha p

theorem append (h : NodesFrom next p l) (hlast : l.getLast? = some b) (hnodup : l.Nodup)
    (ha : a ∉ l) (hnext : next a = none) :
    NodesFrom (Function.update next b (some a)) p (l ++ [a]) := by
  -- along the list; the assignment hits its last node
  induction l generalizing p with
  | nil => cases hlast
  | cons c l ih =>
    refine ⟨h.1, ?_⟩
    rw [nodup_cons] at hnodup
    rw [mem_cons, not_or] at ha
    cases l with
    | nil =>
      obtain rfl : c = b := Option.some.inj hlast
      simp [update_of_ne ha.1, hnext]
    | cons d l =>
      have hlast' : (d :: l).getLast? = some b := by rwa [List.getLast?_cons_cons] at hlast
      have hcb : c ≠ b := by
        rintro rfl
        exact hnodup.1 (mem_of_getLast? hlast')
      rw [update_of_ne hcb]
      exact ih h.2 hlast' hnodup.2 ha.2

end NodesFrom
