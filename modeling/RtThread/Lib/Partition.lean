import Mathlib.Data.List.Nodup
import Mathlib.Data.List.Perm.Subperm

/-!
# Items in lists

The items of a set are distributed over lists: each of them is in one list, once. Moving an item
from one list to another keeps that, wherever in the lists it was and goes.
-/

/-- Each item of `S` is in exactly one of the lists, and in no list twice. -/
structure SplitInto {ι π : Type*} (S : ι → Prop) (part : π → List ι) : Prop where
  nodup : ∀ p, (part p).Nodup
  mem : ∀ {p i}, i ∈ part p → S i
  one : ∀ {i}, S i → ∃! p, i ∈ part p

open List
open Function

namespace SplitInto
variable {ι π : Type*} {S : ι → Prop} {part part' : π → List ι} {p q : π} {i j : ι} {l l' : List ι}

theorem unique (h : SplitInto S part) (hp : i ∈ part p) (hq : i ∈ part q) : p = q :=
  (h.one (h.mem hp)).unique hp hq

theorem not_mem (h : SplitInto S part) (hp : i ∈ part p) (hne : p ≠ q) : i ∉ part q :=
  fun hq => hne (h.unique hp hq)

variable [DecidableEq π]

theorem mem_move (h : SplitInto S part) (hp : (part p).Perm (i :: l)) (hne : p ≠ q)
    (hq : l'.Perm (i :: part q)) {r : π} :
    j ∈ update (update part p l) q l' r ↔ (j = i ∧ r = q) ∨ (j ≠ i ∧ j ∈ part r) := by
  have hnodup := hp.nodup_iff.mp (h.nodup p)
  have hi : i ∈ part p := hp.mem_iff.mpr mem_cons_self
  rw [nodup_cons] at hnodup
  by_cases hrq : r = q
  · subst hrq
    rw [update_self, hq.mem_iff, mem_cons]
    by_cases hj : j = i <;> simp [hj]
  · rw [update_of_ne hrq]
    by_cases hrp : r = p
    · subst hrp
      rw [update_self, hp.mem_iff, mem_cons]
      by_cases hj : j = i
      · simp [hj, hrq, hnodup.1]
      · simp [hj]
    · rw [update_of_ne hrp]
      by_cases hj : j = i
      · subst hj
        simp [hrq, h.not_mem hi (Ne.symm hrp)]
      · simp [hj]

theorem update_move (h : SplitInto S part) (hp : (part p).Perm (i :: l)) (hne : p ≠ q)
    (hq : l'.Perm (i :: part q)) :
    SplitInto S (update (update part p l) q l') where
  nodup r := by
    have hi : i ∈ part p := hp.mem_iff.mpr mem_cons_self
    by_cases hrq : r = q
    · subst hrq
      rw [update_self, hq.nodup_iff, nodup_cons]
      exact ⟨h.not_mem hi hne, h.nodup r⟩
    · rw [update_of_ne hrq]
      by_cases hrp : r = p
      · subst hrp
        rw [update_self]
        exact (nodup_cons.mp (hp.nodup_iff.mp (h.nodup r))).2
      · rw [update_of_ne hrp]
        exact h.nodup r
  mem := by
    intro r j hj
    rcases (h.mem_move hp hne hq).mp hj with ⟨rfl, -⟩ | ⟨-, hj⟩
    · exact h.mem (hp.mem_iff.mpr mem_cons_self)
    · exact h.mem hj
  one := by
    intro j hj
    by_cases hji : j = i
    · refine ⟨q, (h.mem_move hp hne hq).mpr (.inl ⟨hji, rfl⟩), fun r hr => ?_⟩
      rcases (h.mem_move hp hne hq).mp hr with ⟨-, hrq⟩ | ⟨hne', -⟩
      · exact hrq
      · exact absurd hji hne'
    · obtain ⟨r, hr, hunique⟩ := h.one hj
      refine ⟨r, (h.mem_move hp hne hq).mpr (.inr ⟨hji, hr⟩), fun r' hr' => hunique r' ?_⟩
      rcases (h.mem_move hp hne hq).mp hr' with ⟨heq, -⟩ | ⟨-, hr'⟩
      · exact absurd heq hji
      · exact hr'

theorem move (h : SplitInto S part) (hp : (part p).Perm (i :: part' p)) (hne : p ≠ q)
    (hq : (part' q).Perm (i :: part q)) (hother : ∀ r, r ≠ p → r ≠ q → part' r = part r) :
    SplitInto S part' := by
  have heq : part' = update (update part p (part' p)) q (part' q) := by
    funext r
    by_cases hrq : r = q
    · subst hrq
      simp
    · by_cases hrp : r = p
      · subst hrp
        simp [hrq]
      · simp [hrq, hrp, hother r hrp hrq]
  rw [heq]
  exact h.update_move hp hne hq

end SplitInto

namespace SplitInto
variable {π : Type*} {n i : Nat} {part : π → List Nat} {p q : π}

theorem length_le (h : SplitInto (· < n) part) (p : π) : (part p).length ≤ n := by
  have hsub : part p ⊆ List.range n := fun i hi => mem_range.mpr (h.mem hi)
  simpa using ((h.nodup p).subperm hsub).length_le

theorem length_lt (h : SplitInto (· < n) part) (hi : i ∈ part q) (hne : q ≠ p) :
    (part p).length < n := by
  have hnodup : (i :: part p).Nodup := nodup_cons.mpr ⟨h.not_mem hi hne, h.nodup p⟩
  have hsub : i :: part p ⊆ List.range n := by
    intro j hj
    rcases mem_cons.mp hj with rfl | hj
    · exact mem_range.mpr (h.mem hi)
    · exact mem_range.mpr (h.mem hj)
  have hle := (hnodup.subperm hsub).length_le
  rwa [length_range] at hle

end SplitInto
