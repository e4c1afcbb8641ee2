import Mathlib.Data.List.Nodup

/-!
# Doubly linked lists

`DLinked next prev p l q` says that following `next` from `p` visits the nodes `l` and then `q`, and
that `prev` leads back. A circular list with a header `h` is `DLinked next prev h l h`. The rules
for unlinking a node and linking one in speak of the new links by their values, not by the order of
the stores.
-/

variable {α : Type*} {next prev next' prev' : α → α} {p q a b h x : α} {l r : List α}

/-- The nodes between `p` and `q` are `l`, in both directions. -/
def DLinked (next prev : α → α) (p : α) : List α → α → Prop
  | [], q => next p = q ∧ prev q = p
  | a :: l, q => next p = a ∧ prev a = p ∧ DLinked next prev a l q

namespace DLinked
open List

theorem append : DLinked next prev p (l ++ a :: r) q ↔
    DLinked next prev p l a ∧ DLinked next prev a r q := by
  induction l generalizing p with
  | nil => exact and_assoc.symm
  | cons b l ih =>
    simp only [cons_append, DLinked, ih, and_assoc]

theorem congr (hl : DLinked next prev p l q) (hnext : ∀ y ∈ p :: l, next' y = next y)
    (hprev : ∀ y ∈ l ++ [q], prev' y = prev y) : DLinked next' prev' p l q := by
  induction l generalizing p with
  | nil =>
    obtain ⟨hp, hq⟩ := hl
    exact ⟨(hnext p mem_cons_self).trans hp, (hprev q (by simp)).trans hq⟩
  | cons a l ih =>
    obtain ⟨hp, ha, hrest⟩ := hl
    refine ⟨(hnext p mem_cons_self).trans hp, (hprev a (by simp)).trans ha, ih hrest ?_ ?_⟩
    · intro y hy
      exact hnext y (mem_cons_of_mem p hy)
    · intro y hy
      exact hprev y (mem_cons_of_mem a hy)

theorem prev_mem (hl : DLinked next prev p l q) : prev q ∈ p :: l := by
  induction l generalizing p with
  | nil =>
    rw [hl.2]
    exact mem_cons_self
  | cons a l ih => exact mem_cons_of_mem p (ih hl.2.2)

theorem next_mem (hl : DLinked next prev p l q) : next p ∈ l ++ [q] := by
  cases l with
  | nil | cons a l =>
    rw [hl.1]
    exact mem_cons_self

section Relink
variable [DecidableEq α]

theorem retargetEnd (hl : DLinked next prev p l a) (hnodup : (p :: l).Nodup)
    (hnext : ∀ y ∈ p :: l, next' y = if y = prev a then b else next y)
    (hprev : ∀ y ∈ l, prev' y = prev y) (hb : prev' b = prev a) : DLinked next' prev' p l b := by
  induction l generalizing p with
  | nil =>
    obtain ⟨-, ha⟩ := hl
    refine ⟨?_, hb.trans ha⟩
    rw [hnext p mem_cons_self, if_pos ha.symm]
  | cons c l ih =>
    obtain ⟨hp, hc, hrest⟩ := hl
    obtain ⟨hnot, hnodup'⟩ := nodup_cons.mp hnodup
    have hne : p ≠ prev a := fun heq => hnot (heq ▸ hrest.prev_mem)
    refine ⟨?_, ?_, ih hrest hnodup' ?_ ?_⟩
    · rw [hnext p mem_cons_self, if_neg hne, hp]
    · rw [hprev c mem_cons_self, hc]
    · intro y hy
      exact hnext y (mem_cons_of_mem p hy)
    · intro y hy
      exact hprev y (mem_cons_of_mem c hy)

theorem retargetStart (hl : DLinked next prev a l q) (hnodup : (l ++ [q]).Nodup)
    (hb : next' b = next a) (hnext : ∀ y ∈ l, next' y = next y)
    (hprev : ∀ y ∈ l ++ [q], prev' y = if y = next a then b else prev y) :
    DLinked next' prev' b l q := by
  cases l with
  | nil =>
    obtain ⟨ha, -⟩ := hl
    refine ⟨hb.trans ha, ?_⟩
    rw [hprev q (by simp), if_pos ha.symm]
  | cons c l =>
    obtain ⟨ha, -, hrest⟩ := hl
    refine ⟨hb.trans ha, ?_, hrest.congr hnext ?_⟩
    · rw [hprev c (by simp), if_pos ha.symm]
    · intro y hy
      have hne : y ≠ next a := by
        rintro rfl
        rw [ha] at hy
        exact (nodup_cons.mp hnodup).1 hy
      rw [hprev y (mem_cons_of_mem c hy), if_neg hne]

theorem remove (hl : DLinked next prev h (l ++ x :: r) h) (hnodup : (h :: (l ++ x :: r)).Nodup)
    (hnext : ∀ y ∈ h :: (l ++ r), next' y = if y = prev x then next x else next y)
    (hprev : ∀ y ∈ h :: (l ++ r), prev' y = if y = next x then prev x else prev y) :
    DLinked next' prev' h (l ++ r) h := by
  obtain ⟨hleft, hright⟩ := append.mp hl
  have hfront : (h :: l).Nodup := hnodup.sublist (by simp)
  -- neither neighbour of `x` is on its other side, unless it is the header
  have hdisjoint : ∀ y ∈ l, ∀ z ∈ x :: r ++ [h], y ≠ z := by
    rintro y hy z hz rfl
    obtain ⟨hh, hrest⟩ := nodup_cons.mp hnodup
    rcases mem_append.mp hz with hz | hz
    · exact (nodup_append.mp hrest).2.2 y hy y hz rfl
    · rw [mem_singleton.mp hz] at hy
      exact hh (mem_append_left _ hy)
  have hnextmem := hright.next_mem
  have hprevmem := hleft.prev_mem
  have hkeep : ∀ y ∈ l, prev' y = prev y := by
    intro y hy
    rw [hprev y (by simp [hy]), if_neg]
    exact hdisjoint y hy _ (mem_cons_of_mem x hnextmem)
  have hleft' : ∀ {b : α}, next x = b → prev' b = prev x → DLinked next' prev' h l b := by
    rintro b rfl hb
    refine hleft.retargetEnd hfront (fun y hy => hnext y ?_) hkeep hb
    rcases mem_cons.mp hy with rfl | hy
    · exact mem_cons_self
    · simp [hy]
  cases r with
  | nil =>
    obtain ⟨hx, -⟩ := hright
    rw [append_nil]
    refine hleft' hx ?_
    rw [hprev h mem_cons_self, if_pos hx.symm]
  | cons c r =>
    obtain ⟨hx, -, hrest⟩ := hright
    refine append.mpr ⟨hleft' hx ?_, hrest.congr ?_ ?_⟩
    · rw [hprev c (by simp), if_pos hx.symm]
    · intro y hy
      rw [hnext y (by simp [mem_cons.mp hy]), if_neg]
      rintro rfl
      rcases mem_cons.mp hprevmem with heq | hmem
      · rw [heq] at hy
        exact (nodup_cons.mp hnodup).1 (by simp [mem_cons.mp hy])
      · exact hdisjoint _ hmem _ (mem_cons_of_mem x (mem_append_left _ hy)) rfl
    · intro y hy
      have hne : y ≠ next x := by
        rw [hx]
        rintro rfl
        rcases mem_append.mp hy with hy | hy
        · have htail : (y :: r).Nodup := hnodup.sublist
            (((sublist_cons_self x _).trans (sublist_append_right l _)).cons h)
          exact (nodup_cons.mp htail).1 hy
        · rw [mem_singleton.mp hy] at hnodup
          exact (nodup_cons.mp hnodup).1 (by simp)
      have hmem : y ∈ h :: (l ++ c :: r) := by
        rcases mem_append.mp hy with hy | hy
        · simp [hy]
        · simp [mem_singleton.mp hy]
      rw [hprev y hmem, if_neg hne]

theorem insert (hl : DLinked next prev h l h) (hnodup : (h :: l).Nodup) (hx : next' x = next h)
    (hxh : prev' x = h) (hh : next' h = x) (hnext : ∀ y ∈ l, next' y = next y)
    (hprev : ∀ y ∈ h :: l, prev' y = if y = next h then x else prev y) :
    DLinked next' prev' h (x :: l) h := by
  obtain ⟨hnot, hl'⟩ := nodup_cons.mp hnodup
  have hend : (l ++ [h]).Nodup :=
    nodup_append.mpr ⟨hl', nodup_singleton h, fun y hy z hz heq =>
      hnot (mem_singleton.mp hz ▸ heq ▸ hy)⟩
  refine ⟨hh, hxh, hl.retargetStart hend hx hnext fun y hy => hprev y ?_⟩
  rcases mem_append.mp hy with hy | hy
  · exact mem_cons_of_mem h hy
  · rw [mem_singleton.mp hy]
    exact mem_cons_self

end Relink
end DLinked
