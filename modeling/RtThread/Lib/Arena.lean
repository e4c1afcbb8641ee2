import RtThread.Lib.ByteMem

/-!
# Arenas

An arena is a part of memory of which some areas are handed out. An allocator takes areas back and
hands out others, and may write wherever no area is handed out that stays. Changes compose, and a
change of one of several arenas that are apart is a change of all of them together.
-/

namespace ByteMem

/-- Only bytes in `P` are changed. -/
def Only (P : Set Nat) (m m' : ByteMem) : Prop := ∀ a, a ∉ P → m' a = m a

namespace Only
variable {P Q : Set Nat} {m m' m'' : ByteMem} {a n v : Nat}

theorem refl (P : Set Nat) (m : ByteMem) : Only P m m := fun _ _ => rfl

theorem trans (h : Only P m m') (h' : Only P m' m'') : Only P m m'' :=
  fun a ha => (h' a ha).trans (h a ha)

theorem mono (h : Only P m m') (hsub : P ⊆ Q) : Only Q m m' :=
  fun a ha => h a fun hP => ha (hsub hP)

theorem of_within (h : Within a n m m') (hsub : ∀ i < n, a + i ∈ P) : Only P m m' := by
  intro x hx
  refine h x ?_
  by_contra hin
  obtain ⟨i, rfl⟩ := Nat.exists_eq_add_of_le (show a ≤ x by omega)
  exact hx (hsub i (by omega))

end Only
end ByteMem

/-- A part of memory, and the areas of it that are handed out: address and length. -/
structure Arena where
  mem : ByteMem
  owns : Set Nat
  used : Set (Nat × Nat)
  within : ∀ b ∈ used, b.1 ∈ owns ∧ ∀ i < b.2, b.1 + i ∈ owns

namespace Arena
variable {A A' A'' : Arena} {gone gone' : Set Nat} {new new' : Set (Nat × Nat)} {a i : Nat}
  {b : Nat × Nat} {m : ByteMem}

/-- What may be written once the areas at the addresses `gone` have been taken back. -/
def Idle (A : Arena) (gone : Set Nat) : Set Nat :=
  {a | a ∈ A.owns ∧ ∀ b ∈ A.used, b.1 ∉ gone → a < b.1 ∨ b.1 + b.2 ≤ a}

/-- The areas at the addresses `gone` are taken back, and the areas `new` are handed out. -/
structure Change (A : Arena) (gone : Set Nat) (new : Set (Nat × Nat)) (A' : Arena) : Prop where
  owns : A'.owns = A.owns
  used : A'.used = {b ∈ A.used | b.1 ∉ gone} ∪ new
  fresh : ∀ b ∈ new, ∀ i < b.2, b.1 + i ∈ A.Idle gone
  writes : ByteMem.Only (A.Idle gone) A.mem A'.mem

def write (A : Arena) (m : ByteMem) : Arena := { A with mem := m }

namespace Change

section
variable (h : Change A gone new A')
include h

theorem keeps (hb : b ∈ A.used) (hstay : b.1 ∉ gone) (hi : i < b.2) :
    A'.mem (b.1 + i) = A.mem (b.1 + i) := by
  refine h.writes _ fun hidle => ?_
  have := hidle.2 b hb hstay
  omega

theorem outside (ha : a ∉ A.owns) : A'.mem a = A.mem a :=
  h.writes a fun hidle => ha hidle.1

theorem store (hb : b ∈ new)
    (hm : ByteMem.Within b.1 b.2 A'.mem m) : Change A gone new (A'.write m) :=
  ⟨h.owns, h.used, h.fresh, h.writes.trans (.of_within hm (h.fresh b hb))⟩

theorem idle_subset : A'.Idle gone' ⊆ A.Idle (gone ∪ gone') := by
  rintro a ⟨hown, hfree⟩
  refine ⟨h.owns ▸ hown, fun b hb hstay => ?_⟩
  rw [Set.mem_union, not_or] at hstay
  exact hfree b (h.used ▸ .inl ⟨hb, hstay.1⟩) hstay.2

end

theorem idle_mono (A : Arena) (h : gone ⊆ gone') : A.Idle gone ⊆ A.Idle gone' :=
  fun _ ha => ⟨ha.1, fun b hb hstay => ha.2 b hb fun hmem => hstay (h hmem)⟩

theorem trans (h : Change A gone new A') (h' : Change A' gone' new' A'') :
    Change A (gone ∪ gone') ({b ∈ new | b.1 ∉ gone'} ∪ new') A'' where
  owns := h'.owns.trans h.owns
  used := by
    rw [h'.used, h.used]
    ext b
    simp only [Set.mem_union, Set.mem_ofPred_eq, not_or]
    tauto
  fresh := by
    rintro b (⟨hb, -⟩ | hb) i hi
    · exact idle_mono A Set.subset_union_left (h.fresh b hb i hi)
    · exact h.idle_subset (h'.fresh b hb i hi)
  writes := (h.writes.mono (idle_mono A Set.subset_union_left)).trans (h'.writes.mono h.idle_subset)

end Change

section All
variable {ι : Type} {K : Set ι} {F G : ι → Arena} {k : ι}

/-- The arenas `F k` for `k` in `K`, in the memory `m`. -/
def all (m : ByteMem) (K : Set ι) (F : ι → Arena) : Arena where
  mem := m
  owns := {a | ∃ k ∈ K, a ∈ (F k).owns}
  used := {b | ∃ k ∈ K, b ∈ (F k).used}
  within := fun b ⟨k, hk, hb⟩ => ⟨⟨k, hk, ((F k).within b hb).1⟩, fun i hi =>
    ⟨k, hk, ((F k).within b hb).2 i hi⟩⟩

theorem idle_all (hk : k ∈ K)
    (hapart : ∀ j ∈ K, j ≠ k → ∀ a ∈ (F j).owns, a ∉ (F k).owns) (m : ByteMem) :
    (F k).Idle gone ⊆ (all m K F).Idle gone := by
  rintro a ⟨hown, hfree⟩
  refine ⟨⟨k, hk, hown⟩, ?_⟩
  rintro b ⟨j, hj, hb⟩ hstay
  by_cases hjk : j = k
  · subst hjk
    exact hfree b hb hstay
  · by_contra hin
    obtain ⟨i, rfl⟩ := Nat.exists_eq_add_of_le (show b.1 ≤ a by omega)
    exact hapart j hj hjk _ (((F j).within b hb).2 i (by omega)) hown

/-- A change of one arena, which takes back areas of its own, is a change of all. -/
theorem Change.all (h : Change (F k) gone new (G k)) (hk : k ∈ K) (hgone : gone ⊆ (F k).owns)
    (hrest : ∀ j ∈ K, j ≠ k → (G j).owns = (F j).owns ∧ (G j).used = (F j).used)
    (hapart : ∀ j ∈ K, j ≠ k → ∀ a ∈ (F j).owns, a ∉ (F k).owns) :
    Change (all (F k).mem K F) gone new (all (G k).mem K G) where
  owns := by
    ext a
    refine exists_congr fun j => and_congr_right fun hj => ?_
    by_cases hjk : j = k
    · rw [hjk, h.owns]
    · rw [(hrest j hj hjk).1]
  used := by
    ext b
    have hother : ∀ j ∈ K, j ≠ k → b ∈ (F j).used → b.1 ∉ gone := fun j hj hjk hb hmem =>
      hapart j hj hjk _ ((F j).within b hb).1 (hgone hmem)
    constructor
    · rintro ⟨j, hj, hb⟩
      by_cases hjk : j = k
      · rw [hjk, h.used] at hb
        rcases hb with ⟨hb, hstay⟩ | hb
        · exact .inl ⟨⟨k, hk, hb⟩, hstay⟩
        · exact .inr hb
      · rw [(hrest j hj hjk).2] at hb
        exact .inl ⟨⟨j, hj, hb⟩, hother j hj hjk hb⟩
    · rintro (⟨⟨j, hj, hb⟩, hstay⟩ | hb)
      · refine ⟨j, hj, ?_⟩
        by_cases hjk : j = k
        · subst hjk
          rw [h.used]
          exact .inl ⟨hb, hstay⟩
        · rwa [(hrest j hj hjk).2]
      · refine ⟨k, hk, ?_⟩
        rw [h.used]
        exact .inr hb
  fresh b hb i hi := idle_all hk hapart _ (h.fresh b hb i hi)
  writes := h.writes.mono (idle_all hk hapart _)

end All
end Arena
