import Mathlib.Data.List.Chain

/-!
# Address-ordered block chains

A region is cut into blocks, each headed by a header that names the offset of the next block, the
offset of the previous one and a tag. `Linked` says that the headers spell a list of blocks in order
up to an end offset, each at least `gap` before its successor. The rules say how the list changes
when a tag is rewritten, a block is split, or two neighbours are merged.
-/

namespace BlockChain
open List

/-- What is stored at the head of a block. -/
structure Header (β : Type) where
  next : Nat
  prev : Nat
  tag : β

/-- A block of the abstract chain: where it starts and its tag. -/
structure Block (β : Type) where
  off : Nat
  tag : β

variable {β : Type}

/-- The offset a chain starts at, `b` when it is empty. -/
def headOff : List (Block β) → Nat → Nat
  | [], b => b
  | x :: _, _ => x.off

/-- The offset of the last block, `p` when there is none. -/
def lastOff (p : Nat) : List (Block β) → Nat
  | [] => p
  | x :: xs => lastOff x.off xs

/-- The headers link the blocks `xs` in order, from predecessor `p` to the end offset `b`. -/
def Linked (hdr : Nat → Header β) (gap p : Nat) : List (Block β) → Nat → Prop
  | [], _ => True
  | x :: xs, b =>
      hdr x.off = ⟨headOff xs b, p, x.tag⟩ ∧ x.off + gap ≤ headOff xs b ∧ Linked hdr gap x.off xs b

variable {hdr hdr' : Nat → Header β} {gap p b m : Nat} {x y : Block β} {xs ys : List (Block β)}

@[simp] theorem headOff_nil : headOff ([] : List (Block β)) b = b := rfl
@[simp] theorem headOff_cons : headOff (x :: xs) b = x.off := rfl
@[simp] theorem lastOff_nil : lastOff p ([] : List (Block β)) = p := rfl
@[simp] theorem lastOff_cons : lastOff p (x :: xs) = lastOff x.off xs := rfl
@[simp] theorem linked_nil : Linked hdr gap p [] b := trivial
@[simp] theorem linked_cons : Linked hdr gap p (x :: xs) b ↔ hdr x.off = ⟨headOff xs b, p, x.tag⟩ ∧
      x.off + gap ≤ headOff xs b ∧ Linked hdr gap x.off xs b := Iff.rfl

@[simp] theorem headOff_append : headOff (xs ++ ys) b = headOff xs (headOff ys b) := by
  cases xs <;> rfl

@[simp] theorem lastOff_append : lastOff p (xs ++ ys) = lastOff (lastOff p xs) ys := by
  induction xs generalizing p with
  | nil => rfl
  | cons x xs ih => exact ih

theorem lastOff_cases (xs : List (Block β)) (p : Nat) :
    lastOff p xs = p ∨ ∃ z ∈ xs, z.off = lastOff p xs := by
  induction xs generalizing p with
  | nil => exact .inl rfl
  | cons x xs ih =>
    rcases ih x.off with heq | ⟨z, hz, hoff⟩
    · exact .inr ⟨x, mem_cons_self, heq.symm⟩
    · exact .inr ⟨z, mem_cons_of_mem x hz, hoff⟩

theorem linked_append : Linked hdr gap p (xs ++ ys) b ↔
      Linked hdr gap p xs (headOff ys b) ∧ Linked hdr gap (lastOff p xs) ys b := by
  induction xs generalizing p with
  | nil => simp
  | cons x xs ih => simp [ih, and_assoc]

section
variable (h : Linked hdr gap p xs b)
include h

theorem Linked.headOff_le : headOff xs b ≤ b := by
  induction xs generalizing p with
  | nil => exact Nat.le_refl b
  | cons x xs ih =>
    obtain ⟨-, hgap, hrest⟩ := h
    have := ih hrest
    simp only [headOff_cons]
    omega

theorem Linked.length_mul_le : gap * xs.length ≤ b := by
  have hstrong : headOff xs b + gap * xs.length ≤ b := by
    induction xs generalizing p with
    | nil => simp
    | cons x xs ih =>
      obtain ⟨-, hgap, hrest⟩ := h
      have := ih hrest
      simp only [headOff_cons, length_cons, Nat.mul_succ]
      omega
  omega

theorem Linked.bounds : ∀ x ∈ xs, headOff xs b ≤ x.off ∧ x.off + gap ≤ b := by
  induction xs generalizing p with
  | nil => simp
  | cons y ys ih =>
    obtain ⟨-, hgap, hrest⟩ := h
    have hle := hrest.headOff_le
    intro x hx
    simp only [headOff_cons]
    rcases mem_cons.mp hx with rfl | hx
    · omega
    · have := ih hrest x hx
      omega

theorem Linked.unique {p' : Nat} (hgap : 0 < gap)
    (h' : Linked hdr gap p' ys b) (hhead : headOff xs b = headOff ys b) : xs = ys := by
  induction xs generalizing p p' ys with
  | nil =>
    cases ys with
    | nil => rfl
    | cons y ys =>
      have := (h'.bounds y mem_cons_self).2
      simp only [headOff_nil, headOff_cons] at hhead
      omega
  | cons x xs ih =>
    cases ys with
    | nil =>
      have := (h.bounds x mem_cons_self).2
      simp only [headOff_nil, headOff_cons] at hhead
      omega
    | cons y ys =>
      obtain ⟨hx, -, hxs⟩ := h
      obtain ⟨hy, -, hys⟩ := h'
      simp only [headOff_cons] at hhead
      rw [hhead, hy] at hx
      simp only [Header.mk.injEq] at hx
      have hxy : x = y := by
        cases x; cases y; simp_all
      rw [hxy, ih hxs hys hx.1.symm]

theorem Linked.congr (heq : ∀ x ∈ xs, hdr' x.off = hdr x.off) : Linked hdr' gap p xs b := by
  induction xs generalizing p with
  | nil => trivial
  | cons x xs ih =>
    obtain ⟨hx, hgap, hrest⟩ := h
    refine ⟨?_, hgap, ih hrest fun y hy => heq y (mem_cons_of_mem x hy)⟩
    rw [heq x mem_cons_self, hx]

/-- The first block has its `prev` set to `m`; the headers behind it are unchanged. -/
theorem Linked.repoint
    (hnext : xs ≠ [] → hdr' (headOff xs b) = { hdr (headOff xs b) with prev := m })
    (hview : ∀ o, headOff xs b + gap ≤ o → hdr' o = hdr o) : Linked hdr' gap m xs b := by
  cases xs with
  | nil => trivial
  | cons x xs =>
    obtain ⟨hx, hgap, hrest⟩ := h
    simp only [headOff_cons, ne_eq, cons_ne_nil, not_false_eq_true, true_imp_iff] at hnext hview
    refine ⟨by rw [hnext, hx], hgap, hrest.congr fun y hy => hview _ ?_⟩
    exact hgap.trans (hrest.bounds y hy).1

end

theorem linked_append_cons : Linked hdr gap p (xs ++ x :: ys) b ↔
      Linked hdr gap p xs x.off ∧ hdr x.off = ⟨headOff ys b, lastOff p xs, x.tag⟩ ∧
        x.off + gap ≤ headOff ys b ∧ Linked hdr gap x.off ys b := by
  rw [linked_append]
  rfl

theorem Linked.setTag (h : Linked hdr gap p (xs ++ x :: ys) b) {t : β}
    (hx : hdr' x.off = { hdr x.off with tag := t })
    (hview : ∀ o, o + gap ≤ x.off ∨ x.off + gap ≤ o → hdr' o = hdr o) :
    Linked hdr' gap p (xs ++ ⟨x.off, t⟩ :: ys) b := by
  obtain ⟨hleft, hhead, hgap, hright⟩ := linked_append_cons.mp h
  refine linked_append_cons.mpr ⟨hleft.congr fun z hz => hview _ (.inl (hleft.bounds z hz).2), ?_,
    hgap, hright.congr fun z hz => hview _ (.inr (hgap.trans (hright.bounds z hz).1))⟩
  rw [hx, hhead]

theorem Linked.split (h : Linked hdr gap p (xs ++ x :: ys) b) {t t' : β}
    (hlo : x.off + gap ≤ m) (hhi : m + gap ≤ headOff ys b)
    (hx : hdr' x.off = ⟨m, (hdr x.off).prev, t⟩)
    (hm : hdr' m = ⟨headOff ys b, x.off, t'⟩)
    (hnext : ys ≠ [] → hdr' (headOff ys b) = { hdr (headOff ys b) with prev := m })
    (hview : ∀ o, o + gap ≤ x.off ∨ headOff ys b + gap ≤ o → hdr' o = hdr o) :
    Linked hdr' gap p (xs ++ ⟨x.off, t⟩ :: ⟨m, t'⟩ :: ys) b := by
  obtain ⟨hleft, hhead, -, hright⟩ := linked_append_cons.mp h
  refine linked_append_cons.mpr ⟨hleft.congr fun z hz => hview _ (.inl (hleft.bounds z hz).2), ?_,
    hlo, hm, hhi, hright.repoint hnext fun o ho => hview o (.inr ho)⟩
  rw [hx, hhead]
  rfl

theorem Linked.merge (h : Linked hdr gap p (xs ++ x :: y :: ys) b)
    (hx : hdr' x.off = { hdr x.off with next := headOff ys b })
    (hnext : ys ≠ [] → hdr' (headOff ys b) = { hdr (headOff ys b) with prev := x.off })
    (hview : ∀ o, o + gap ≤ x.off ∨ headOff ys b + gap ≤ o → hdr' o = hdr o) :
    Linked hdr' gap p (xs ++ x :: ys) b := by
  obtain ⟨hleft, hhead, hgap, hy, hgapy, hright⟩ := linked_append_cons.mp h
  refine linked_append_cons.mpr ⟨hleft.congr fun z hz => hview _ (.inl (hleft.bounds z hz).2), ?_,
    ?_, hright.repoint hnext fun o ho => hview o (.inr ho)⟩
  · rw [hx, hhead]
  · simp only [headOff_cons] at hgap
    omega

section Spans
variable (P : β → Prop) [DecidablePred P] {e : Nat}

/-- For each block whose tag has the property `P`: its start, and the start of the next one. -/
def spans (e : Nat) : List (Block β) → List (Nat × Nat)
  | [] => []
  | x :: xs => if P x.tag then (x.off, headOff xs e) :: spans e xs else spans e xs

variable {P}

theorem spans_pos (hx : P x.tag) : spans P e (x :: xs) = (x.off, headOff xs e) :: spans P e xs := by
  rw [spans, if_pos hx]

theorem spans_neg (hx : ¬ P x.tag) : spans P e (x :: xs) = spans P e xs := by
  rw [spans, if_neg hx]

theorem spans_append : spans P e (xs ++ ys) = spans P (headOff ys e) xs ++ spans P e ys := by
  induction xs with
  | nil => rfl
  | cons x xs ih =>
    by_cases hx : P x.tag
    · rw [cons_append, spans_pos hx, spans_pos hx, ih, headOff_append, cons_append]
    · rw [cons_append, spans_neg hx, spans_neg hx, ih]

theorem mem_spans {o stop : Nat} : (o, stop) ∈ spans P e xs ↔
      ∃ l x r, xs = l ++ x :: r ∧ P x.tag ∧ o = x.off ∧ stop = headOff r e := by
  constructor
  · intro hmem
    induction xs with
    | nil => cases hmem
    | cons y xs ih =>
      have htail : (o, stop) ∈ spans P e xs → ∃ l x r, y :: xs = l ++ x :: r ∧
          P x.tag ∧ o = x.off ∧ stop = headOff r e := by
        intro hmem
        obtain ⟨l, x, r, rfl, hx⟩ := ih hmem
        exact ⟨y :: l, x, r, rfl, hx⟩
      by_cases hy : P y.tag
      · rw [spans_pos hy] at hmem
        rcases mem_cons.mp hmem with heq | hmem
        · obtain ⟨rfl, rfl⟩ := Prod.mk.inj heq
          exact ⟨[], y, xs, rfl, hy, rfl, rfl⟩
        · exact htail hmem
      · rw [spans_neg hy] at hmem
        exact htail hmem
  · rintro ⟨l, x, r, rfl, hx, rfl, rfl⟩
    rw [spans_append, spans_pos hx]
    exact mem_append_right _ mem_cons_self

end Spans

section Coalescing
variable (F : β → Prop) [DecidablePred F]

/-- Of two neighbouring blocks at most one is free. -/
def NotBothFree (x y : Block β) : Prop := ¬ F x.tag ∨ ¬ F y.tag

/-- The blocks behind a free block, without a free first one. -/
def dropFree : List (Block β) → List (Block β)
  | [] => []
  | y :: r => if F y.tag then r else y :: r

/-- The last block of `xs` is free. -/
def LastFree (xs : List (Block β)) : Prop := ∃ w ∈ xs.getLast?, F w.tag

instance (xs : List (Block β)) : Decidable (LastFree F xs) :=
  inferInstanceAs (Decidable (∃ w ∈ xs.getLast?, F w.tag))

/-- The chain `xs ++ x :: ys` after the free block `x` has been merged with its free neighbours. -/
def plug (xs : List (Block β)) (x : Block β) (ys : List (Block β)) : List (Block β) :=
  if LastFree F xs then xs ++ dropFree F ys else xs ++ x :: dropFree F ys

variable {F}

theorem dropFree_of_pos (hy : F y.tag) : dropFree F (y :: ys) = ys := if_pos hy

theorem dropFree_of_head (h : ∀ y ∈ ys.head?, ¬ F y.tag) : dropFree F ys = ys := by
  cases ys with
  | nil => rfl
  | cons y ys => exact if_neg (h y rfl)

theorem dropFree_subset : dropFree F ys ⊆ ys := by
  cases ys with
  | nil => exact List.Subset.refl _
  | cons y ys =>
    by_cases hy : F y.tag
    · rw [dropFree_of_pos hy]
      exact subset_cons_self y ys
    · rw [dropFree, if_neg hy]
      exact List.Subset.refl _

theorem mem_dropFree (hx : ¬ F x.tag) : x ∈ dropFree F ys ↔ x ∈ ys := by
  cases ys with
  | nil => rfl
  | cons y ys =>
    by_cases hy : F y.tag
    · have hne : x ≠ y := by rintro rfl; exact hx hy
      simp [dropFree_of_pos hy, hne]
    · rw [dropFree, if_neg hy]

theorem notBothFree_dropFree (h : ys.IsChain (NotBothFree F)) :
    (dropFree F ys).IsChain (NotBothFree F) ∧ ∀ z ∈ (dropFree F ys).head?, ¬ F z.tag := by
  cases ys with
  | nil => exact ⟨isChain_nil, nofun⟩
  | cons y ys =>
    obtain ⟨hy, hys⟩ := isChain_cons.mp h
    by_cases hF : F y.tag
    · rw [dropFree_of_pos hF]
      exact ⟨hys, fun z hz => (hy z hz).resolve_left (not_not.mpr hF)⟩
    · rw [dropFree, if_neg hF]
      refine ⟨h, fun z hz => ?_⟩
      cases hz
      exact hF

omit [DecidablePred F] in
theorem notBothFree_append_cons (hx : ¬ F x.tag) (hxs : xs.IsChain (NotBothFree F))
    (hys : ys.IsChain (NotBothFree F)) : (xs ++ x :: ys).IsChain (NotBothFree F) := by
  have htail : (x :: ys).IsChain (NotBothFree F) :=
    isChain_cons.mpr ⟨fun _ _ => .inl hx, hys⟩
  refine isChain_append.mpr ⟨hxs, htail, fun w _ z hz => .inr ?_⟩
  cases hz
  exact hx

theorem plug_subset : plug F xs x ys ⊆ xs ++ x :: ys := by
  intro z hz
  have hdrop : z ∈ dropFree F ys → z ∈ ys := fun hmem => dropFree_subset hmem
  unfold plug at hz
  split at hz <;> simp only [mem_append, mem_cons] at hz ⊢ <;> tauto

theorem mem_plug (hx : F x.tag) (hy : ¬ F y.tag) : y ∈ plug F xs x ys ↔ y ∈ xs ∨ y ∈ ys := by
  have hne : y ≠ x := by rintro rfl; exact hy hx
  rw [plug]
  split <;> simp [mem_dropFree hy, hne]

theorem notBothFree_plug (hxs : xs.IsChain (NotBothFree F)) (hys : ys.IsChain (NotBothFree F)) :
    (plug F xs x ys).IsChain (NotBothFree F) := by
  obtain ⟨hdrop, hhead⟩ := notBothFree_dropFree hys
  unfold plug
  split
  · exact isChain_append.mpr ⟨hxs, hdrop, fun w _ z hz => .inr (hhead z hz)⟩
  · rename_i hlast
    have htail : (x :: dropFree F ys).IsChain (NotBothFree F) :=
      isChain_cons.mpr ⟨fun z hz => .inr (hhead z hz), hdrop⟩
    exact isChain_append.mpr ⟨hxs, htail, fun w hw z _ => .inl fun hF => hlast ⟨w, hw, hF⟩⟩

/-! The merge changes no block that is not free. -/

theorem spans_dropFree {e : Nat} :
    spans (fun t => ¬ F t) e (dropFree F ys) = spans (fun t => ¬ F t) e ys := by
  cases ys with
  | nil => rfl
  | cons y ys =>
    by_cases hy : F y.tag
    · rw [dropFree_of_pos hy, spans_neg (P := fun t => ¬ F t) (not_not.mpr hy)]
    · rw [dropFree, if_neg hy]

theorem spans_plug {e : Nat} (hx : F x.tag) : spans (fun t => ¬ F t) e (plug F xs x ys) =
      spans (fun t => ¬ F t) x.off xs ++ spans (fun t => ¬ F t) e ys := by
  unfold plug
  split
  · rename_i hlast
    obtain ⟨w, hw, hfree⟩ := hlast
    -- the last of the blocks in front is free, so that it does not matter where it ends
    obtain ⟨l, rfl⟩ : ∃ l, xs = l ++ [w] := ⟨xs.dropLast, (dropLast_append_getLast? w hw).symm⟩
    have hend : ∀ e', spans (fun t => ¬ F t) e' (l ++ [w]) = spans (fun t => ¬ F t) w.off l := by
      intro e'
      rw [spans_append, spans_neg (P := fun t => ¬ F t) (not_not.mpr hfree)]
      exact append_nil _
    rw [spans_append, spans_dropFree, hend, hend]
  · rw [spans_append, spans_neg (P := fun t => ¬ F t) (not_not.mpr hx), spans_dropFree,
      headOff_cons]

end Coalescing
end BlockChain
