import RtThread.Lib.CString

/-!
# Paths

What a path means: its components, the lexical resolution of `.` and `..`, and the canonical
spelling of a list of components. Paths are strings of bytes.
-/

namespace RtThread
open List

/-- `'/'`. -/
def slash : Byte := '/'.byte

/-- `'.'`. -/
def dot : Byte := '.'.byte

/-- The components of a path: what stands between slashes, without empty ones. -/
def components (path : List Byte) : List (List Byte) := (path.splitOn slash).filter (· ≠ [])

/-- The names that a canonical path consists of. -/
structure NameOk (name : List Byte) : Prop where
  ne_nil : name ≠ []
  slash : slash ∉ name
  ne_dot : name ≠ [dot]
  ne_dotdot : name ≠ [dot, dot]

/-- Lexical resolution of components in a directory: `.` stays there, and `..` goes up one. There is
no result if it goes up from the root. -/
def resolve (dir : List (List Byte)) : List (List Byte) → Option (List (List Byte))
  | [] => some dir
  | name :: names =>
    if name = [dot] then resolve dir names
    else if name = [dot, dot] then if dir = [] then none else resolve dir.dropLast names
    else resolve (dir ++ [name]) names

/-- The number of `..` that have nothing to remove. -/
def excess (dir : List (List Byte)) : List (List Byte) → Nat
  | [] => 0
  | name :: names =>
    if name = [dot] then excess dir names
    else if name = [dot, dot] then
      if dir = [] then excess [] names + 1 else excess dir.dropLast names
    else excess (dir ++ [name]) names

/-- The canonical spelling of an absolute path. -/
def render (names : List (List Byte)) : List Byte :=
  if names = [] then [slash] else names.flatMap (slash :: ·)

/-- An absolute path without empty, `.` and `..` components, and without a slash at its end unless
it is the root. -/
def Canonical (path : List Byte) : Prop :=
  ∃ names, (∀ name ∈ names, NameOk name) ∧ path = render names

variable {name path : List Byte} {names dir : List (List Byte)} {names' : List (List Byte)}

@[simp] theorem components_nil : components [] = [] := by simp [components]

theorem components_of_not_mem (hname : slash ∉ name) (hne : name ≠ []) :
    components name = [name] := by
  have hsplit : name.splitOn slash = [name] :=
    splitOnP_eq_singleton fun c hc => by simpa using fun h : c = slash => hname (h ▸ hc)
  simp [components, hsplit, hne]

theorem components_append (hname : slash ∉ name) (hne : name ≠ []) :
    components (name ++ slash :: path) = name :: components path := by
  rw [components, splitOn_append_cons_self_of_not_mem hname, filter_cons_of_pos (by simpa)]
  rfl

@[simp] theorem components_slash : components (slash :: path) = components path := by
  have hsplit := splitOn_append_cons_self_of_not_mem (not_mem_nil (a := slash)) path
  rw [nil_append] at hsplit
  rw [components, hsplit, filter_cons_of_neg (by simp)]
  rfl

theorem components_dropWhile : components (path.dropWhile (· = slash)) = components path := by
  induction path with
  | nil => rfl
  | cons c path ih =>
    by_cases hc : c = slash
    · rw [dropWhile_cons_of_pos (by simpa using hc), ih, hc, components_slash]
    · rw [dropWhile_cons_of_neg (by simpa using hc)]

theorem path_induction {motive : List Byte → Prop} (last : ∀ name, slash ∉ name → motive name)
    (append : ∀ name path, slash ∉ name → motive path → motive (name ++ slash :: path))
    (path : List Byte) : motive path := by
  induction hn : path.length using Nat.strongRecOn generalizing path with
  | ind n ih =>
    subst hn
    by_cases hslash : slash ∈ path
    · obtain ⟨name, rest, rfl, hname⟩ := eq_append_cons_of_mem hslash
      refine append name rest hname (ih rest.length ?_ rest rfl)
      simp
      omega
    · exact last path hslash

theorem mem_components (h : name ∈ components path) : name ≠ [] ∧ slash ∉ name ∧ name ⊆ path := by
  induction path using path_induction with
  | last last hlast =>
    by_cases hne : last = []
    · simp [hne] at h
    · rw [components_of_not_mem hlast hne, mem_singleton] at h
      obtain rfl := h
      exact ⟨hne, hlast, Subset.refl name⟩
  | append first path hfirst ih =>
    have hrest : path ⊆ first ++ slash :: path := fun c hc => by simp [hc]
    by_cases hne : first = []
    · exact (ih (by simpa [hne] using h)).imp_right (.imp_right (Subset.trans · hrest))
    · rw [components_append hfirst hne, mem_cons] at h
      rcases h with rfl | h
      · exact ⟨hne, hfirst, subset_append_left _ _⟩
      · exact (ih h).imp_right (.imp_right (Subset.trans · hrest))

theorem resolve_eq_none_iff : resolve dir names = none ↔ excess dir names ≠ 0 := by
  induction names generalizing dir with
  | nil => simp [resolve, excess]
  | cons name names ih =>
    rw [resolve, excess]
    split
    · exact ih
    · split
      · split
        · simp
        · exact ih
      · exact ih

theorem components_render (hnames : ∀ name ∈ names, NameOk name) :
    components (render names) = names := by
  rw [render]
  split
  · rename_i hempty
    simp [hempty]
  · rename_i hne
    -- behind the first slash, a component stands in front of every slash
    have hflat : ∀ names : List (List Byte), (∀ name ∈ names, NameOk name) →
        components (names.flatMap (slash :: ·)) = names := by
      intro names
      induction names with
      | nil => simp
      | cons name names ih =>
        intro hok
        have hname := hok name (by simp)
        have hrest := ih fun n hn => hok n (by simp [hn])
        rw [flatMap_cons, cons_append, components_slash]
        cases names with
        | nil => simpa using components_of_not_mem hname.slash hname.ne_nil
        | cons next names =>
          rw [flatMap_cons, cons_append] at hrest ⊢
          rw [components_append hname.slash hname.ne_nil, ← components_slash, hrest]
    exact hflat names hnames

theorem head_render : (render names).head? = some slash := by
  rw [render]
  split
  · rfl
  · rename_i hne
    obtain ⟨name, names, rfl⟩ := exists_cons_of_ne_nil hne
    rfl

end RtThread
