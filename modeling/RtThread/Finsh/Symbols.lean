import RtThread.Finsh.Parser
import Mathlib.Data.List.Find

/-!
# What an identifier stands for

`proc_identifier` copies an identifier to a buffer of `FINSH_NAME_MAX + 1` bytes, and
`finsh_node_new_id` looks it up there. A system variable or call that was appended to its table is
found by any beginning of its name.
-/

namespace RtThread.Finsh
open Buffer List
variable {H : Type} {env : Env H} {vars : List Var} {name : List Byte}

/-- The entity with this name: a variable, else a system variable, else a system call. -/
def exactSymbol (symbols : Symbols) (vars : List Var) (name : List Byte) : Option Ident :=
  ((vars.findIdx? (·.name = name)).map Ident.var).or
    ((((symbols.sysvarTable ++ symbols.globalSysvarList).find? (·.name = name)).map .sysvar).or
      (((symbols.syscallTable ++ symbols.globalSyscallList).find? (·.name = name)).map .syscall))

/-- The first item whose name begins with the identifier, if there is one, has this name. -/
def FirstIs {α : Type} (nameOf : α → List Byte) (items : List α) (name : List Byte) : Prop :=
  ∀ item ∈ items.find? (name <+: nameOf ·), nameOf item = name

/-- The identifier names a variable or something in a table of the linker, or nothing that was
appended stands in front of it with a longer name that begins with it. -/
def NotHidden (symbols : Symbols) (vars : List Var) (name : List Byte) : Prop :=
  name ∈ vars.map Var.name ∨ name ∈ symbols.sysvarTable.map Sysvar.name ∨
    FirstIs Sysvar.name symbols.globalSysvarList name ∧
      (name ∈ symbols.globalSysvarList.map Sysvar.name ∨
        name ∈ symbols.syscallTable.map Syscall.name ∨
        FirstIs Syscall.name symbols.globalSyscallList name)

/-- The names are strings. -/
structure Named (symbols : Symbols) (vars : List Var) (name : List Byte) : Prop where
  name : 0 ∉ name
  vars : ∀ var ∈ vars, 0 ∉ var.name
  sysvars : ∀ item ∈ symbols.globalSysvarList, 0 ∉ item.name
  syscalls : ∀ item ∈ symbols.globalSyscallList, 0 ∉ item.name

theorem finshVarLookup_eq (hname : 0 ∉ name) (hshort : name.length < finshNameMax)
    (hvars : ∀ var ∈ vars, 0 ∉ var.name) :
    finshVarLookup vars name = vars.findIdx? (·.name = name) := by
  induction vars with
  | nil => rfl
  | cons var vars ih =>
    have heq : strncmp var.name name finshNameMax = 0 ↔ var.name = name := by
      rw [strncmp_eq_zero_iff (hvars _ mem_cons_self) hname,
        take_of_length_le (Nat.le_of_lt hshort)]
      refine ⟨fun h => ?_, fun h => by rw [h, take_of_length_le (Nat.le_of_lt hshort)]⟩
      -- a name that is cut to a shorter one was not cut
      rw [← h, take_of_length_le]
      rw [← h, length_take] at hshort
      omega
    rw [finshVarLookup, findIdx?_cons, findIdx?_cons, decide_eq_decide.mpr heq, ← finshVarLookup,
      ih fun v hv => hvars v (mem_cons_of_mem _ hv)]

section
variable {α : Type} {nameOf : α → List Byte} {items : List α}

theorem find?_strncmp (hname : 0 ∉ name) (hitems : ∀ item ∈ items, 0 ∉ nameOf item) :
    items.find? (fun item => strncmp (nameOf item) name name.length = 0) =
      items.find? (name <+: nameOf ·) := by
  refine find?_congr fun item hitem => decide_eq_decide.mpr ?_
  rw [strncmp_eq_zero_iff (hitems item hitem) hname, take_length, prefix_iff_eq_take, eq_comm]

theorem find?_eq_iff_firstIs :
    items.find? (name <+: nameOf ·) = items.find? (nameOf · = name) ↔
      FirstIs nameOf items name := by
  rw [FirstIs]
  cases hfind : items.find? (name <+: nameOf ·) with
  | none =>
    simp only [find?_eq_none, decide_eq_true_eq] at hfind
    have hnone : items.find? (nameOf · = name) = none := by
      simp only [find?_eq_none, decide_eq_true_eq]
      exact fun item hitem h => hfind item hitem (h ▸ prefix_rfl)
    simp [hnone]
  | some item =>
    refine ⟨fun h => by simpa using find?_some h.symm, fun h => ?_⟩
    obtain ⟨-, before, behind, hitems, hbefore⟩ := find?_eq_some_iff_append.mp hfind
    refine (find?_eq_some_iff_append.mpr ⟨by simpa using h, before, behind, hitems, ?_⟩).symm
    intro other hother
    have hnot := hbefore other hother
    simp only [Bool.not_eq_true', decide_eq_false_iff_not] at hnot ⊢
    exact fun heq => hnot (heq ▸ prefix_rfl)

theorem mem_names_iff : name ∈ items.map nameOf ↔ (items.find? (nameOf · = name)).isSome := by
  simp [find?_isSome]

end

theorem lookupSymbol_exact_iff (h : Named env.symbols vars name)
    (hshort : name.length < finshNameMax) :
    lookupSymbol env vars name = exactSymbol env.symbols vars name ↔
      NotHidden env.symbols vars name := by
  have hvar : name ∈ vars.map Var.name ↔ (vars.findIdx? (·.name = name)).isSome := by
    simp [findIdx?_isSome]
  rw [NotHidden, lookupSymbol, exactSymbol, finshVarLookup_eq h.name hshort h.vars,
    finshSysvarLookup, finshSyscallLookup, find?_strncmp h.name h.sysvars,
    find?_strncmp h.name h.syscalls, hvar, find?_append, find?_append,
    ← find?_eq_iff_firstIs, ← find?_eq_iff_firstIs, mem_names_iff, mem_names_iff, mem_names_iff]
  -- the first table with an entity decides, and what is behind it does not matter
  cases vars.findIdx? (·.name = name) with
  | some i => simp
  | none =>
    cases env.symbols.sysvarTable.find? (·.name = name) with
    | some item => simp
    | none =>
      generalize env.symbols.globalSysvarList.find? (name <+: ·.name) = near
      cases env.symbols.globalSysvarList.find? (·.name = name) with
      | some item => cases near <;> simp
      | none =>
        cases near with
        | some item => simp [@eq_comm _ (some _)]
        | none =>
          cases env.symbols.syscallTable.find? (·.name = name) with
          | some item => simp
          | none => simp [(Option.map_injective fun _ _ => Ident.syscall.inj).eq_iff]

/-- An identifier of fewer than 16 characters stands for the entity with its name, and is an unknown
symbol iff there is none, unless it is hidden. -/
theorem finshNodeNewId_exact_iff (self : Parser H) (h : Named env.symbols self.vars name)
    (hshort : name.length < finshNameMax) (hnodes : self.nodes < finshNodeMax)
    (herrno : self.errno ≠ .unknownSymbol) :
    ((finshNodeNewId env (idBuffer env name) self).1.info.id =
        exactSymbol env.symbols self.vars name ∧
      ((finshNodeNewId env (idBuffer env name) self).2.errno = .unknownSymbol ↔
        exactSymbol env.symbols self.vars name = none)) ↔
    NotHidden env.symbols self.vars name := by
  rw [← lookupSymbol_exact_iff h hshort, idBuffer, if_pos hshort, finshNodeNewId]
  generalize exactSymbol env.symbols self.vars name = exact
  cases lookupSymbol env self.vars name with
  | none => cases exact <;> simp [Node.info, NodeInfo.new, Parser.errorSet]
  | some ident => cases exact <;> simp [newNode, hnodes, Node.leaf, Node.info, herrno]

/-- A system variable `abc` that was appended, and a system call whose name has 17 characters. -/
def appended : Env Unit where
  symbols :=
    { sysvarTable := []
      globalSysvarList := [⟨['a', 'b', 'c'].map Char.byte, .int, 0x20000000, 0x20000100⟩]
      syscallTable := [⟨replicate 17 'f'.byte, 0x08000100, 0x08010000⟩]
      globalSyscallList := [] }
  idTail := []
  newString heap _ := (heap, 0)

theorem finshNodeNewId_exact_iff_abc :
    NotHidden appended.symbols [] (['a', 'b', 'c'].map Char.byte) ∧
      (finshNodeNewId appended (idBuffer appended (['a', 'b', 'c'].map Char.byte))
        ⟨.init [], .null, .ok, 0, [], ()⟩).1.info.id ≠ none := by
  have h : NotHidden appended.symbols [] (['a', 'b', 'c'].map Char.byte) :=
    .inr (.inr ⟨by unfold FirstIs; decide, .inl (by decide)⟩)
  refine ⟨h, ?_⟩
  rw [((finshNodeNewId_exact_iff _ ⟨by decide, by decide, by decide, by decide⟩ (by decide)
    (by decide) (by decide)).mpr h).1]
  decide

/-- `ab` stands for `abc`, and the system call with the long name is not found. -/
theorem names_not_exact : (exactSymbol appended.symbols [] (['a', 'b'].map Char.byte) = none ∧
      (lookupSymbol appended [] (idBuffer appended (['a', 'b'].map Char.byte))).isSome) ∧
    (exactSymbol appended.symbols [] (replicate 17 'f'.byte)).isSome ∧
      lookupSymbol appended [] (idBuffer appended (replicate 17 'f'.byte)) = none := by
  decide

end RtThread.Finsh
