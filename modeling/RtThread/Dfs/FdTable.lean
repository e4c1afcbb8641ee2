import RtThread.Dfs.File

/-!
# The table of file descriptors

`fd_alloc`, `fd_new`, `fd_get` and `fd_put` of `dfs.c`. The table holds pointers of a type `π`; what
they point to is in `mem`. Whether there is memory comes with the call.

A table is seen through `slot`, the pointer at each index, which does not show how far it has grown.
-/

namespace RtThread
open List
open Function

/-- `DFS_FD_MAX` (`dfs.h:28`). -/
def dfsFdMax : Nat := 4

/-- `DFS_FD_OFFSET` (`dfs.h:35`). -/
def dfsFdOffset : Int := 3

/-- `DFS_FD_MAGIC` (`dfs_file.h:38`). -/
def dfsFdMagic : BitVec 16 := 0xfdfd

/-- `struct dfs_fd` (`dfs_file.h:39-53`). -/
structure DfsFd (φ : Type*) where
  magic : BitVec 16
  refCount : BitVec 32
  file : DfsFile φ

/-- Memory that `rt_calloc` returns. -/
def DfsFd.zero {φ : Type*} : DfsFd φ := ⟨0, 0, ⟨0, none, none, none, 0, 0, 0⟩⟩

/-- `struct dfs_fdtable` (`dfs.h:86-90`), and the descriptors. `maxfd` is the length of `fds`. -/
structure FdTable (π φ : Type*) where
  fds : List (Option π)
  mem : π → DfsFd φ

/-- The loop of `fd_alloc` (`dfs.c:126-132`). -/
def fdSearch {π φ : Type*} (mem : π → DfsFd φ) : List (Option π) → (idx : Nat) → Nat
  | [], idx => idx
  | none :: _, idx => idx
  | some d :: fds, idx => if (mem d).refCount = 0 then idx else fdSearch mem fds (idx + 1)

/-- The loop of `fd_put` (`:263-271`). -/
def fdClear {π : Type*} [DecidableEq π] (fd : π) : List (Option π) → List (Option π)
  | [] => []
  | d :: fds => if d = some fd then none :: fds else d :: fdClear fd fds

namespace FdTable
variable {π φ : Type*} (t : FdTable π φ)

def maxfd : Nat := t.fds.length

/-- A larger container (`:140-156`). -/
def grow : FdTable π φ :=
  let cnt := if t.maxfd + 4 > dfsFdMax then dfsFdMax else t.maxfd + 4
  { t with fds := t.fds ++ replicate (cnt - t.maxfd) none }

def slot (i : Nat) : Option π := t.fds[i]?.join

/-- Between calls: the descriptors are valid and have one reference each, and no two entries are the
same. -/
structure Ok : Prop where
  le : t.maxfd ≤ dfsFdMax
  live : ∀ {i d}, t.slot i = some d → (t.mem d).magic = dfsFdMagic ∧ (t.mem d).refCount = 1
  inj : ∀ {i j d}, t.slot i = some d → t.slot j = some d → i = j

variable {t} {i j : Nat} {d : π} {fds : List (Option π)}

theorem slot_lt (h : t.slot i = some d) : i < t.maxfd := by
  by_contra hle
  rw [slot, getElem?_eq_none (Nat.le_of_not_lt hle)] at h
  cases h

theorem slot_set (hi : i < t.maxfd) (x : Option π) (mem : π → DfsFd φ) :
    slot ⟨t.fds.set i x, mem⟩ = update t.slot i x := by
  funext j
  rcases eq_or_ne j i with rfl | hne
  · simp [slot, getElem?_set_self (show j < t.fds.length from hi)]
  · simp [slot, getElem?_set_ne hne.symm, hne]

@[simp] theorem slot_grow : t.grow.slot = t.slot := by
  funext i
  rw [slot, slot, grow]
  rcases Nat.lt_or_ge i t.fds.length with hlt | hge
  · rw [getElem?_append_left hlt]
  · rw [getElem?_append_right hge, getElem?_eq_none hge, getElem?_replicate]
    exact (apply_ite Option.join ..).trans (ite_self none)

theorem maxfd_grow (h : t.maxfd < dfsFdMax) : t.maxfd < t.grow.maxfd ∧ t.grow.maxfd ≤ dfsFdMax := by
  have hlen : t.grow.maxfd = t.maxfd +
      ((if t.maxfd + 4 > dfsFdMax then dfsFdMax else t.maxfd + 4) - t.maxfd) := by
    simp [grow, maxfd]
  rw [hlen]
  split <;> omega

theorem Ok.slot_inj (h : t.Ok) (hslot : t.slot i = some d) : ∀ j, t.slot j = some d → j = i :=
  fun _ hj => h.inj hj hslot

theorem fdSearch_spec {mem : π → DfsFd φ} (idx : Nat)
    (hlive : ∀ d, some d ∈ fds → (mem d).refCount ≠ 0) :
    ∃ n ≤ fds.length, fdSearch mem fds idx = idx + n ∧ (∀ i < n, fds[i]?.join ≠ none) ∧
      fds[n]?.join = none := by
  induction fds generalizing idx with
  | nil => exact ⟨0, Nat.le_refl 0, rfl, by simp, rfl⟩
  | cons e fds ih =>
    cases e with
    | none => exact ⟨0, Nat.zero_le _, rfl, by simp, rfl⟩
    | some d =>
      obtain ⟨n, hn, hsearch, hbelow, hfree⟩ := ih (idx + 1) fun d hd => hlive d (by simp [hd])
      refine ⟨n + 1, by simpa using hn, ?_, fun i hi => ?_, by simpa using hfree⟩
      · rw [fdSearch, if_neg (hlive d (by simp)), hsearch]
        omega
      · cases i with
        | zero => simp
        | succ i => simpa using hbelow i (by omega)

theorem getElem?_of_slot (h : t.slot i = none) (hi : i < t.maxfd) : t.fds[i]? = some none := by
  rw [slot, getElem?_eq_getElem hi] at h
  rw [getElem?_eq_getElem hi]
  exact congrArg some h

variable [DecidableEq π] (t)

def modify (d : π) (f : DfsFd φ → DfsFd φ) : FdTable π φ :=
  { t with mem := update t.mem d (f (t.mem d)) }

variable (realloc : Bool) (calloc : Option π)

/-- The end of `fd_alloc` (`:157-166`). -/
def allocEntry (idx : Nat) : Nat × FdTable π φ :=
  if idx < t.maxfd ∧ t.fds[idx]? = some none then
    match calloc with
    | none => (t.maxfd, t)
    | some d => (idx, ⟨t.fds.set idx (some d), update t.mem d .zero⟩)
  else (idx, t)

/-- `fd_alloc` (`:121-167`). -/
def fdAlloc (startfd : Nat) : Nat × FdTable π φ :=
  let idx := fdSearch t.mem (t.fds.drop startfd) startfd
  if idx = t.maxfd ∧ t.maxfd < dfsFdMax then
    if realloc then t.grow.allocEntry calloc idx else (idx, t)
  else t.allocEntry calloc idx

/-- `fd_new` (`:175-203`). -/
def fdNew : Int × FdTable π φ :=
  let (idx, t) := t.fdAlloc realloc calloc 0
  if idx = t.maxfd then (-(1 + dfsFdOffset) + dfsFdOffset, t)
  else
    match t.fds[idx]?.join with
    | none => (idx + dfsFdOffset, t)
    | some d =>
      (idx + dfsFdOffset, t.modify d fun x => { x with refCount := 1, magic := dfsFdMagic })

/-- `fd_get` (`:214-244`). -/
def fdGet (fd : Int) : Option π × FdTable π φ :=
  let fd := fd - dfsFdOffset
  if fd < 0 ∨ fd ≥ t.maxfd then (none, t)
  else
    match t.fds[fd.toNat]?.join with
    | none => (none, t)
    | some d =>
      if (t.mem d).magic ≠ dfsFdMagic then (none, t)
      else (some d, t.modify d fun x => { x with refCount := x.refCount + 1 })

/-- `fd_put` (`:251-277`). -/
def fdPut (d : π) : FdTable π φ :=
  let t := t.modify d fun x => { x with refCount := x.refCount - 1 }
  if (t.mem d).refCount = 0 then { t with fds := fdClear d t.fds } else t

/-- What a function on files makes of the file of `d`. -/
def onFile {α : Type*} (d : π) (f : DfsFile φ → α × DfsFile φ) : α × FdTable π φ :=
  ((f (t.mem d).file).1, t.modify d fun x => { x with file := (f x.file).2 })

variable {t}

@[simp] theorem mem_modify_self (f : DfsFd φ → DfsFd φ) : (t.modify d f).mem d = f (t.mem d) :=
  update_self ..

theorem mem_modify_of_ne {e : π} (h : e ≠ d) (f : DfsFd φ → DfsFd φ) :
    (t.modify d f).mem e = t.mem e :=
  update_of_ne h ..

@[simp] theorem modify_modify (f g : DfsFd φ → DfsFd φ) :
    (t.modify d f).modify d g = t.modify d fun x => g (f x) := by
  simp [modify]

theorem fdGet_of_slot (hslot : t.slot i = some d) (hmagic : (t.mem d).magic = dfsFdMagic) :
    t.fdGet (i + dfsFdOffset) =
      (some d, t.modify d fun x => { x with refCount := x.refCount + 1 }) := by
  have hlt := slot_lt hslot
  rw [slot] at hslot
  rw [fdGet]
  simp only [Int.add_sub_cancel, Int.toNat_natCast]
  rw [if_neg (by omega), hslot]
  simp [hmagic]

theorem fdGet_cases (t : FdTable π φ) (fd : Int) :
    t.fdGet fd = (none, t) ∧ (∀ i d, t.slot i = some d → fd ≠ i + dfsFdOffset) ∨
    ∃ (i : Nat) (d : π), fd = i + dfsFdOffset ∧ t.slot i = some d := by
  by_cases hfd : ∃ (i : Nat) (d : π), fd = i + dfsFdOffset ∧ t.slot i = some d
  · exact .inr hfd
  · refine .inl ⟨?_, fun i d hslot heq => hfd ⟨i, d, heq, hslot⟩⟩
    rw [fdGet]
    split
    · rfl
    · rename_i hrange
      rw [not_or] at hrange
      have hnone : t.slot (fd - dfsFdOffset).toNat = none := by
        by_contra hsome
        obtain ⟨d, hd⟩ := Option.ne_none_iff_exists'.mp hsome
        exact hfd ⟨(fd - dfsFdOffset).toNat, d, by omega, hd⟩
      rw [slot] at hnone
      rw [hnone]

theorem fdPut_of_two (h : (t.mem d).refCount = 2) :
    t.fdPut d = t.modify d fun x => { x with refCount := 1 } := by
  have hone : (2 : BitVec 32) - 1 = 1 := by decide
  rw [fdPut]
  simp only [mem_modify_self, h, hone]
  rw [if_neg (by decide)]
  simp [modify, h]

theorem fdClear_eq_set (hi : fds[i]?.join = some d)
    (hinj : ∀ j, fds[j]?.join = some d → j = i) : fdClear d fds = fds.set i none := by
  induction fds generalizing i with
  | nil => cases hi
  | cons e fds ih =>
    rw [fdClear]
    split
    · rename_i he
      obtain rfl := hinj 0 (by simp [he])
      rfl
    · rename_i he
      cases i with
      | zero => exact absurd (by simpa using hi) he
      | succ i =>
        rw [set_cons_succ, ih (by simpa using hi)]
        intro j hj
        have := hinj (j + 1) (by simpa using hj)
        omega

theorem fdPut_of_one (h : (t.mem d).refCount = 1) (hslot : t.slot i = some d)
    (hinj : ∀ j, t.slot j = some d → j = i) :
    (t.fdPut d).slot = update t.slot i none ∧ (t.fdPut d).maxfd = t.maxfd ∧
    ∀ e, e ≠ d → (t.fdPut d).mem e = t.mem e := by
  have hzero : (1 : BitVec 32) - 1 = 0 := by decide
  have hput : t.fdPut d =
      ⟨t.fds.set i none, (t.modify d fun x => { x with refCount := x.refCount - 1 }).mem⟩ := by
    rw [fdPut]
    simp only [mem_modify_self, h, hzero, if_true]
    exact congrArg (FdTable.mk · _) (fdClear_eq_set hslot hinj)
  rw [hput]
  refine ⟨slot_set (slot_lt hslot) none _, ?_, fun e he => ?_⟩
  · simp [maxfd]
  · exact update_of_ne he ..

/-- `t'` is `t` with a new descriptor at the first free index, which has one reference. -/
structure IsNew (t t' : FdTable π φ) (n : Nat) (d : π) : Prop where
  slot_eq_none : t.slot n = none
  below : ∀ i < n, t.slot i ≠ none
  lt : n < dfsFdMax
  fresh : ∀ i, t.slot i ≠ some d
  slot_eq : t'.slot = update t.slot n (some d)
  le : t'.maxfd ≤ dfsFdMax
  mem_self : (t'.mem d).magic = dfsFdMagic ∧ (t'.mem d).refCount = 1
  mem_of_ne : ∀ e, e ≠ d → t'.mem e = t.mem e

/-- `t'` has the entries of `t`. -/
structure SameEntries (t t' : FdTable π φ) : Prop where
  slot_eq : t'.slot = t.slot
  le : t'.maxfd ≤ dfsFdMax
  mem_eq : ∀ i d, t.slot i = some d → t'.mem d = t.mem d

/-- `fd_alloc` has found no index, or no memory. -/
def AllocFails (t : FdTable π φ) (r : Nat × FdTable π φ) : Prop :=
  r.1 = r.2.maxfd ∧ SameEntries t r.2

/-- `fd_alloc` has made an entry at the first free index. -/
structure Allocs (t : FdTable π φ) (calloc : Option π) (r : Nat × FdTable π φ) (d : π) : Prop where
  slot_eq_none : t.slot r.1 = none
  below : ∀ i < r.1, t.slot i ≠ none
  lt : r.1 < r.2.maxfd
  le : r.2.maxfd ≤ dfsFdMax
  calloc_eq : calloc = some d
  slot_eq : r.2.slot = update t.slot r.1 (some d)
  mem_eq : r.2.mem = update t.mem d .zero

theorem allocEntry_cases {t' : FdTable π φ} {n : Nat} (hslot : t'.slot = t.slot)
    (hmem : t'.mem = t.mem) (hle : t'.maxfd ≤ dfsFdMax) (hn : n ≤ t'.maxfd)
    (hbelow : ∀ i < n, t.slot i ≠ none) (hfree : t.slot n = none) (calloc : Option π) :
    AllocFails t (t'.allocEntry calloc n) ∨ ∃ d, Allocs t calloc (t'.allocEntry calloc n) d := by
  have hsame : SameEntries t t' := ⟨hslot, hle, fun _ _ _ => by rw [hmem]⟩
  rw [allocEntry.eq_def]
  split
  · rename_i hentry
    cases calloc with
    | none => exact .inl ⟨rfl, hsame⟩
    | some d =>
      refine .inr ⟨d, hfree, hbelow, ?_, ?_, rfl, ?_, by rw [hmem]⟩
      · simpa [maxfd] using hentry.1
      · simpa [maxfd] using hle
      · rw [slot_set hentry.1, hslot]
  · rename_i hentry
    have hend : ¬n < t'.maxfd := fun hlt => hentry ⟨hlt, getElem?_of_slot (hslot ▸ hfree) hlt⟩
    exact .inl ⟨Nat.le_antisymm hn (Nat.le_of_not_lt hend), hsame⟩

theorem fdAlloc_cases (h : t.Ok) (realloc : Bool) (calloc : Option π) :
    AllocFails t (t.fdAlloc realloc calloc 0) ∨
      ∃ d, Allocs t calloc (t.fdAlloc realloc calloc 0) d := by
  have hlive : ∀ d, some d ∈ t.fds → (t.mem d).refCount ≠ 0 := by
    intro d hd
    obtain ⟨i, hi⟩ := mem_iff_getElem?.mp hd
    have hslot : t.slot i = some d := by rw [slot, hi]; rfl
    rw [(h.live hslot).2]
    decide
  obtain ⟨n, hn, hsearch, hbelow, hfree⟩ := fdSearch_spec 0 hlive
  rw [fdAlloc, drop_zero, hsearch, Nat.zero_add]
  split
  · rename_i hfull
    obtain ⟨hlt, hle⟩ := maxfd_grow hfull.2
    split
    · exact allocEntry_cases slot_grow rfl hle (hn.trans hlt.le) hbelow hfree calloc
    · exact .inl ⟨hfull.1, rfl, h.le, fun _ _ _ => rfl⟩
  · exact allocEntry_cases rfl rfl h.le hn hbelow hfree calloc

theorem fdNew_cases (h : t.Ok) {realloc : Bool} {calloc : Option π}
    (hfresh : ∀ d ∈ calloc, ∀ i, t.slot i ≠ some d) :
    (∃ t', t.fdNew realloc calloc = (-1, t') ∧ SameEntries t t') ∨
    ∃ (n : Nat) (d : π) (t' : FdTable π φ),
      t.fdNew realloc calloc = (n + dfsFdOffset, t') ∧ IsNew t t' n d := by
  obtain ⟨⟨n, t'⟩, hr⟩ : ∃ r, t.fdAlloc realloc calloc 0 = r := ⟨_, rfl⟩
  rcases hr ▸ fdAlloc_cases h realloc calloc with ⟨hend, hsame⟩ | ⟨d, halloc⟩
  · refine .inl ⟨t', ?_, hsame⟩
    rw [fdNew, hr]
    exact if_pos hend
  · have hself : t'.fds[n]?.join = some d := by
      rw [← slot, halloc.slot_eq, update_self]
    refine .inr ⟨n, d, t'.modify d fun x => { x with refCount := 1, magic := dfsFdMagic }, ?_, ?_⟩
    · rw [fdNew, hr]
      simp only [hself]
      exact if_neg (Nat.ne_of_lt halloc.lt)
    · refine ⟨halloc.slot_eq_none, halloc.below, halloc.lt.trans_le halloc.le,
        hfresh d halloc.calloc_eq, halloc.slot_eq, halloc.le, by simp, fun e he => ?_⟩
      rw [mem_modify_of_ne he, halloc.mem_eq, update_of_ne he]

end FdTable
end RtThread
