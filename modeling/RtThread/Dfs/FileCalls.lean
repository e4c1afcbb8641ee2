import RtThread.Dfs.Routing

/-!
# The calls of a file system

What `dfs_file.c` hands to the functions of a file system to rename, open and unlink a file, and
what becomes of the paths that it has allocated.
-/

namespace RtThread
open Option
open Buffer
open List
variable {φ : Type*}

/-- The path of a file as its file system takes it: the sub-path, `/` for the mount point. -/
def Mount.pathOf (fs : Mount φ) (fullpath : List Byte) : List Byte :=
  if fs.fullpath then fullpath else (dfsSubdir fs.path fullpath).getD [slash]

@[inherit_doc enoent]
def exdev : BitVec 32 := 18

/-- A call of `dfs_file_rename` that returns: the file system whose `rename` it has called, with
the paths, and the pointers that it has freed. -/
structure Renaming (φ : Type*) where
  result : BitVec 32
  call : Option (Mount φ × Option (List Byte) × Option (List Byte))
  freed : List (Option (List Byte))

/-- `dfs_file_rename` (`dfs_file.c:426-481`), or `none` if it dereferences NULL. `old` and `new` are
what `dfs_normalize_path` returns, and `rename` is the function of a file system. -/
def dfsFileRename (table : List (Filesystem φ))
    (rename : Mount φ → Option (Option (List Byte) → Option (List Byte) → BitVec 32)) :
    (old new : Option (List Byte)) → Option (Renaming φ)
  | none, _ => some ⟨-enoent, none, [none, none]⟩
  | some old, none => some ⟨-enoent, none, [some old, none]⟩
  | some old, some new =>
    match dfsFilesystemLookup table old, dfsFilesystemLookup table new with
    | none, none => none
    | some fs, some newfs =>
      if fs.index = newfs.index then
        match rename fs with
        | none => some ⟨-enosys, none, [some old, some new]⟩
        | some rename =>
          -- newfs is fs
          let sub path := if fs.fullpath then some path else dfsSubdir fs.path path
          some ⟨rename (sub old) (sub new), some (fs, sub old, sub new), [some old, some new]⟩
      else some ⟨-exdev, none, [some old, some new]⟩
    | _, _ => some ⟨-exdev, none, [some old, some new]⟩

/-- What is expected of a call of `dfs_file_rename` for the normal forms of its paths. -/
@[mk_iff]
structure Renaming.Sound (table : List (Filesystem φ)) (old new : Option (List Byte))
    (r : Renaming φ) : Prop where
  freed : r.freed = [old, old.bind fun _ => new]
  negative : r.call = none → r.result.slt 0
  call : ∀ fs p q, r.call = some (fs, p, q) → ∃ o ∈ old, ∃ n ∈ new,
    dfsFilesystemLookup table o = some fs ∧
    (dfsFilesystemLookup table n).map Mount.index = some fs.index ∧
    p = some (fs.pathOf o) ∧ q = some (fs.pathOf n)

/-- A file is renamed as expected unless neither path has a file system, or both have one that
takes sub-paths and one of them is its mount point. -/
theorem rename_sound_iff (table : List (Filesystem φ))
    (rename : Mount φ → Option (Option (List Byte) → Option (List Byte) → BitVec 32))
    (old new : Option (List Byte)) :
    (∃ r ∈ dfsFileRename table rename old new, r.Sound table old new) ↔ ∀ o ∈ old, ∀ n ∈ new,
        (dfsFilesystemLookup table o ≠ none ∨ dfsFilesystemLookup table n ≠ none) ∧
        ∀ fs ∈ dfsFilesystemLookup table o, ∀ fs' ∈ dfsFilesystemLookup table n,
          fs.index = fs'.index → rename fs ≠ none → fs.fullpath = false →
          dfsSubdir fs.path o ≠ none ∧ dfsSubdir fs.path n ≠ none := by
  have hnegative : (-enoent).slt 0#32 ∧ (-enosys).slt 0#32 ∧ (-exdev).slt 0#32 := by decide
  have hnull (sub : Option (List Byte)) : sub = some (sub.getD [slash]) ↔ sub ≠ none := by
    cases sub <;> simp
  cases old with
  | none => simp [dfsFileRename, Renaming.sound_iff, hnegative]
  | some o =>
  cases new with
  | none => simp [dfsFileRename, Renaming.sound_iff, hnegative]
  | some n =>
    simp only [dfsFileRename, mem_def, some.injEq, forall_eq', Renaming.sound_iff]
    cases ho : dfsFilesystemLookup table o <;> cases hn : dfsFilesystemLookup table n
    case some.some fs fs' =>
      by_cases hindex : fs.index = fs'.index
      · cases hrename : rename fs with
        | none => simp [hindex, hrename, hnegative]
        | some f =>
          cases hflag : fs.fullpath <;>
            simp [hindex, hrename, ho, hn, hflag, Mount.pathOf, hnull]
      · simp [hindex, hnegative]
    all_goals simp [hnegative]

/-- Without a mounted file system NULL is dereferenced, and `/a` on `/a` has no sub-path. -/
theorem rename_unsound :
    dfsFileRename ([] : List (Filesystem Unit)) (fun _ => none) (some [slash]) (some [slash]) =
      none ∧
    (dfsFileRename twoMounts (fun _ => some fun _ _ => 0) (some [slash, 'a'.byte])
      (some [slash, 'a'.byte, slash, 'b'.byte])).any fun r =>
        r.call.any fun call => call.2.1 = none :=
  ⟨rfl, rfl⟩

/-- What `dfs_file_open` does with memory: the `fd->path` that its call of `open` sees, and the
blocks that it has allocated and not freed when it returns. -/
structure OpenMemory where
  called : Option (Option (List Byte))
  live : List (List Byte)

def dfsFileOpenMemory (table : List (Filesystem φ)) (ops : φ → FileOps φ)
    (fullpath : Option (List Byte)) (strdup : Bool) (flags : BitVec 32) : OpenMemory :=
  match fullpath with
  | none => ⟨none, []⟩
  | some fullpath =>
    match dfsFilesystemLookup table fullpath with
    | none => ⟨none, [fullpath].erase fullpath⟩
    | some fs =>
      let (path, live) :=
        if fs.fullpath then (some fullpath, [fullpath])
        else
          let sub := if strdup then some ((dfsSubdir fs.path fullpath).getD [slash]) else none
          (sub, (fullpath :: sub.toList).erase fullpath)
      match (ops fs.ops.fops).openFile with
      | none => ⟨none, live.diff path.toList⟩
      | some openFile =>
        let (result, fd) :=
          openFile ⟨ftRegular, path, some fs.index, some fs.ops.fops, flags, 0, 0⟩
        ⟨some path, if result.slt 0 then live.diff fd.path.toList else live⟩

attribute [local simp] dfsFileOpenMemory

/-- `dfs_file_open` calls `open` with the path that is given here, or returns an error. -/
theorem dfsFileOpen_called (table : List (Filesystem φ)) (ops : φ → FileOps φ)
    (fullpath : Option (List Byte)) (strdup : Bool) (flags : BitVec 32) (fd : DfsFile φ) :
    match (dfsFileOpenMemory table ops fullpath strdup flags).called with
    | none => (dfsFileOpen table ops fullpath strdup flags fd).1.slt 0
    | some path => ∃ full ∈ fullpath, ∃ fs ∈ dfsFilesystemLookup table full,
        (ops fs.ops.fops).openFile ≠ none ∧ dfsFileOpen table ops fullpath strdup flags fd =
          openRoutine ops flags ⟨ftRegular, path, some fs.index, some fs.ops.fops,
            flags, 0, 0⟩ := by
  have hnegative : (-enoent).slt 0#32 ∧ (-enosys).slt 0#32 ∧ (-enomem).slt 0#32 := by decide
  cases fullpath with
  | none => simp [dfsFileOpen, hnegative]
  | some full =>
    cases hlookup : dfsFilesystemLookup table full with
    | none => simp [dfsFileOpen, hlookup, hnegative]
    | some fs =>
      cases hopen : (ops fs.ops.fops).openFile with
      | none => simp [dfsFileOpen, openRoutine, DfsFile.ops, hlookup, hopen, hnegative]
      | some f => cases hflag : fs.fullpath <;> simp [dfsFileOpen, hlookup, hopen, hflag]

/-- Where the functions `open` leave `fd->path` as it is, a file is opened or nothing is left of the
call, and `open` gets a path, just if `rt_strdup` does not fail for an `open`. -/
theorem open_memory_iff {ops : φ → FileOps φ}
    (hkeeps : ∀ fops, ∀ f ∈ (ops fops).openFile, ∀ fd, (f fd).2.path = fd.path)
    (table : List (Filesystem φ)) (fullpath : Option (List Byte)) (strdup : Bool)
    (flags : BitVec 32) (fd : DfsFile φ) :
    (((dfsFileOpen table ops fullpath strdup flags fd).1.slt 0 ∧
          (dfsFileOpenMemory table ops fullpath strdup flags).live = [] ∨
        (dfsFileOpen table ops fullpath strdup flags fd).1 = 0 ∧
          ∃ full ∈ fullpath, ∃ fs ∈ dfsFilesystemLookup table full,
            (dfsFileOpen table ops fullpath strdup flags fd).2.path = some (fs.pathOf full) ∧
            (dfsFileOpenMemory table ops fullpath strdup flags).live = [fs.pathOf full]) ∧
      (dfsFileOpenMemory table ops fullpath strdup flags).called ≠ some none) ↔
    ∀ full ∈ fullpath, ∀ fs ∈ dfsFilesystemLookup table full,
      (ops fs.ops.fops).openFile ≠ none → fs.fullpath ∨ strdup := by
  have hnegative : (-enoent).slt 0#32 ∧ (-enosys).slt 0#32 ∧ (-enomem).slt 0#32 := by decide
  cases fullpath with
  | none => simp [dfsFileOpen, hnegative]
  | some full =>
    cases hlookup : dfsFilesystemLookup table full with
    | none => simp [dfsFileOpen, hlookup, hnegative]
    | some fs =>
      cases hopen : (ops fs.ops.fops).openFile with
      | none =>
        cases hflag : fs.fullpath <;> cases strdup <;>
          simp [dfsFileOpen, openRoutine, DfsFile.ops, hlookup, hopen, hflag, hnegative]
      | some f =>
        have hpath := hkeeps _ f hopen
        cases hflag : fs.fullpath <;> cases strdup <;>
          simp [dfsFileOpen, openRoutine, DfsFile.ops, hlookup, hopen, hflag, hpath,
            Mount.pathOf] <;>
          split_ifs <;> simp_all

def opening : Unit → FileOps Unit := fun _ =>
  ⟨some fun fd => (0, fd), none, none, none, none, none, none, none⟩

theorem open_memory_iff_copied :
    (dfsFileOpenMemory twoMounts opening (some [slash, 'a'.byte]) true 0).called ≠ some none :=
  ((open_memory_iff (by rintro _ _ ⟨⟩ _; rfl) twoMounts _ true 0
    ⟨0, none, none, none, 0, 0, 0⟩).mpr fun _ _ _ _ _ => .inr rfl).2

/-- When `rt_strdup` fails, `open` is called without a path. -/
theorem open_null_path :
    (dfsFileOpenMemory twoMounts opening (some [slash, 'a'.byte]) false 0).called = some none := rfl

/-- A file that has been opened on `m`, with a path whose normal form is `q`. -/
structure OpenedAs (m : Mount φ) (q : List Byte) (fd : DfsFile φ) : Prop where
  canonical : Canonical q
  covers : Covers m.path q
  fops : fd.fops ≠ none
  fs : fd.fs = some m.index
  path : fd.path = some (m.pathOf q)

variable {table : List (Filesystem φ)} {fs fs' : Mount φ} {p q : List Byte}

theorem mem_mounts {k : Nat} (h : fs ∈ mounts table k) :
    ∃ i, fs.index = k + i ∧ table[i]? = some ⟨some fs.path, some fs.ops⟩ := by
  induction table generalizing k with
  | nil => cases h
  | cons entry rest ih =>
    have hrest (h : fs ∈ mounts rest (k + 1)) : ∃ i, fs.index = k + i ∧
        (entry :: rest)[i]? = some ⟨some fs.path, some fs.ops⟩ := by
      obtain ⟨i, hi, hget⟩ := ih h
      exact ⟨i + 1, by omega, hget⟩
    obtain ⟨_ | path, _ | ops⟩ := entry
    case some.some =>
      rcases mem_cons.mp h with rfl | h
      · exact ⟨0, rfl, rfl⟩
      · exact hrest h
    all_goals exact hrest h

theorem mounts_index_inj (h : fs ∈ mounts table 0) (h' : fs' ∈ mounts table 0)
    (hindex : fs.index = fs'.index) : fs = fs' := by
  obtain ⟨i, hi, hget⟩ := mem_mounts h
  obtain ⟨j, hj, hget'⟩ := mem_mounts h'
  obtain rfl : i = j := by omega
  cases fs
  cases fs'
  simp_all

/-- The path with which `fd_is_open` compares is that of just the files that were opened as `p`. -/
theorem pathOf_eq_iff (hm : Canonical fs.path) (hp : Canonical p) (hcovers : Covers fs.path p)
    (hfs : fs.path = [slash] ∨ fs.fullpath = false ∧ p ≠ fs.path) (hq : Canonical q)
    (hq' : Covers fs.path q) :
    fs.pathOf q = (if fs.path = [slash] then p else p.drop fs.path.length) ↔ q = p := by
  have hsub := isSubPath_dfsSubdir hm hq hq'
  by_cases hroot : fs.path = [slash]
  · have hq : (dfsSubdir fs.path q).getD [slash] = q := by
      rcases hsub.split with ⟨hq, h⟩ | ⟨-, h⟩ | h
      · rw [h, hq, hroot]
      · exact h
      · obtain ⟨rest, hcons, hrest⟩ := hq.eq_cons
        rw [hroot, hcons] at h hsub
        exact absurd ((congrArg head? (List.cons.inj h).2).trans hsub.head) hrest
    rw [if_pos hroot, Mount.pathOf, hq, ite_self]
  · obtain ⟨hflag, hne⟩ := hfs.resolve_left hroot
    obtain ⟨rest, rfl⟩ := hcovers.isPrefix hp
    rw [if_neg hroot, drop_left, Mount.pathOf, if_neg (by simp [hflag])]
    rcases hsub.split with ⟨rfl, h⟩ | ⟨h, -⟩ | h
    · refine iff_of_false (fun hrest => ?_) (Ne.symm hne)
      rw [← hrest] at hp
      exact hm.ne_nil (Canonical.eq_root (h ▸ hp))
    · exact absurd h hroot
    · rw [← append_right_inj fs.path, ← h]

theorem fdIsOpen_iff {files : List (Option (DfsFile φ))}
    (hlookup : dfsFilesystemLookup table p = some fs) :
    fdIsOpen table files (some p) ↔ ∃ fd, some fd ∈ files ∧ fd.fops ≠ none ∧ fd.fs = some fs.index ∧
      fd.path = some (if fs.path = [slash] then p else p.drop fs.path.length) := by
  simp [fdIsOpen, hlookup, Option.any_eq_true, Option.isSome_iff_ne_none]

/-- An open file is kept from being unlinked if its file system is at `/`, or takes sub-paths and is
not mounted at the file. -/
theorem unlink_busy_iff (hmounts : ∀ fs ∈ mounts table 0, Canonical fs.path ∧ 0 ∉ fs.path)
    (hp : Canonical p) (hp0 : 0 ∉ p) :
    (∀ files : List (Option (DfsFile φ)),
      (∀ fd, some fd ∈ files → ∃ fs ∈ mounts table 0, ∃ q, OpenedAs fs q fd) →
      (dfsFileUnlink table files (some p) (some p) = -ebusy ∧
          (dfsFileUnlinkCall table files (some p) (some p)).toOption = none ↔
        ∃ fs ∈ dfsFilesystemLookup table p, ∃ fd, some fd ∈ files ∧ OpenedAs fs p fd)) ↔
    ∀ fs ∈ dfsFilesystemLookup table p, fs.path = [slash] ∨ fs.fullpath = false ∧ p ≠ fs.path := by
  cases hlookup : dfsFilesystemLookup table p with
  | none => simp [dfsFileUnlink, dfsFileUnlinkCall, hlookup, show -enoent ≠ -ebusy by decide]
  | some fs =>
    have hroute := isRoute_of_lookup hmounts hp hp0 hlookup
    have hbusy (files) : dfsFileUnlink table files (some p) (some p) = -ebusy ∧
        (dfsFileUnlinkCall table files (some p) (some p)).toOption = none ↔
          fdIsOpen table files (some p) := by
      cases hopen : fdIsOpen table files (some p) <;> cases hunlink : fs.ops.unlink <;>
        cases hflag : fs.fullpath <;>
          simp [dfsFileUnlink, dfsFileUnlinkCall, Except.toOption, hlookup, hopen, hunlink, hflag,
            show -enosys ≠ -ebusy by decide]
    simp only [mem_def, some.injEq, forall_eq', exists_eq_left', hbusy, fdIsOpen_iff hlookup]
    have hm := (hmounts fs hroute.mem).1
    constructor
    · intro h
      by_contra hfs
      rw [not_or] at hfs
      let fd : DfsFile φ := ⟨0, some (fs.pathOf p), some fs.index, some fs.ops.fops, 0, 0, 0⟩
      have hfd : OpenedAs fs p fd := ⟨hp, hroute.covers, by simp [fd], rfl, rfl⟩
      have hfiles := h [some fd] (by simpa using ⟨fs, hroute.mem, p, hfd⟩)
      obtain ⟨fd', hfd', -, -, hpath⟩ := hfiles.mpr ⟨fd, by simp, hfd⟩
      obtain rfl : fd' = fd := by simpa using hfd'
      rw [if_neg hfs.1, some.injEq, Mount.pathOf] at hpath
      split at hpath
      · have hdrop := congrArg length hpath
        have hm0 := length_pos_of_ne_nil hm.ne_nil
        have hp0 := length_pos_of_ne_nil hp.ne_nil
        rw [length_drop] at hdrop
        omega
      · rename_i hflag
        have heq : p = fs.path := by simpa [hflag] using hfs.2
        simp [heq, dfsSubdir] at hpath
    · intro hfs files hopened
      refine exists_congr fun fd => and_congr_right fun hfd => ⟨?_, fun h => ⟨h.fops, h.fs, ?_⟩⟩
      · rintro ⟨-, hindex, hpath⟩
        obtain ⟨fs', hfs', q, hq⟩ := hopened fd hfd
        obtain rfl := mounts_index_inj hfs' hroute.mem (some.inj (hq.fs.symm.trans hindex))
        rw [hq.path, some.injEq,
          pathOf_eq_iff hm hp hroute.covers hfs hq.canonical hq.covers] at hpath
        exact hpath ▸ hq
      · rw [h.path, (pathOf_eq_iff hm hp hroute.covers hfs hp hroute.covers).mpr rfl]

/-- The root directory is open, so that it is not unlinked. -/
theorem unlink_busy_iff_root : dfsFileUnlink [⟨some [slash], some ⟨0, (), some fun _ => 0, none⟩⟩]
      [some ⟨2, some [slash], some 0, some (), 0, 0, 0⟩] (some [slash]) (some [slash]) =
        -ebusy := by
  have hp : Canonical [slash] := ⟨[], by simp, rfl⟩
  have hfd : OpenedAs ⟨0, [slash], ⟨0, (), some fun _ => 0, none⟩⟩ [slash]
    ⟨2, some [slash], some 0, some (), 0, 0, 0⟩ := ⟨hp, .inl rfl, by simp, rfl, rfl⟩
  refine (((unlink_busy_iff (by simp [mounts, hp]; decide) hp (by decide)).mpr ?_ _ ?_).mpr
    ⟨_, rfl, _, .head _, hfd⟩).1
  · rintro _ ⟨⟩
    exact .inl rfl
  · simpa [mounts] using ⟨_, hfd⟩

/-- A file `/a/a` is unlinked while it is open, on a file system at `/a` that takes full paths. -/
theorem unlink_open_file :
    ∃ (fs : Mount Unit) (fd : DfsFile Unit), OpenedAs fs [slash, 'a'.byte, slash, 'a'.byte] fd ∧
      let table := [⟨some fs.path, some fs.ops⟩]
      let path := some [slash, 'a'.byte, slash, 'a'.byte]
      fs ∈ mounts table 0 ∧ dfsFileUnlink table [some fd] path path = 0 := by
  have ha : NameOk ['a'.byte] := ⟨by decide, by decide, by decide, by decide⟩
  exact ⟨⟨0, [slash, 'a'.byte], ⟨1, (), some fun _ => 0, none⟩⟩,
    ⟨0, some [slash, 'a'.byte, slash, 'a'.byte], some 0, some (), 0, 0, 0⟩,
    ⟨⟨[['a'.byte], ['a'.byte]], by simp [ha], rfl⟩, .inr (.inr ⟨_, rfl⟩), by simp, rfl, rfl⟩,
    .head _, rfl⟩

end RtThread
