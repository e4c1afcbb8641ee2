import Mathlib.Data.List.Nodup
import RtThread.Dfs.File

/-!
# Routing

`dfs_filesystem_lookup` finds the mounted file system with the longest path that the given path is
at or below, and the functions on files hand on what remains of the path below it.
-/

namespace RtThread
open Buffer
open List
variable {φ : Type*}

/-- The used entries of the mount table, from the given index on. -/
def mounts : List (Filesystem φ) → (index : Nat) → List (Mount φ)
  | [], _ => []
  | ⟨some path, some ops⟩ :: rest, index => ⟨index, path, ops⟩ :: mounts rest (index + 1)
  | ⟨none, _⟩ :: rest, index | ⟨some _, none⟩ :: rest, index => mounts rest (index + 1)

/-- The path `p` is at or below the mount path `m`. -/
def Covers (m p : List Byte) : Prop := m = p ∨ m = [slash] ∨ m ++ [slash] <+: p

/-- The file system that is mounted closest to `p`. -/
structure IsRoute (table : List (Filesystem φ)) (p : List Byte) (fs : Mount φ) : Prop where
  mem : fs ∈ mounts table 0
  covers : Covers fs.path p
  longest : ∀ fs' ∈ mounts table 0, Covers fs'.path p → fs'.path.length ≤ fs.path.length

variable {m p : List Byte} {names : List (List Byte)}

theorem Canonical.eq_cons (h : Canonical p) :
    ∃ rest, p = slash :: rest ∧ rest.head? ≠ some slash := by
  obtain ⟨names, hok, rfl⟩ := h
  cases names with
  | nil => exact ⟨[], rfl, by simp⟩
  | cons name names =>
    have hname := hok name (by simp)
    obtain ⟨c, name, rfl⟩ := exists_cons_of_ne_nil hname.ne_nil
    refine ⟨c :: name ++ names.flatMap (slash :: ·), rfl, ?_⟩
    intro hc
    exact hname.slash (by simp [← Option.some.inj hc])

theorem Canonical.root_of_length_le (h : Canonical p) (hlen : p.length ≤ 1) : p = [slash] := by
  obtain ⟨rest, rfl, -⟩ := h.eq_cons
  rw [length_cons] at hlen
  obtain rfl : rest = [] := length_eq_zero_iff.mp (by omega)
  rfl

theorem Canonical.ne_nil (h : Canonical p) : p ≠ [] := by
  obtain ⟨rest, rfl, -⟩ := h.eq_cons
  exact cons_ne_nil slash rest

theorem Canonical.eq_root (h : Canonical (p ++ [slash])) : p = [] := by
  obtain ⟨names, hok, hrender⟩ := h
  have htrim := trimSlash_render hok
  rw [← hrender, trimSlash_concat] at htrim
  by_contra hne
  rw [if_pos ⟨hne, rfl⟩] at htrim
  simp at htrim

theorem resolve_of_nameOk {dir : List (List Byte)} (hok : ∀ name ∈ names, NameOk name) :
    resolve dir names = some (dir ++ names) := by
  induction names generalizing dir with
  | nil => simp [resolve]
  | cons name names ih =>
    have hname := hok name (by simp)
    rw [resolve, if_neg hname.ne_dot, if_neg hname.ne_dotdot, ih fun n hn => hok n (by simp [hn])]
    simp

theorem dfsNormalizePath_canonical {fresh : Nat → Byte} {directory : Option (List Byte)}
    (hp : Canonical p) (hzero : 0 ∉ p) : dfsNormalizePath fresh directory p = some (.path p) := by
  obtain ⟨rest, hcons, -⟩ := hp.eq_cons
  obtain ⟨names, hok, hrender⟩ := hp
  have hresolve : resolve [] (components p) = some names := by
    rw [hrender, components_render hok, resolve_of_nameOk hok, nil_append]
  subst hcons
  have hhead : (slash :: rest).head? = some slash := rfl
  rw [dfsNormalizePath.eq_def, if_pos hhead, (normalizeBuffer_absolute hzero hresolve).1, hrender]

theorem Covers.isPrefix (hp : Canonical p) (h : Covers m p) : m <+: p := by
  rcases h with rfl | rfl | h
  · exact prefix_refl m
  · obtain ⟨rest, rfl, -⟩ := hp.eq_cons
    exact ⟨rest, rfl⟩
  · exact (prefix_append m [slash]).trans h

theorem Covers.eq_root (hm : Canonical m) (h : Covers m [slash]) : m = [slash] := by
  have hp : Canonical [slash] := ⟨[], by simp, rfl⟩
  exact hm.root_of_length_le (h.isPrefix hp).length_le

/-- An entry that the loop does not skip, but for its length. -/
def Passes (m p : List Byte) : Prop :=
  strncmp m p m.length = 0 ∧ ¬(1 < m.length ∧ m.length < p.length ∧ p[m.length]? ≠ some slash)

theorem passes_iff_covers (hm : Canonical m) (hm0 : 0 ∉ m) (hp : Canonical p) (hp0 : 0 ∉ p) :
    Passes m p ↔ Covers m p := by
  rw [Passes, strncmp_eq_zero_iff hm0 hp0, take_length, ← prefix_iff_eq_take]
  constructor
  · rintro ⟨⟨rest, rfl⟩, hnext⟩
    by_cases hroot : m.length ≤ 1
    · exact .inr (.inl (hm.root_of_length_le hroot))
    · cases rest with
      | nil => exact .inl (by simp)
      | cons c rest =>
        have hc : c = slash := by
          by_contra hc
          exact hnext ⟨by omega, by simp, by simpa using hc⟩
        exact .inr (.inr ⟨rest, by simp [hc]⟩)
  · intro h
    refine ⟨h.isPrefix hp, ?_⟩
    rintro ⟨hlong, hlt, hnext⟩
    rcases h with rfl | rfl | ⟨rest, rfl⟩
    · exact Nat.lt_irrefl _ hlt
    · exact Nat.lt_irrefl _ hlong
    · exact hnext (by simp)

/-- What the loop returns: the longest of the entries that pass and of the one found before. -/
structure Finds (p : List Byte) (fs : Option (Mount φ)) (entries : List (Mount φ))
    (found : Option (Mount φ)) : Prop where
  origin : ∀ x ∈ found, fs = some x ∨ x ∈ entries ∧ Passes x.path p
  le : ∀ x ∈ found, ∀ y ∈ fs, y.path.length ≤ x.path.length
  longest : ∀ x ∈ found, ∀ y ∈ entries, Passes y.path p → y.path.length ≤ x.path.length
  of_none : found = none → fs = none ∧ ∀ y ∈ entries, ¬Passes y.path p

section Finds
variable {fs found : Option (Mount φ)} {entries : List (Mount φ)} {entry : Mount φ}

theorem Finds.skip (h : Finds p fs entries found)
    (hskip : Passes entry.path p → ∃ y ∈ fs, entry.path.length < y.path.length) :
    Finds p fs (entry :: entries) found where
  origin x hx := (h.origin x hx).imp_right (.imp_left (.tail _))
  le := h.le
  longest x hx y hy hpass := by
    rcases mem_cons.mp hy with rfl | hy
    · obtain ⟨z, hz, hlt⟩ := hskip hpass
      exact hlt.le.trans (h.le x hx z hz)
    · exact h.longest x hx y hy hpass
  of_none hnone := by
    obtain ⟨hfs, hno⟩ := h.of_none hnone
    refine ⟨hfs, fun y hy hpass => ?_⟩
    rcases mem_cons.mp hy with rfl | hy
    · obtain ⟨z, hz, -⟩ := hskip hpass
      rw [hfs] at hz
      cases hz
    · exact hno y hy hpass

theorem Finds.take (h : Finds p (some entry) entries found) (hpass : Passes entry.path p)
    (hle : ∀ y ∈ fs, y.path.length ≤ entry.path.length) : Finds p fs (entry :: entries) found where
  origin x hx := by
    rcases h.origin x hx with horigin | ⟨hmem, hpass⟩
    · cases horigin
      exact .inr ⟨.head _, hpass⟩
    · exact .inr ⟨.tail _ hmem, hpass⟩
  le x hx y hy := (hle y hy).trans (h.le x hx entry rfl)
  longest x hx y hy hpass := by
    rcases mem_cons.mp hy with rfl | hy
    · exact h.le x hx y rfl
    · exact h.longest x hx y hy hpass
  of_none hnone := by cases (h.of_none hnone).1

end Finds

theorem lookupLoop_finds {rest : List (Filesystem φ)} {index prefixlen : Nat}
    {fs : Option (Mount φ)} (hfs : fs.elim 0 (·.path.length) = prefixlen) :
    Finds p fs (mounts rest index) (lookupLoop p rest index fs prefixlen) := by
  induction rest generalizing index fs prefixlen with
  | nil =>
    refine ⟨fun x hx => .inl hx, fun x hx y hy => ?_, by simp [mounts],
      fun h => ⟨h, by simp [mounts]⟩⟩
    exact (congrArg (·.path.length) (Option.mem_unique hy hx)).le
  | cons entry rest ih =>
    obtain ⟨path, ops⟩ := entry
    cases path with
    | none => exact ih hfs
    | some m =>
    cases ops with
    | none => exact ih hfs
    | some ops =>
      rw [lookupLoop, mounts]
      split
      · rename_i hskip
        refine (ih hfs).skip fun hpass => ?_
        have hlt := hskip.resolve_right (not_not.mpr hpass.1)
        rw [← hfs] at hlt
        cases fs with
        | none => exact absurd hlt (Nat.not_lt_zero _)
        | some y => exact ⟨y, rfl, hlt⟩
      · rename_i hkeep
        rw [not_or, Nat.not_lt, not_not, ← hfs] at hkeep
        split
        · rename_i hnext
          exact (ih hfs).skip fun hpass => absurd hnext hpass.2
        · rename_i hnext
          refine (ih rfl).take ⟨hkeep.2, hnext⟩ ?_
          rintro y rfl
          exact hkeep.1

theorem lookup_finds (table : List (Filesystem φ)) (p : List Byte) :
    Finds p none (mounts table 0) (dfsFilesystemLookup table p) :=
  lookupLoop_finds rfl

section Lookup
variable {table : List (Filesystem φ)} {fs : Mount φ}
  (hmounts : ∀ fs ∈ mounts table 0, Canonical fs.path ∧ 0 ∉ fs.path) (hp : Canonical p)
  (hp0 : 0 ∉ p)

include hmounts hp hp0

theorem passes_iff (hfs : fs ∈ mounts table 0) : Passes fs.path p ↔ Covers fs.path p :=
  passes_iff_covers (hmounts fs hfs).1 (hmounts fs hfs).2 hp hp0

theorem isRoute_of_lookup (h : dfsFilesystemLookup table p = some fs) : IsRoute table p fs := by
  have hfinds := lookup_finds table p
  obtain ⟨hmem, hpass⟩ := (hfinds.origin fs h).resolve_left (by simp)
  refine ⟨hmem, (passes_iff hmounts hp hp0 hmem).mp hpass, fun fs' hfs' hcovers => ?_⟩
  exact hfinds.longest fs h fs' hfs' ((passes_iff hmounts hp hp0 hfs').mpr hcovers)

theorem lookup_eq_none_iff :
    dfsFilesystemLookup table p = none ↔ ∀ fs ∈ mounts table 0, ¬Covers fs.path p := by
  constructor
  · intro h fs hfs hcovers
    exact ((lookup_finds table p).of_none h).2 fs hfs ((passes_iff hmounts hp hp0 hfs).mpr hcovers)
  · intro hno
    rw [Option.eq_none_iff_forall_ne_some]
    intro fs h
    have hroute := isRoute_of_lookup hmounts hp hp0 h
    exact hno fs hroute.mem hroute.covers

/-- Two paths that cover `p` and are as long as each other are the same, so that there is only one
route. -/
theorem lookup_eq_some_iff (hdistinct : ((mounts table 0).map Mount.path).Nodup) :
    dfsFilesystemLookup table p = some fs ↔ IsRoute table p fs := by
  refine ⟨isRoute_of_lookup hmounts hp hp0, fun hroute => ?_⟩
  cases hlookup : dfsFilesystemLookup table p with
  | none =>
    exact absurd hroute.covers ((lookup_eq_none_iff hmounts hp hp0).mp hlookup fs hroute.mem)
  | some fs' =>
    have hroute' := isRoute_of_lookup hmounts hp hp0 hlookup
    have hlen := Nat.le_antisymm (hroute.longest fs' hroute'.mem hroute'.covers)
      (hroute'.longest fs hroute.mem hroute.covers)
    have hpath : fs'.path = fs.path :=
      (prefix_of_prefix_length_le (hroute'.covers.isPrefix hp) (hroute.covers.isPrefix hp)
        hlen.le).eq_of_length hlen
    rw [inj_on_of_nodup_map hdistinct hroute'.mem hroute.mem hpath]

end Lookup

structure IsSubPath (m p q : List Byte) : Prop where
  head : q.head? = some slash
  split : p = m ∧ q = [slash] ∨ m = [slash] ∧ q = p ∨ p = m ++ q

theorem isSubPath_dfsSubdir (hm : Canonical m) (hp : Canonical p) (h : Covers m p) :
    IsSubPath m p ((dfsSubdir m p).getD [slash]) := by
  rw [dfsSubdir]
  split
  · rename_i hlen
    exact ⟨rfl, .inl ⟨((h.isPrefix hp).eq_of_length hlen).symm, rfl⟩⟩
  · rename_i hlen
    rcases h with rfl | rfl | ⟨rest, rfl⟩
    · exact absurd rfl hlen
    · obtain ⟨rest, rfl, hrest⟩ := hp.eq_cons
      have hnext : (slash :: rest)[[slash].length]? ≠ some slash := by
        rwa [length_singleton, List.getElem?_cons_succ, ← List.head?_eq_getElem?]
      rw [if_pos ⟨hnext, by simp⟩]
      exact ⟨rfl, .inr (.inl ⟨rfl, rfl⟩)⟩
    · have hnext : (m ++ [slash] ++ rest)[m.length]? = some slash := by simp
      rw [if_neg fun hne => hne.1 hnext]
      refine ⟨by simp, .inr (.inr (by simp))⟩

theorem dfsSubdir_root_iff (hm : Canonical m) (hp : Canonical p) (h : Covers m p) :
    (dfsSubdir m p).getD [slash] = [slash] ↔ m = p := by
  constructor
  · intro hroot
    obtain ⟨-, hsplit⟩ := isSubPath_dfsSubdir hm hp h
    rw [hroot] at hsplit
    rcases hsplit with ⟨rfl, -⟩ | ⟨rfl, rfl⟩ | rfl
    · rfl
    · rfl
    · exact absurd hp.eq_root hm.ne_nil
  · rintro rfl
    rw [dfsSubdir, if_pos rfl]
    rfl

/-- A canonical path is routed to the file system with the longest mount path that covers it, and
without `DFS_FS_FLAG_FULLPATH` the functions of the file system get the path below it. -/
theorem canonical_path_is_routed {table : List (Filesystem φ)} {p : List Byte}
    (hmounts : ∀ fs ∈ mounts table 0, Canonical fs.path ∧ 0 ∉ fs.path)
    (hdistinct : ((mounts table 0).map Mount.path).Nodup) (hp : Canonical p) (hp0 : 0 ∉ p) :
    (∀ fs, dfsFilesystemLookup table p = some fs ↔ IsRoute table p fs) ∧
    (dfsFilesystemLookup table p = none ↔ ∀ fs ∈ mounts table 0, ¬Covers fs.path p) ∧
    (∀ fresh, dfsNormalizePath fresh none p = some (.path p)) ∧
    ∀ fs, dfsFilesystemLookup table p = some fs → fs.fullpath = false → ∃ q, IsSubPath fs.path p q ∧
        (∀ ops flags fd, dfsFileOpen table ops (some p) true flags fd =
          openRoutine ops flags ⟨ftRegular, some q, some fs.index, some fs.ops.fops, flags, 0, 0⟩) ∧
        (∀ unlink files p', fs.ops.unlink = some unlink → fdIsOpen table files p' = false →
          dfsFileUnlink table files (some p) p' = unlink q) ∧
        ∀ stat, fs.ops.stat = some stat → dfsFileStat table (some p) =
          if q = [slash] then (0, some rootStat) else ((stat q).1, some (stat q).2) := by
  refine ⟨fun fs => lookup_eq_some_iff hmounts hp hp0 hdistinct, lookup_eq_none_iff hmounts hp hp0,
    fun fresh => dfsNormalizePath_canonical hp hp0, fun fs hlookup hflag => ?_⟩
  have hroute := isRoute_of_lookup hmounts hp hp0 hlookup
  have hm := (hmounts fs hroute.mem).1
  refine ⟨_, isSubPath_dfsSubdir hm hp hroute.covers, fun ops flags fd => ?_,
    fun unlink files p' hunlink hopen => ?_, fun stat hstat => ?_⟩
  · rw [dfsFileOpen, hlookup]
    simp only [hflag]
    rfl
  · rw [dfsFileUnlink, dfsFileUnlinkCall, hlookup]
    simp only [hopen, hunlink, hflag]
    rfl
  · rw [dfsFileStat, hlookup]
    by_cases heq : fs.path = p
    · have hsubdir : dfsSubdir fs.path p = none := if_pos (congrArg List.length heq)
      simp [hsubdir]
    · have hroot := mt (dfsSubdir_root_iff hm hp hroute.covers).mp heq
      obtain ⟨subdir, hsubdir⟩ : ∃ subdir, dfsSubdir fs.path p = some subdir := by
        by_contra hnone
        rw [← Option.ne_none_iff_exists', not_not] at hnone
        exact hroot (by rw [hnone]; rfl)
      have hp' : p ≠ [slash] := fun h => heq ((Covers.eq_root hm (h ▸ hroute.covers)).trans h.symm)
      rw [if_neg hroot]
      simp only [if_neg hp', hsubdir, hstat, hflag, Option.getD_some]
      rfl

/-- File systems at `/` and `/a`. -/
def twoMounts : List (Filesystem Unit) :=
  [⟨some [slash], some ⟨0, (), none, none⟩⟩, ⟨some [slash, 'a'.byte], some ⟨0, (), none, none⟩⟩]

/-- `/a/b` is `/b` in the file system at `/a`, though `/` covers it as well. -/
theorem canonical_path_is_routed_twoMounts :
    ∃ q, IsSubPath [slash, 'a'.byte] [slash, 'a'.byte, slash, 'b'.byte] q ∧ ∀ ops flags fd,
        dfsFileOpen twoMounts ops (some [slash, 'a'.byte, slash, 'b'.byte]) true flags fd =
          openRoutine ops flags ⟨ftRegular, some q, some 1, some (), flags, 0, 0⟩ := by
  have ha : NameOk ['a'.byte] := ⟨by decide, by decide, by decide, by decide⟩
  have hb : NameOk ['b'.byte] := ⟨by decide, by decide, by decide, by decide⟩
  have hp : Canonical [slash, 'a'.byte, slash, 'b'.byte] :=
    ⟨[['a'.byte], ['b'.byte]], by simp [ha, hb], rfl⟩
  have hmounts : ∀ fs ∈ mounts twoMounts 0, Canonical fs.path ∧ 0 ∉ fs.path := by
    simp only [twoMounts, mounts, forall_mem_cons]
    exact ⟨⟨⟨[], by simp, rfl⟩, by decide⟩, ⟨⟨[['a'.byte]], by simp [ha], rfl⟩, by decide⟩, by simp⟩
  obtain ⟨-, -, -, hsub⟩ := canonical_path_is_routed hmounts (by decide) hp (by decide)
  obtain ⟨q, hq, hopen, -⟩ := hsub ⟨1, [slash, 'a'.byte], ⟨0, (), none, none⟩⟩ rfl rfl
  exact ⟨q, hq, hopen⟩

end RtThread
