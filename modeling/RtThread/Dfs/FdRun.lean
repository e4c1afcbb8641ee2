import RtThread.Dfs.Posix

/-!
# Descriptors along runs

Between calls, the entries of the descriptor table are the descriptors that were returned and not
closed yet, each with one reference. A call that fails to make a descriptor leaves the entries as
they were.
-/

namespace RtThread
open Function
open PosixCall (newFd closedFd openFds openFds_append)

namespace FdTable
variable {π φ : Type*} [DecidableEq π] {t t' : FdTable π φ} {i n : Nat} {d : π}

/-- The reference that `fd_get` has taken goes, and what has become of the file stays. -/
theorem fdPut_held (hone : (t.mem d).refCount = 1) (g : DfsFd φ → DfsFile φ) :
    (t.modify d fun x => { x with refCount := x.refCount + 1, file := g x }).fdPut d =
      t.modify d fun x => { x with file := g x } := by
  rw [fdPut_of_two (by simp [hone]), modify_modify]
  simp [modify, hone]

@[elab_as_elim]
theorem Ok.fdGet_elim {motive : Option π × FdTable π φ → Prop} (h : t.Ok) (fd : Int)
    (none : motive (none, t))
    (some : ∀ (n : Nat) (d : π), fd = n + dfsFdOffset → t.slot n = some d →
      motive (some d, t.modify d fun x => { x with refCount := x.refCount + 1 })) :
    motive (t.fdGet fd) := by
  rcases fdGet_cases t fd with ⟨hget, -⟩ | ⟨n, d, rfl, hslot⟩
  · rw [hget]
    exact none
  · rw [fdGet_of_slot hslot (h.live hslot).1]
    exact some n d rfl hslot

/-- Calls on a descriptor change files only. -/
def FilesOnly (t t' : FdTable π φ) : Prop :=
  t' = t ∨ ∃ (d : π) (g : DfsFd φ → DfsFile φ), t' = t.modify d fun x => { x with file := g x }

theorem Ok.files (h : t.Ok) (hfiles : FilesOnly t t') : t'.slot = t.slot ∧ t'.Ok := by
  rcases hfiles with rfl | ⟨d, g, rfl⟩
  · exact ⟨rfl, h⟩
  · refine ⟨rfl, h.le, fun {i e} hslot => ?_, h.inj⟩
    rcases eq_or_ne e d with rfl | hne
    · simpa using h.live hslot
    · rw [mem_modify_of_ne hne]
      exact h.live hslot

/-- `t'` is `t` without the descriptor at an index. -/
structure IsClosed (t t' : FdTable π φ) (n : Nat) (d : π) : Prop where
  slot_eq : t'.slot = update t.slot n none
  le : t'.maxfd ≤ dfsFdMax
  mem_of_ne : ∀ e, e ≠ d → t'.mem e = t.mem e

theorem isClosed_put_put (hone : (t.mem d).refCount = 1) (hslot : t.slot n = some d)
    (hinj : ∀ j, t.slot j = some d → j = n) (hle : t.maxfd ≤ dfsFdMax) (g : DfsFd φ → DfsFile φ) :
    IsClosed t (((t.modify d fun x =>
      { x with refCount := x.refCount + 1, file := g x }).fdPut d).fdPut d) n d := by
  rw [fdPut_held hone]
  obtain ⟨hslot', hmax, hmem⟩ := fdPut_of_one (t := t.modify d fun x => { x with file := g x })
    (by simpa using hone) hslot hinj
  refine ⟨hslot', hmax.trans_le hle, fun e he => ?_⟩
  rw [hmem e he, mem_modify_of_ne he]

omit [DecidableEq π] in
theorem Ok.isClosed (h : t.Ok) (hslot : t.slot n = some d) (hclosed : IsClosed t t' n d) :
    t'.Ok := by
  have hold : ∀ {i e}, t'.slot i = some e → i ≠ n ∧ t.slot i = some e := by
    intro i e hi
    rw [hclosed.slot_eq] at hi
    rcases eq_or_ne i n with rfl | hne
    · simp at hi
    · exact ⟨hne, by rwa [update_of_ne hne] at hi⟩
  refine ⟨hclosed.le, fun {i e} hi => ?_, fun {i j e} hi hj => h.inj (hold hi).2 (hold hj).2⟩
  obtain ⟨hne, hi⟩ := hold hi
  rw [hclosed.mem_of_ne e fun he => hne (h.inj hi (he ▸ hslot))]
  exact h.live hi

omit [DecidableEq π] in
theorem Ok.sameEntries (h : t.Ok) (hsame : SameEntries t t') : t'.Ok := by
  refine ⟨hsame.le, fun {i e} hi => ?_, fun {i j e} hi hj => ?_⟩
  · rw [hsame.slot_eq] at hi
    rw [hsame.mem_eq i e hi]
    exact h.live hi
  · rw [hsame.slot_eq] at hi hj
    exact h.inj hi hj

omit [DecidableEq π] in
theorem IsNew.slot_self (h : IsNew t t' n d) : t'.slot n = some d := by
  rw [h.slot_eq, update_self]

omit [DecidableEq π] in
theorem IsNew.slot_inj (h : IsNew t t' n d) {j : Nat} (hj : t'.slot j = some d) : j = n := by
  by_contra hne
  rw [h.slot_eq, update_of_ne hne] at hj
  exact h.fresh j hj

omit [DecidableEq π] in
theorem IsNew.ok (h : t.Ok) (hnew : IsNew t t' n d) : t'.Ok := by
  have hold : ∀ {i e}, t'.slot i = some e → e ≠ d → t.slot i = some e := by
    intro i e hi hne
    rcases eq_or_ne i n with rfl | hin
    · exact absurd (Option.some.inj (hi.symm.trans hnew.slot_self)) hne
    · rwa [hnew.slot_eq, update_of_ne hin] at hi
  refine ⟨hnew.le, fun {i e} hi => ?_, fun {i j e} hi hj => ?_⟩
  · rcases eq_or_ne e d with rfl | hne
    · exact hnew.mem_self
    · rw [hnew.mem_of_ne e hne]
      exact h.live (hold hi hne)
  · rcases eq_or_ne e d with rfl | hne
    · rw [hnew.slot_inj hi, hnew.slot_inj hj]
    · exact h.inj (hold hi hne) (hold hj hne)

theorem IsNew.fdGet (h : IsNew t t' n d) : t'.fdGet (n + dfsFdOffset) =
      (some d, t'.modify d fun x => { x with refCount := x.refCount + 1 }) :=
  fdGet_of_slot h.slot_self h.mem_self.1

theorem IsNew.put (h : IsNew t t' n d) (g : DfsFd φ → DfsFile φ) : IsNew t ((t'.modify d fun x =>
      { x with refCount := x.refCount + 1, file := g x }).fdPut d) n d := by
  rw [fdPut_held h.mem_self.2]
  refine { h with mem_self := by simpa using h.mem_self, mem_of_ne := fun e he => ?_ }
  rw [mem_modify_of_ne he, h.mem_of_ne e he]

theorem IsNew.put_put (h : IsNew t t' n d) (g : DfsFd φ → DfsFile φ) :
    SameEntries t (((t'.modify d fun x =>
      { x with refCount := x.refCount + 1, file := g x }).fdPut d).fdPut d) := by
  have hclosed := isClosed_put_put h.mem_self.2 h.slot_self (fun j hj => h.slot_inj hj) h.le g
  refine ⟨?_, hclosed.le, fun i e hi => ?_⟩
  · rw [hclosed.slot_eq, h.slot_eq, update_idem, ← h.slot_eq_none, update_eq_self]
  · have hne : e ≠ d := fun he => h.fresh i (he ▸ hi)
    rw [hclosed.mem_of_ne e hne, h.mem_of_ne e hne]

/-- What a call can do to the table: a descriptor is new, or closed, or the entries stay. -/
inductive Effect (t : FdTable π φ) (e : PosixCall π φ × PosixResult) (t' : FdTable π φ) : Prop
  | opens (n : Nat) (d : π) (hnew : newFd e = some (n + dfsFdOffset)) (hclosed : closedFd e = none)
      (his : IsNew t t' n d)
  | closes (n : Nat) (d : π) (hnew : newFd e = none) (hclosed : closedFd e = some (n + dfsFdOffset))
      (hmakes : e.1.makesFd = false) (hslot : t.slot n = some d) (his : IsClosed t t' n d)
  | same (hnew : newFd e = none) (hclosed : closedFd e = none) (his : SameEntries t t')
  | files (hnew : newFd e = none) (hclosed : closedFd e = none) (hmakes : e.1.makesFd = false)
      (his : FilesOnly t t')

omit [DecidableEq π] in
theorem dfsFileClose_slt {env : PosixEnv π φ}
    (hclose : ∀ f, ∀ op ∈ (env.ops f).close, ∀ file, (op file).1.slt 0 = false) (file : DfsFile φ) :
    (dfsFileClose env.ops file).1.slt 0 = false := by
  have hop : ∀ op ∈ (file.ops env.ops).close, ∀ file, (op file).1.slt 0 = false := by
    rw [DfsFile.ops]
    split
    · exact hclose _
    · simp
  rw [dfsFileClose]
  cases hsome : (file.ops env.ops).close with
  | none => rfl
  | some op =>
    have hresult := hop op hsome file
    simp only [hresult, Bool.false_eq_true, if_false]

theorem Ok.effect (h : t.Ok) {c : PosixCall π φ} (henabled : t.Enabled c) :
    Effect t (c, (t.apply c).1) (t.apply c).2 := by
  obtain ⟨env, op⟩ := c
  cases op with
  | openFile _ _ | mkdir _ | opendir _ =>
    simp only [apply, openFile, mkdir, opendir]
    rcases fdNew_cases h henabled.fresh with ⟨t', hfd, hsame⟩ | ⟨n, d, t', hfd, hnew⟩
    · rw [hfd]
      exact .same rfl rfl hsame
    · have hpos : ¬(n : Int) + dfsFdOffset < 0 := by rw [dfsFdOffset]; omega
      have hne : ¬(n : Int) + dfsFdOffset = -1 := by omega
      rw [hfd]
      simp only [if_neg hpos, if_neg hne, hnew.fdGet, onFile, modify_modify]
      repeat' split
      all_goals first
        | exact .same rfl rfl (hnew.put_put _)
        | exact .opens n d (by simp [newFd, hpos]) rfl (hnew.put _)
  | close _ | closedir _ =>
    simp only [apply, close, closedir]
    refine h.fdGet_elim _ (.files rfl rfl rfl (.inl rfl)) fun n d hfd hslot => ?_
    simp only [onFile, modify_modify, dfsFileClose_slt henabled.close, Bool.false_eq_true, if_false]
    exact .closes n d rfl (congrArg some hfd) rfl hslot
      (isClosed_put_put (h.live hslot).2 hslot (h.slot_inj hslot) h.le _)
  -- the other calls take the descriptor, work on its file and put it back
  | _ =>
    refine .files rfl rfl rfl ?_
    simp only [apply, read, write, lseek, fstat, fsync, fcntl, ftruncate, readdir, telldir, seekdir,
      rewinddir]
    refine h.fdGet_elim _ (.inl rfl) fun n d _ hslot => ?_
    simp only [onFile, modify_modify]
    repeat' split
    all_goals exact .inr ⟨_, _, fdPut_held (h.live hslot).2 _⟩

/-- The table after `dfs_init`. -/
def Start (t : FdTable π φ) : Prop := t.fds = []

/-- What is returned along a run, and the entries that it leads to. -/
structure RunOk (tr : List (PosixCall π φ × PosixResult)) (t : FdTable π φ) : Prop where
  ok : t.Ok
  fds : ∀ fd, fd ∈ openFds tr ↔ ∃ i d, fd = (i : Nat) + dfsFdOffset ∧ t.slot i = some d

variable {tr : List (PosixCall π φ × PosixResult)} {e : PosixCall π φ × PosixResult}

omit [DecidableEq π] in
theorem mem_openFds_append {fd : Int} :
    fd ∈ openFds (tr ++ [e]) ↔ newFd e = some fd ∨ fd ∈ openFds tr ∧ closedFd e ≠ some fd := by
  rw [openFds_append, List.mem_append, Option.mem_toList, List.mem_filter, decide_eq_true_eq,
    ne_comm]

theorem RunOk.effect (h : RunOk tr t) (heffect : Effect t e t') : RunOk (tr ++ [e]) t' := by
  cases heffect with
  | opens n d hnew hclosed his =>
    refine ⟨IsNew.ok h.ok his, fun fd => ?_⟩
    rw [mem_openFds_append, hnew, hclosed, h.fds, his.slot_eq]
    constructor
    · rintro (hfd | ⟨⟨i, e, hfd, hslot⟩, -⟩)
      · exact ⟨n, d, (Option.some.inj hfd).symm, update_self ..⟩
      · have hne : i ≠ n := by
          rintro rfl
          rw [his.slot_eq_none] at hslot
          cases hslot
        exact ⟨i, e, hfd, by rwa [update_of_ne hne]⟩
    · rintro ⟨i, e, hfd, hslot⟩
      rcases eq_or_ne i n with rfl | hne
      · exact .inl (congrArg some hfd.symm)
      · rw [update_of_ne hne] at hslot
        exact .inr ⟨⟨i, e, hfd, hslot⟩, by simp⟩
  | closes n d hnew hclosed hmakes hslot his =>
    refine ⟨h.ok.isClosed hslot his, fun fd => ?_⟩
    rw [mem_openFds_append, hnew, hclosed, h.fds, his.slot_eq]
    constructor
    · rintro (hfd | ⟨⟨i, e, hfd, hi⟩, hother⟩)
      · cases hfd
      · have hne : i ≠ n := fun hin => hother (by rw [hfd, hin])
        exact ⟨i, e, hfd, by rwa [update_of_ne hne]⟩
    · rintro ⟨i, e, hfd, hi⟩
      have hne : i ≠ n := by
        rintro rfl
        simp at hi
      rw [update_of_ne hne] at hi
      exact .inr ⟨⟨i, e, hfd, hi⟩, fun heq => hne (by have := Option.some.inj heq; omega)⟩
  | same hnew hclosed his =>
    refine ⟨h.ok.sameEntries his, fun fd => ?_⟩
    rw [mem_openFds_append, hnew, hclosed, h.fds, his.slot_eq]
    simp
  | files hnew hclosed hmakes his =>
    obtain ⟨hslot, hok⟩ := h.ok.files his
    refine ⟨hok, fun fd => ?_⟩
    rw [mem_openFds_append, hnew, hclosed, h.fds, hslot]
    simp

theorem RunOk.of_run {t0 : FdTable π φ}
    (hstart : Start t0) (hrun : Run Step t0 tr t) : RunOk tr t := by
  have hnone : ∀ i, t0.slot i = none := fun i => by rw [slot, hstart]; rfl
  refine hrun.invariant ⟨⟨?_, ?_, ?_⟩, fun fd => ?_⟩ fun tr s e s' h hstep => ?_
  · rw [maxfd, show t0.fds = [] from hstart]
    exact Nat.zero_le _
  · simp [hnone]
  · simp [hnone]
  · simp [openFds, hnone]
  · obtain ⟨henabled, happly⟩ := hstep
    have heffect := h.ok.effect henabled
    have happly' : s.apply e.1 = (e.2, s') := happly
    rw [happly'] at heffect
    exact h.effect heffect

/-- Between calls, every entry of the table is valid and has one reference, and the entries are the
descriptors that were returned and not closed. The next call returns the first free index, or leaves
the entries as they are. -/
theorem fd_table_of_run {t₀ : FdTable π φ} {tr : List (PosixCall π φ × PosixResult)}
    (hstart : Start t₀) (hrun : Run Step t₀ tr t) :
    (∀ i d, t.slot i = some d → (t.mem d).magic = dfsFdMagic ∧ (t.mem d).refCount = 1) ∧
    (∀ fd, fd ∈ openFds tr ↔ ∃ i d, fd = (i : Nat) + dfsFdOffset ∧ t.slot i = some d) ∧
    ∀ e t', Step t e t' → (∀ fd, newFd e = some fd → fd < dfsFdMax + dfsFdOffset ∧
        ∃ n : Nat, fd = n + dfsFdOffset ∧ t.slot n = none ∧ ∀ i < n, t.slot i ≠ none) ∧
      (e.1.makesFd = true → newFd e = none →
        t'.slot = t.slot ∧ ∀ i d, t.slot i = some d → t'.mem d = t.mem d) := by
  have h := RunOk.of_run hstart hrun
  refine ⟨fun i d hslot => h.ok.live hslot, h.fds, fun e t' hstep => ?_⟩
  have heffect : Effect t e t' := by
    have happly : t.apply e.1 = (e.2, t') := hstep.2
    have heffect := h.ok.effect hstep.1
    rwa [happly] at heffect
  cases heffect with
  | opens n d hnew hclosed his =>
    refine ⟨fun fd hfd => ?_, fun _ hnone => ?_⟩
    · cases hnew.symm.trans hfd
      have hlt := his.lt
      exact ⟨by omega, n, rfl, his.slot_eq_none, his.below⟩
    · rw [hnew] at hnone
      cases hnone
  | closes n d hnew hclosed hmakes hslot his => simp [hnew, hmakes]
  | same hnew hclosed his => exact ⟨by simp [hnew], fun _ _ => ⟨his.slot_eq, his.mem_eq⟩⟩
  | files hnew hclosed hmakes his => simp [hnew, hmakes]

/-- A call with enough memory, of which `rt_calloc` returns `d`, and with a file system at `/` whose
files open. -/
def rootCall (d : Nat) (op : PosixOp) : PosixCall Nat Unit where
  env :=
    { table := [⟨some [slash], some ⟨0, (), none, none⟩⟩]
      ops := fun _ => ⟨some fun file => (0, file), none, none, none, none, none, none, none⟩
      realloc := true
      calloc := some d
      strdup := true
      malloc := true }
  op

def nextRoot (t : FdTable Nat Unit) (c : Nat × PosixOp) :
    Option ((PosixCall Nat Unit × PosixResult) × FdTable Nat Unit) :=
  if some c.1 ∈ t.fds then none
  else some ((rootCall c.1 c.2, (t.apply (rootCall c.1 c.2)).1), (t.apply (rootCall c.1 c.2)).2)

theorem step_of_nextRoot {t t' : FdTable Nat Unit} {c : Nat × PosixOp}
    {e : PosixCall Nat Unit × PosixResult} (h : nextRoot t c = some (e, t')) : Step t e t' := by
  obtain ⟨hnew, h⟩ := Option.ite_none_left_eq_some.mp h
  cases h
  refine ⟨⟨?_, by simp [rootCall]⟩, rfl⟩
  rintro d ⟨⟩ i hslot
  exact hnew (List.mem_of_getElem? (Option.join_eq_some_iff.mp hslot))

/-- Two files are opened, the first one is closed, and a third one gets its descriptor. -/
theorem fd_table_of_run_reopen : ∃ tr t, Run Step (⟨[], fun _ => .zero⟩ : FdTable Nat Unit) tr t ∧
    tr.length = 4 ∧ 3 ∈ openFds tr ∧ 4 ∈ openFds tr ∧ (t.mem 9).refCount = 1 := by
  have hrun := @Run.of_exec _ _ Step _ nextRoot step_of_nextRoot ⟨[], fun _ => .zero⟩
    [(7, .openFile (some [slash]) 0), (8, .openFile (some [slash]) 0), (0, .close 3),
      (9, .openFile (some [slash]) 0)]
  have hstart : Start (⟨[], fun _ => .zero⟩ : FdTable Nat Unit) := rfl
  obtain ⟨hlive, hfds, -⟩ := fd_table_of_run hstart hrun
  refine ⟨_, _, hrun, by decide +kernel, (hfds 3).mpr ⟨0, 9, rfl, ?_⟩, (hfds 4).mpr ⟨1, 8, rfl, ?_⟩,
    (hlive 0 9 ?_).2⟩ <;> decide +kernel

end FdTable
end RtThread
