import RtThread.Dfs.FdTable
import RtThread.Lib.Run

/-!
# Files and directories by descriptor

The calls of `dfs_posix.c` on the descriptor table, one after the other. Every call takes references
with `fd_get` and gives them back with `fd_put`. What the file systems do, and whether there is
memory, is arbitrary; the close function of a file system does not fail.
-/

namespace RtThread

/-- `DIR` (`dfs_posix.h:24-30`). `buf` is the memory from `buf` on. -/
structure Dir where
  fd : Int
  buf : Nat → Byte
  num : BitVec 32
  cur : BitVec 32

/-- The field `d_reclen` of the `struct dirent` at an offset of `buf` (`dfs.h:78-84`). -/
def dReclen (buf : Nat → Byte) (cur : BitVec 32) : BitVec 32 :=
  (buf (cur.toNat + 3) ++ buf (cur.toNat + 2)).setWidth 32

/-- The step over the current entry in `readdir` (`dfs_posix.c:692-697`). -/
def Dir.skipEntry (d : Dir) : Dir :=
  if d.num ≠ 0 then { d with cur := d.cur + dReclen d.buf d.cur } else d

inductive Whence
  | seekSet
  | seekCur
  | seekEnd
  | other

/-- What a call meets: the mount table, the functions of the file systems, and memory. `strdup` is
about the path of a descriptor, and `malloc` about the `DIR`. -/
structure PosixEnv (π φ : Type*) where
  table : List (Filesystem φ)
  ops : φ → FileOps φ
  realloc : Bool
  calloc : Option π
  strdup : Bool
  malloc : Bool

/-- What a call returns, with `errno` if it is set. -/
inductive PosixResult
  | int (result : Int) (errno : Option (BitVec 32))
  | stat (result : Int) (buf : Option Stat) (errno : Option (BitVec 32))
  | dir (t : Option Dir) (errno : Option (BitVec 32))
  /-- the offset of the entry in `buf`, and the stream -/
  | dirent (entry : Option (BitVec 32)) (d : Dir) (errno : Option (BitVec 32))
  | void (d : Dir) (errno : Option (BitVec 32))

namespace FdTable
variable {π φ : Type*} [DecidableEq π] (env : PosixEnv π φ) (t : FdTable π φ)
variable (d : Dir) (fullpath : Option (List Byte)) (fd : Int) (len offset : BitVec 32)

/-- `open` (`:31-62`). `fullpath` is what `dfs_normalize_path` returns for the path. -/
def openFile (flags : BitVec 32) : PosixResult × FdTable π φ :=
  let (fd, t) := t.fdNew env.realloc env.calloc
  if fd < 0 then (.int (-1) (some (-enomem)), t)
  else
    match t.fdGet fd with
    | (none, t) => (.int (-1) (some (-einval)), t)
    | (some d, t) =>
      let (result, t) := t.onFile d (dfsFileOpen env.table env.ops fullpath env.strdup flags)
      if result.slt 0 then (.int (-1) (some result), (t.fdPut d).fdPut d)
      else (.int fd none, t.fdPut d)

/-- `close` (`:73-99`). -/
def close : PosixResult × FdTable π φ :=
  match t.fdGet fd with
  | (none, t) => (.int (-1) (some (-ebadf)), t)
  | (some d, t) =>
    let (result, t) := t.onFile d (dfsFileClose env.ops)
    let t := t.fdPut d
    if result.slt 0 then (.int (-1) (some result), t) else (.int 0 none, t.fdPut d)

/-- `read` (`:116-144`). -/
def read : PosixResult × FdTable π φ :=
  match t.fdGet fd with
  | (none, t) => (.int (-1) (some (-ebadf)), t)
  | (some d, t) =>
    let (result, t) := t.onFile d (dfsFileRead env.ops len)
    if result.slt 0 then (.int (-1) (some result), t.fdPut d)
    else (.int result.toInt none, t.fdPut d)

/-- `write` (`:160-188`). -/
def write : PosixResult × FdTable π φ :=
  match t.fdGet fd with
  | (none, t) => (.int (-1) (some (-ebadf)), t)
  | (some d, t) =>
    let (result, t) := t.onFile d (dfsFileWrite env.ops len)
    if result.slt 0 then (.int (-1) (some result), t.fdPut d)
    else (.int result.toInt none, t.fdPut d)

/-- The offset from the start of the file (`:214-232`). -/
def seekOffset (file : DfsFile φ) (offset : BitVec 32) : Whence → Option (BitVec 32)
  | .seekSet => some offset
  | .seekCur => some (offset + file.pos)
  | .seekEnd => some (offset + file.size)
  | .other => none

/-- `lseek` (`:201-254`). -/
def lseek (whence : Whence) : PosixResult × FdTable π φ :=
  match t.fdGet fd with
  | (none, t) => (.int (-1) (some (-ebadf)), t)
  | (some d, t) =>
    match seekOffset (t.mem d).file offset whence with
    | none => (.int (-1) (some (-einval)), t.fdPut d)
    | some offset =>
      if offset.slt 0 then (.int (-1) (some (-einval)), t.fdPut d)
      else
        let (result, t) := t.onFile d (dfsFileLseek env.ops offset)
        if result.slt 0 then (.int (-1) (some result), t.fdPut d)
        else (.int offset.toInt none, t.fdPut d)

/-- `fstat` (`:341-371`). A regular file has the mode `S_IFREG` with read and write
permissions. -/
def fstat : PosixResult × FdTable π φ :=
  match t.fdGet fd with
  | (none, t) => (.stat (-1) none (some (-ebadf)), t)
  | (some d, t) =>
    let file := (t.mem d).file
    let mode := if file.type = ftDirectory then rootStat.mode else 0o100666
    (.stat 0 (some ⟨0, mode, file.size, 0⟩) none, t.fdPut d)

/-- `fsync` (`:385-402`). -/
def fsync : PosixResult × FdTable π φ :=
  match t.fdGet fd with
  | (none, t) => (.int (-1) (some (-ebadf)), t)
  | (some d, t) =>
    let (result, t) := t.onFile d (dfsFileFlush env.ops)
    (.int result.toInt none, t.fdPut d)

/-- `fcntl` (`:417-445`). -/
def fcntl (cmd arg : BitVec 32) : PosixResult × FdTable π φ :=
  let (ret, t) := match t.fdGet fd with
    | (none, t) => (-ebadf, t)
    | (some d, t) =>
      let (ret, t) := t.onFile d (dfsFileIoctl env.ops cmd arg)
      (ret, t.fdPut d)
  if ret.slt 0 then (.int (-1) (some ret), t) else (.int ret.toInt none, t)

/-- `ftruncate` (`:484-517`). -/
def ftruncate (length : BitVec 32) : PosixResult × FdTable π φ :=
  match t.fdGet fd with
  | (none, t) => (.int (-1) (some (-ebadf)), t)
  | (some d, t) =>
    if length.slt 0 then (.int (-1) (some (-einval)), t.fdPut d)
    else
      let (result, t) := t.onFile d (dfsFileFtruncate env.ops length)
      if result.slt 0 then (.int (-1) (some result), t.fdPut d) else (.int 0 none, t.fdPut d)

/-- `mkdir` (`:553-585`). -/
def mkdir : PosixResult × FdTable π φ :=
  let (fd, t) := t.fdNew env.realloc env.calloc
  if fd = -1 then (.int (-1) (some (-enomem)), t)
  else
    match t.fdGet fd with
    | (none, t) => (.int (-1) (some (-einval)), t)
    | (some d, t) =>
      let (result, t) := t.onFile d
        (dfsFileOpen env.table env.ops fullpath env.strdup (oDirectory ||| oCreat))
      if result.slt 0 then (.int (-1) (some result), (t.fdPut d).fdPut d)
      else
        let (_, t) := t.onFile d (dfsFileClose env.ops)
        (.int 0 none, (t.fdPut d).fdPut d)

/-- `opendir` (`:623-668`). -/
def opendir : PosixResult × FdTable π φ :=
  let (fd, t) := t.fdNew env.realloc env.calloc
  if fd = -1 then (.dir none (some (-enomem)), t)
  else
    match t.fdGet fd with
    | (none, t) => (.dir none (some (-einval)), t)
    | (some d, t) =>
      let (result, t) := t.onFile d
        (dfsFileOpen env.table env.ops fullpath env.strdup (oRdonly ||| oDirectory))
      if result.slt 0 then (.dir none (some result), (t.fdPut d).fdPut d)
      else if env.malloc then (.dir (some ⟨fd, fun _ => 0, 0, 0⟩) none, t.fdPut d)
      else
        let (_, t) := t.onFile d (dfsFileClose env.ops)
        (.dir none none, (t.fdPut d).fdPut d)

/-- `readdir` (`:680-720`). -/
def readdir : PosixResult × FdTable π φ :=
  match t.fdGet d.fd with
  | (none, t) => (.dirent none d (some (-ebadf)), t)
  | (some fd, t) =>
    let d := d.skipEntry
    if d.num = 0 ∨ d.num.sle d.cur then
      let ((result, buf), t) := t.onFile fd fun file =>
        let (result, file, buf) := dfsFileGetdents env.ops 511 d.buf file
        ((result, buf), file)
      if result.sle 0 then (.dirent none { d with buf } (some result), t.fdPut fd)
      else (.dirent (some 0) { d with buf, num := result, cur := 0 } none, t.fdPut fd)
    else (.dirent (some d.cur) d none, t.fdPut fd)

/-- `telldir` (`:731-748`). -/
def telldir : PosixResult × FdTable π φ :=
  match t.fdGet d.fd with
  | (none, t) => (.int 0 (some (-ebadf)), t)
  | (some fd, t) => (.int ((t.mem fd).file.pos - d.num + d.cur).toInt none, t.fdPut fd)

/-- `seekdir` (`:758-774`). -/
def seekdir : PosixResult × FdTable π φ :=
  match t.fdGet d.fd with
  | (none, t) => (.void d (some (-ebadf)), t)
  | (some fd, t) =>
    let (result, t) := t.onFile fd (dfsFileLseek env.ops offset)
    (.void (if result.slt 0 then d else { d with num := 0, cur := 0 }) none, t.fdPut fd)

/-- `rewinddir` (`:783-799`), which does what `seekdir` does with the offset 0. -/
def rewinddir : PosixResult × FdTable π φ := t.seekdir env d 0

/-- `closedir` (`:810-837`). -/
def closedir : PosixResult × FdTable π φ :=
  match t.fdGet d.fd with
  | (none, t) => (.int (-1) (some (-ebadf)), t)
  | (some fd, t) =>
    let (result, t) := t.onFile fd (dfsFileClose env.ops)
    let t := (t.fdPut fd).fdPut fd
    if result.slt 0 then (.int (-1) (some result), t) else (.int 0 none, t)

end FdTable

inductive PosixOp
  | openFile (fullpath : Option (List Byte)) (flags : BitVec 32)
  | close (fd : Int)
  | read (fd : Int) (len : BitVec 32)
  | write (fd : Int) (len : BitVec 32)
  | lseek (fd : Int) (offset : BitVec 32) (whence : Whence)
  | fstat (fd : Int)
  | fsync (fd : Int)
  | fcntl (fd : Int) (cmd arg : BitVec 32)
  | ftruncate (fd : Int) (length : BitVec 32)
  | mkdir (fullpath : Option (List Byte))
  | opendir (fullpath : Option (List Byte))
  | readdir (d : Dir)
  | telldir (d : Dir)
  | seekdir (d : Dir) (offset : BitVec 32)
  | rewinddir (d : Dir)
  | closedir (d : Dir)

structure PosixCall (π φ : Type*) where
  env : PosixEnv π φ
  op : PosixOp

namespace PosixCall
variable {π φ : Type*}

/-- `open`, `opendir` and `mkdir`, which make a descriptor. -/
def makesFd (c : PosixCall π φ) : Bool :=
  match c.op with
  | .openFile _ _ | .opendir _ | .mkdir _ => true
  | _ => false

/-- The descriptor that `open` or `opendir` has returned. -/
def newFd : PosixCall π φ × PosixResult → Option Int
  | (⟨_, .openFile _ _⟩, .int fd _) => if fd < 0 then none else some fd
  | (⟨_, .opendir _⟩, .dir (some d) _) => some d.fd
  | _ => none

/-- The descriptor that `close` or `closedir` has closed. -/
def closedFd : PosixCall π φ × PosixResult → Option Int
  | (⟨_, .close fd⟩, .int result _) => if result < 0 then none else some fd
  | (⟨_, .closedir d⟩, .int result _) => if result < 0 then none else some d.fd
  | _ => none

variable (tr : List (PosixCall π φ × PosixResult))

/-- The descriptors that were returned and not closed yet. -/
def openFds : List Int :=
  tr.foldl (fun fds e => (newFd e).toList ++ fds.filter (some · ≠ closedFd e)) []

theorem openFds_append (e : PosixCall π φ × PosixResult) :
    openFds (tr ++ [e]) = (newFd e).toList ++ (openFds tr).filter (some · ≠ closedFd e) := by
  rw [openFds, List.foldl_append]
  rfl

end PosixCall

namespace FdTable
variable {π φ : Type*} [DecidableEq π]

def apply (t : FdTable π φ) (c : PosixCall π φ) : PosixResult × FdTable π φ :=
  match c.op with
  | .openFile fullpath flags => t.openFile c.env fullpath flags
  | .close fd => t.close c.env fd
  | .read fd len => t.read c.env fd len
  | .write fd len => t.write c.env fd len
  | .lseek fd offset whence => t.lseek c.env fd offset whence
  | .fstat fd => t.fstat fd
  | .fsync fd => t.fsync c.env fd
  | .fcntl fd cmd arg => t.fcntl c.env fd cmd arg
  | .ftruncate fd length => t.ftruncate c.env fd length
  | .mkdir fullpath => t.mkdir c.env fullpath
  | .opendir fullpath => t.opendir c.env fullpath
  | .readdir d => t.readdir c.env d
  | .telldir d => t.telldir d
  | .seekdir d offset => t.seekdir c.env d offset
  | .rewinddir d => t.rewinddir c.env d
  | .closedir d => t.closedir c.env d

/-- `rt_calloc` returns memory that no entry of the table uses, and the close function of a file
system does not fail. -/
structure Enabled (t : FdTable π φ) (c : PosixCall π φ) : Prop where
  fresh : ∀ d ∈ c.env.calloc, ∀ i, t.slot i ≠ some d
  close : ∀ f, ∀ op ∈ (c.env.ops f).close, ∀ file, (op file).1.slt 0 = false

variable (π φ) in
def machine : Machine (FdTable π φ) (PosixCall π φ) PosixResult where
  Enabled := Enabled
  apply := apply

def Step : FdTable π φ → PosixCall π φ × PosixResult → FdTable π φ → Prop := (machine π φ).Step

end FdTable
end RtThread
