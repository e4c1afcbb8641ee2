import RtThread.Dfs.Normalize

/-!
# File systems and files

The mount table of `dfs_fs.c` and the functions of `dfs_file.c`. What the operations of a file
system do is arbitrary: a `struct dfs_file_ops` is a pointer of a type `φ`, and a call comes with
what its functions do at that time. They change the file, but not the reference count of its
descriptor. What is read and written is left out. Strings have no NUL at their end.
-/

namespace RtThread
open Buffer

/-- The error numbers (`libc_errno.h:50-108`). -/
def enoent : BitVec 32 := 2

@[inherit_doc enoent]
def ebadf : BitVec 32 := 9

@[inherit_doc enoent]
def enomem : BitVec 32 := 12

@[inherit_doc enoent]
def ebusy : BitVec 32 := 16

@[inherit_doc enoent]
def einval : BitVec 32 := 22

@[inherit_doc enoent]
def enosys : BitVec 32 := 38

/-- `DFS_FS_FLAG_FULLPATH` (`dfs.h:51`). -/
def dfsFsFlagFullpath : BitVec 32 := 1

/-- `FT_REGULAR` and `FT_DIRECTORY` (`dfs.h:54-57`). -/
def ftRegular : BitVec 16 := 0

@[inherit_doc ftRegular]
def ftDirectory : BitVec 16 := 2

/-- `DFS_F_OPEN`, `DFS_F_DIRECTORY` and `DFS_F_EOF` (`dfs.h:60-63`). -/
def dfsFOpen : BitVec 32 := 0x01000000

@[inherit_doc dfsFOpen]
def dfsFDirectory : BitVec 32 := 0x02000000

@[inherit_doc dfsFOpen]
def dfsFEof : BitVec 32 := 0x04000000

/-- The flags of `open` (`libc_fcntl.h:50-65`). -/
def oRdonly : BitVec 32 := 0

@[inherit_doc oRdonly]
def oCreat : BitVec 32 := 0x40

@[inherit_doc oRdonly]
def oAppend : BitVec 32 := 0x400

@[inherit_doc oRdonly]
def oNonblock : BitVec 32 := 0x800

@[inherit_doc oRdonly]
def oDirectory : BitVec 32 := 0x10000

/-- `F_GETFL` and `F_SETFL` (`libc_fcntl.h:84-85`). -/
def fGetfl : BitVec 32 := 3

@[inherit_doc fGetfl]
def fSetfl : BitVec 32 := 4

/-- `RT_FIOFTRUNCATE` (`dfs_file.h:72`). -/
def rtFioftruncate : BitVec 32 := 0x52540000

/-- The fields of `struct dfs_fd` (`dfs_file.h:39-53`) that are about the file: all but `magic`,
`ref_count` and the `data` of the file system. `fs` is an index of `filesystem_table`. -/
structure DfsFile (φ : Type*) where
  type : BitVec 16
  path : Option (List Byte)
  fs : Option Nat
  fops : Option φ
  flags : BitVec 32
  size : BitVec 32
  pos : BitVec 32
  deriving DecidableEq

/-- A function of a file system: its result, and what it makes of the file. -/
abbrev FileOp (φ : Type*) := DfsFile φ → BitVec 32 × DfsFile φ

/-- The functions of a `struct dfs_file_ops` (`dfs_file.h:23-35`) that may be NULL. -/
structure FileOps (φ : Type*) where
  openFile : Option (FileOp φ)
  close : Option (FileOp φ)
  ioctl : Option ((cmd args : BitVec 32) → FileOp φ)
  read : Option ((count : BitVec 32) → FileOp φ)
  write : Option ((count : BitVec 32) → FileOp φ)
  flush : Option (FileOp φ)
  lseek : Option ((offset : BitVec 32) → FileOp φ)
  /-- with the records that are written to memory -/
  getdents : Option ((count : BitVec 32) → DfsFile φ → BitVec 32 × DfsFile φ × (Nat → Byte))

/-- `struct stat`, as far as it is set by `dfs_file_stat`. -/
structure Stat where
  dev : BitVec 32
  mode : BitVec 32
  size : BitVec 32
  mtime : BitVec 32
  deriving DecidableEq

/-- The fields of `struct dfs_filesystem_ops` (`dfs_fs.h:25-43`) that are used for files. -/
structure FilesystemOps (φ : Type*) where
  flags : BitVec 32
  fops : φ
  unlink : Option (List Byte → BitVec 32)
  stat : Option (List Byte → BitVec 32 × Stat)

/-- `struct dfs_filesystem` (`dfs_fs.h:47-54`): an entry of `filesystem_table`. -/
structure Filesystem (φ : Type*) where
  path : Option (List Byte)
  ops : Option (FilesystemOps φ)

/-- A pointer to an entry of `filesystem_table`, and its fields, which are not NULL. -/
structure Mount (φ : Type*) where
  index : Nat
  path : List Byte
  ops : FilesystemOps φ

variable {φ : Type*}

/-- `fs->ops->flags & DFS_FS_FLAG_FULLPATH`. -/
def Mount.fullpath (fs : Mount φ) : Bool := fs.ops.flags &&& dfsFsFlagFullpath ≠ 0

/-- The loop of `dfs_filesystem_lookup` (`dfs_fs.c:92-109`). -/
def lookupLoop (path : List Byte) :
    List (Filesystem φ) → (index : Nat) → (fs : Option (Mount φ)) → (prefixlen : Nat) →
    Option (Mount φ)
  | [], _, fs, _ => fs
  | ⟨some fspath, some ops⟩ :: rest, index, fs, prefixlen =>
    if fspath.length < prefixlen ∨ strncmp fspath path fspath.length ≠ 0 then
      lookupLoop path rest (index + 1) fs prefixlen
    -- check next path separator
    else if 1 < fspath.length ∧ fspath.length < path.length ∧ path[fspath.length]? ≠ some slash then
      lookupLoop path rest (index + 1) fs prefixlen
    else lookupLoop path rest (index + 1) (some ⟨index, fspath, ops⟩) fspath.length
  | ⟨none, _⟩ :: rest, index, fs, prefixlen | ⟨some _, none⟩ :: rest, index, fs, prefixlen =>
    lookupLoop path rest (index + 1) fs prefixlen

variable (table : List (Filesystem φ)) (files : List (Option (DfsFile φ)))
  (fullpath : Option (List Byte))

/-- `dfs_filesystem_lookup` (`dfs_fs.c:78-114`). -/
def dfsFilesystemLookup (path : List Byte) : Option (Mount φ) :=
  lookupLoop path table 0 none 0

/-- `dfs_subdir` (`dfs.c:348-362`), for a directory that is not longer than the filename. -/
def dfsSubdir (directory filename : List Byte) : Option (List Byte) :=
  if directory.length = filename.length then none
  else
    let dir := directory.length
    if filename[dir]? ≠ some slash ∧ dir ≠ 0 then some (filename.drop (dir - 1))
    else some (filename.drop dir)

/-- `fd_is_open` (`dfs.c:288-338`) for the files of the descriptor table. `fullpath` is what
`dfs_normalize_path` returns. -/
def fdIsOpen : Bool :=
  match fullpath with
  | none => false
  | some fullpath =>
    match dfsFilesystemLookup table fullpath with
    | none => false
    | some fs =>
      let mountpath := if fs.path = [slash] then fullpath else fullpath.drop fs.path.length
      files.any fun file => file.any fun fd =>
        fd.fops.isSome ∧ fd.fs = some fs.index ∧ fd.path = some mountpath

/-- The functions of `fd->fops`. It is not NULL if the file is open. -/
def DfsFile.ops (ops : φ → FileOps φ) (fd : DfsFile φ) : FileOps φ :=
  match fd.fops with
  | some fops => ops fops
  | none => ⟨none, none, none, none, none, none, none, none⟩

variable (ops : φ → FileOps φ)

/-- `dfs_file_open` behind the assignment of the path (`dfs_file.c:86-115`). -/
def openRoutine (flags : BitVec 32) (fd : DfsFile φ) : BitVec 32 × DfsFile φ :=
  match (fd.ops ops).openFile with
  | none => (-enosys, { fd with path := none })
  | some openFile =>
    let (result, fd) := openFile fd
    if result.slt 0 then (result, { fd with path := none })
    else
      let fd := { fd with flags := fd.flags ||| dfsFOpen }
      if flags &&& oDirectory ≠ 0 then
        (0, { fd with type := ftDirectory, flags := fd.flags ||| dfsFDirectory })
      else (0, fd)

/-- `dfs_file_open` (`:33-116`). `fullpath` is what `dfs_normalize_path` returns, and
`rt_strdup` allocates memory if `strdup`. -/
def dfsFileOpen (fullpath : Option (List Byte)) (strdup : Bool) (flags : BitVec 32)
    (fd : DfsFile φ) : BitVec 32 × DfsFile φ :=
  match fullpath with
  | none => (-enomem, fd)
  | some fullpath =>
    match dfsFilesystemLookup table fullpath with
    | none => (-enoent, fd)
    | some fs =>
      let path :=
        if fs.fullpath then some fullpath
        else if strdup then some ((dfsSubdir fs.path fullpath).getD [slash])
        else none
      openRoutine ops flags ⟨ftRegular, path, some fs.index, some fs.ops.fops, flags, 0, 0⟩

/-- `dfs_file_close` (`:125-143`). -/
def dfsFileClose (fd : DfsFile φ) : BitVec 32 × DfsFile φ :=
  let (result, fd) := match (fd.ops ops).close with
    | some close => close fd
    | none => (0, fd)
  if result.slt 0 then (result, fd) else (result, { fd with path := none })

/-- `dfs_file_ioctl` (`:154-183`). -/
def dfsFileIoctl (cmd args : BitVec 32) (fd : DfsFile φ) : BitVec 32 × DfsFile φ :=
  if fd.type = ftRegular ∧ cmd = fGetfl then (fd.flags, fd)
  else if fd.type = ftRegular ∧ cmd = fSetfl then
    let mask := oNonblock ||| oAppend
    (0, { fd with flags := fd.flags &&& ~~~mask ||| args &&& mask })
  else
    match (fd.ops ops).ioctl with
    | some ioctl => ioctl cmd args fd
    | none => (-enosys, fd)

/-- `dfs_file_read` (`:195-209`). -/
def dfsFileRead (len : BitVec 32) (fd : DfsFile φ) : BitVec 32 × DfsFile φ :=
  match (fd.ops ops).read with
  | none => (-enosys, fd)
  | some read =>
    let (result, fd) := read len fd
    (result, if result.slt 0 then { fd with flags := fd.flags ||| dfsFEof } else fd)

/-- `dfs_file_getdents` (`:220-230`). -/
def dfsFileGetdents (nbytes : BitVec 32) (buf : Nat → Byte) (fd : DfsFile φ) :
    BitVec 32 × DfsFile φ × (Nat → Byte) :=
  if fd.type ≠ ftDirectory then (-einval, fd, buf)
  else
    match (fd.ops ops).getdents with
    | some getdents => getdents nbytes fd
    | none => (-enosys, fd, buf)

/-- `dfs_file_write` (`:294-303`). -/
def dfsFileWrite (len : BitVec 32) (fd : DfsFile φ) : BitVec 32 × DfsFile φ :=
  match (fd.ops ops).write with
  | none => (-enosys, fd)
  | some write => write len fd

/-- `dfs_file_flush` (`:312-321`). -/
def dfsFileFlush (fd : DfsFile φ) : BitVec 32 × DfsFile φ :=
  match (fd.ops ops).flush with
  | none => (-enosys, fd)
  | some flush => flush fd

/-- `dfs_file_lseek` (`:331-348`). -/
def dfsFileLseek (offset : BitVec 32) (fd : DfsFile φ) : BitVec 32 × DfsFile φ :=
  match (fd.ops ops).lseek with
  | none => (-enosys, fd)
  | some lseek =>
    let (result, fd) := lseek offset fd
    (result, if result.slt 0 then fd else { fd with pos := result })

/-- `dfs_file_ftruncate` (`:492-510`). The argument of `ioctl` is a pointer to the
length, which is given as it is. -/
def dfsFileFtruncate (length : BitVec 32) (fd : DfsFile φ) : BitVec 32 × DfsFile φ :=
  if fd.type ≠ ftRegular ∨ length.slt 0 then (-einval, fd)
  else
    match (fd.ops ops).ioctl with
    | none => (-enosys, fd)
    | some ioctl =>
      let (result, fd) := ioctl rtFioftruncate length fd
      (result, if result = 0 then { fd with size := length } else fd)

/-- `dfs_file_unlink` (`:239-283`) up to its call of the function of the file system: that function
and its path, or the error that is returned without a call. `fullpath` and `fullpath'` are what the
calls of `dfs_normalize_path` here and in `fd_is_open` return. -/
def dfsFileUnlinkCall (fullpath' : Option (List Byte)) :
    Except (BitVec 32) ((List Byte → BitVec 32) × List Byte) :=
  match fullpath with
  | none => .error (-einval)
  | some fullpath =>
    match dfsFilesystemLookup table fullpath with
    | none => .error (-enoent)
    | some fs =>
      if fdIsOpen table files fullpath' then .error (-ebusy)
      else
        match fs.ops.unlink with
        | none => .error (-enosys)
        | some unlink =>
          if fs.fullpath then .ok (unlink, fullpath)
          else .ok (unlink, (dfsSubdir fs.path fullpath).getD [slash])

/-- `dfs_file_unlink`. -/
def dfsFileUnlink (fullpath' : Option (List Byte)) : BitVec 32 :=
  match dfsFileUnlinkCall table files fullpath fullpath' with
  | .error result => result
  | .ok (unlink, path) => unlink path

/-- What `dfs_file_stat` says of a root directory: `S_IFDIR` and all permissions. -/
def rootStat : Stat := ⟨0, 0o040777, 0, 0⟩

/-- `dfs_file_stat` (`:358-416`), and `*buf` if it is set. `fullpath` is what
`dfs_normalize_path` returns. -/
def dfsFileStat : BitVec 32 × Option Stat :=
  match fullpath with
  | none => (-1, none)
  | some fullpath =>
    match dfsFilesystemLookup table fullpath with
    | none => (-enoent, none)
    | some fs =>
      if fullpath = [slash] then (0, some rootStat)
      else
        match dfsSubdir fs.path fullpath with
        | none => (0, some rootStat)
        | some subdir =>
          match fs.ops.stat with
          | none => (-enosys, none)
          | some stat =>
            let (result, buf) := stat (if fs.fullpath then fullpath else subdir)
            (result, some buf)

end RtThread
