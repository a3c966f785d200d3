import FudanOS.Fs.Names
import Mathlib.Data.Finset.Basic

/-!
# The system calls on files

`fs/file.c`, the file part of `fs/pipe.c`, `kernel/sysfile.c`, and what `fork`,
`execve` and `exit` do with the files of a process.  Every call runs on its
own, from its entry to its return.

The buffers of a pipe and its semaphores are left out, and so are the address
spaces which `fork` copies and `execve` builds.  How the loading of a program
ends is chosen by the caller.
-/

namespace FudanOS.Kernel.SysFile

open FudanOS.Library.Programs
open FudanOS.Fs.Defines
open FudanOS.Fs.BlockBitmap
open FudanOS.Fs.InodeLayout
open FudanOS.Fs.InodeLayer
open FudanOS.Fs.Directory
open FudanOS.Fs.InodeTable
open FudanOS.Fs.Names

/-! ## Names and links -/

/-- `AT_FDCWD` -/
abbrev atFdcwd : Int := -100

/-- `O_WRONLY` -/
abbrev oWronly : BitVec 32 := 1

/-- `O_RDWR` -/
abbrev oRdwr : BitVec 32 := 2

/-- `O_CREAT` -/
abbrev oCreat : BitVec 32 := 64

/-- `"."` -/
abbrev dot : List UInt8 := [46]

/-- `".."` -/
abbrev dotdot : List UInt8 := [46, 46]

/-- `user_strlen(str, maxlen)` -/
def userStrlen (str : List UInt8) (maxlen : Nat) : Nat :=
  if str.length < maxlen then str.length + 1 else 0

/-- `strncmp(s1, s2, n) == 0` -/
def sameUpTo (s1 s2 : List UInt8) (n : Nat) : Bool :=
  (s1.takeWhile (· != 0)).take n == (s2.takeWhile (· != 0)).take n

section Names

variable
    (sblock : SuperBlock)
    (env : Env)
    (cwd : Nat)

/-- `bcache.begin_op(&ctx)` -/
def beginOp : TableProgram Unit :=
  modify fun state =>
    { state with
      store := { state.store with rm := 0, logged := env.logged } }

/-- The loop of `isdirempty`. -/
def isdiremptyFrom (dp : Nat) : List Nat → TableProgram Bool
  | [] => return true
  | off :: rest => do
      let de ← Inodes.read sblock env dp off direntSize
      if de.1 ≠ direntSize then
        throw .assertion
      else if direntInodeNo de.2 ≠ 0 then
        return false
      else
        isdiremptyFrom dp rest

/-- `isdirempty(dp)` -/
def isdirempty (dp : Nat) : TableProgram Bool := do
  let numBytes := (← Inodes.entry dp).numBytes.toNat
  isdiremptyFrom sblock env dp ((positions numBytes).drop 2)

/-- `ip->entry.type == INODE_DIRECTORY && !isdirempty(ip)` -/
def isFullDirectory (ip : Nat) : TableProgram Bool := do
  if (← Inodes.entry ip).type = inodeDirectory then
    return !(← isdirempty sblock env ip)
  else
    return false

/-- The label `bad` of `unlinkat`. -/
def unlinkBad (dp : Nat) : TableProgram Int := do
  Inodes.unlock dp
  Inodes.put sblock dp
  return -1

/-- `unlinkat` once the entry and its inode are there. -/
def unlinkEntry (dp ip off : Nat) : TableProgram Int := do
  if
    (← Inodes.write sblock dp (List.replicate direntSize 0) off) ≠
      direntSize
  then
    throw .assertion
  else
    if (← Inodes.entry ip).type = inodeDirectory then
      Inodes.setEntry dp fun entry =>
        { entry with numLinks := entry.numLinks - 1 }
      Inodes.sync sblock dp
    Inodes.unlock dp
    Inodes.put sblock dp
    Inodes.setEntry ip fun entry =>
      { entry with numLinks := entry.numLinks - 1 }
    Inodes.sync sblock ip
    Inodes.unlock ip
    Inodes.put sblock ip
    return 0

/-- `unlinkat(fd, path, flag)` -/
def unlinkat (fd : Int) (path : List UInt8) (flag : Int) :
    TableProgram Int := do
  if ¬ (fd = atFdcwd ∧ flag = 0) then
    throw .assertion
  else if userStrlen path 256 = 0 then
    return -1
  else
    beginOp env
    match ← nameiparent sblock env cwd path with
    | none => return -1
    | some (dp, name) => do
        Inodes.lock dp
        if
          sameUpTo name dot fileNameMaxLength ||
            sameUpTo name dotdot fileNameMaxLength
        then
          unlinkBad sblock dp
        else
          match ← Inodes.lookup sblock env (env.frame 0) dp name with
          | none => unlinkBad sblock dp
          | some (inumber, off) => do
              let ip ← Inodes.get sblock env inumber
              Inodes.lock ip
              if (← Inodes.entry ip).numLinks < 1 then
                throw .assertion
              else if ← isFullDirectory sblock env ip then
                Inodes.unlock ip
                Inodes.put sblock ip
                unlinkBad sblock dp
              else
                unlinkEntry sblock dp ip off

/-- `create` once the name is found in the directory. -/
def createFound (dir inodeNo : Nat) (type : UInt16) :
    TableProgram (Option Nat) := do
  let ip ← Inodes.get sblock env inodeNo
  Inodes.unlock dir
  Inodes.put sblock dir
  Inodes.lock ip
  if type = inodeRegular ∧ (← Inodes.entry ip).type = inodeRegular then
    return some ip
  else
    Inodes.unlock ip
    Inodes.put sblock ip
    return none

/-- `create` of a name which is not in the directory. -/
def createNew (dir : Nat) (name : List UInt8)
    (type major minor : UInt16) : TableProgram (Option Nat) := do
  let ip ← Inodes.get sblock env (← Inodes.alloc sblock type)
  Inodes.lock ip
  Inodes.setEntry ip fun entry =>
    { entry with major := major, minor := minor, numLinks := 1 }
  Inodes.sync sblock ip
  if type = inodeDirectory then
    Inodes.setEntry dir fun entry =>
      { entry with numLinks := entry.numLinks + 1 }
    Inodes.sync sblock dir
    let _ ←
      Inodes.insert sblock env (env.frame 1) ip dot (← Inodes.inodeNo ip)
    let _ ←
      Inodes.insert sblock env (env.frame 2) ip dotdot
        (← Inodes.inodeNo dir)
  let _ ←
    Inodes.insert sblock env (env.frame 3) dir name (← Inodes.inodeNo ip)
  Inodes.unlock dir
  Inodes.put sblock dir
  return some ip

/-- `create(path, type, major, minor, ctx)` -/
def create (path : List UInt8) (type major minor : UInt16) :
    TableProgram (Option Nat) := do
  match ← nameiparent sblock env cwd path with
  | none => return none
  | some (dir, name) => do
      Inodes.lock dir
      match ← Inodes.lookup sblock env (env.frame 0) dir name with
      | some (inodeNo, _) => createFound sblock env dir inodeNo type
      | none => createNew sblock env dir name type major minor

/-- `mkdirat` and `mknodat` after their checks. -/
def createAndPut (path : List UInt8) (type major minor : UInt16) :
    TableProgram Int := do
  beginOp env
  match ← create sblock env cwd path type major minor with
  | none => return -1
  | some ip => do
      Inodes.unlock ip
      Inodes.put sblock ip
      return 0

/-- `mkdirat(dirfd, path, mode)` -/
def mkdirat (dirfd : Int) (path : List UInt8) (mode : Int) :
    TableProgram Int :=
  if userStrlen path 256 = 0 then
    return -1
  else if dirfd ≠ atFdcwd then
    return -1
  else if mode ≠ 0 then
    return -1
  else
    createAndPut sblock env cwd path inodeDirectory 0 0

/-- `mknodat(dirfd, path, mode, dev)`, with `major(dev)` and `minor(dev)` -/
def mknodat (dirfd : Int) (path : List UInt8) (major minor : UInt16) :
    TableProgram Int :=
  if userStrlen path 256 = 0 then
    return -1
  else if dirfd ≠ atFdcwd then
    return -1
  else
    createAndPut sblock env cwd path inodeDevice major minor

/-- `newfstatat(dirfd, path, st, flags)`; `st` may not be writable. -/
def newfstatat (dirfd : Int) (path : List UInt8) (writeable : Bool)
    (flags : Int) : TableProgram Int := do
  if userStrlen path 256 = 0 ∨ writeable = false then
    return -1
  else if dirfd ≠ atFdcwd then
    return -1
  else if flags ≠ 0 then
    return -1
  else
    beginOp env
    match ← namei sblock env cwd path with
    | none => return -1
    | some ip => do
        Inodes.lock ip
        let type := (← Inodes.entry ip).type
        -- `stati` panics on any other type.
        if
          type = inodeRegular ∨ type = inodeDirectory ∨
            type = inodeDevice
        then
          Inodes.unlock ip
          Inodes.put sblock ip
          return 0
        else
          throw .assertion

/-- The inode of `execve` is put back, whether or not the program loads. -/
def execve (path : List UInt8) (loads : Bool) : TableProgram Int := do
  beginOp env
  match ← namei sblock env cwd path with
  | none => return -1
  | some ip => do
      Inodes.lock ip
      Inodes.unlock ip
      Inodes.put sblock ip
      return if loads then 0 else -1

/-- `chdir` up to the assignment to `cwd`, which is the result. -/
def chdirTo (path : List UInt8) : TableProgram (Option Nat) := do
  beginOp env
  match ← namei sblock env cwd path with
  | none => return none
  | some ip => do
      Inodes.lock ip
      if (← Inodes.entry ip).type ≠ inodeDirectory then
        Inodes.unlock ip
        Inodes.put sblock ip
        return none
      else
        Inodes.unlock ip
        Inodes.put sblock cwd
        return some ip

/-- The inode which `openat` opens, if any. -/
def openInode (path : List UInt8) (omode : BitVec 32) :
    TableProgram (Option Nat) := do
  beginOp env
  if omode &&& oCreat ≠ 0 then
    create sblock env cwd path inodeRegular 0 0
  else
    match ← namei sblock env cwd path with
    | none => return none
    | some ip => do
        Inodes.lock ip
        return some ip

end Names

/-! ## Files and processes -/

/-- `NFILE` -/
abbrev nfile : Nat := 65536

/-- The length of `oftable.openfile` -/
abbrev noFile : Nat := 16

/-- `FD_NONE`, `FD_PIPE` and `FD_INODE` -/
inductive FileType where
  | none
  | pipe
  | inode
  deriving DecidableEq

/-- `File` -/
structure File where
  type : FileType
  ref : Int
  readable : Bool
  writable : Bool
  /-- The union of `pipe` and `ip`. -/
  object : Nat
  off : Nat
  deriving DecidableEq

/-- The ends of a `Pipe`. -/
structure Pipe where
  readopen : Bool
  writeopen : Bool
  deriving DecidableEq

/-- The files of a process: `oftable` and `cwd`. -/
structure ProcFiles where
  openfile : Fin noFile → Option Nat
  cwd : Nat

/-- The kernel, as far as files go. -/
structure System where
  table : State
  /-- `ftable.filelist` -/
  files : Nat → File
  pipes : Nat → Pipe
  /-- The pipes which `kalloc` has given out. -/
  allocated : List Nat
  procs : Nat → ProcFiles
  /-- The processes which run. -/
  live : Finset Nat

/-- Why a system call does not return. -/
inductive Halt where
  /-- The file system stops. -/
  | stop (stop : Stop)
  /-- An `ASSERT` fails. -/
  | assertion
  /-- An access through `NULL`. -/
  | null
  /-- An access outside `oftable.openfile`. -/
  | bounds
  deriving DecidableEq

/-- A program of the kernel. -/
abbrev KernelProgram (Value : Type) := Program System Halt Value

/-- A program of the file system, as part of the kernel. -/
def onTable {Value : Type} (program : TableProgram Value) :
    KernelProgram Value :=
  fun system =>
    match program.run system.table with
    | .ok (value, table) => .ok (value, { system with table := table })
    | .error stop => .error (.stop stop)

def getFile (f : Nat) : KernelProgram File := do
  return (← get).files f

def setFile (f : Nat) (file : File) : KernelProgram Unit :=
  modify fun system =>
    { system with files := Function.update system.files f file }

section Files

variable
    (sblock : SuperBlock)
    (env : Env)
    (this : Nat)

/-- `file_alloc()` -/
def fileAlloc : KernelProgram (Option Nat) := do
  let system ← get
  match
    (List.range' 0 nfile).find? fun f => decide ((system.files f).ref = 0)
  with
  | none => return none
  | some f => do
      setFile f { system.files f with ref := 1 }
      return some f

/-- `file_dup(f)` -/
def fileDup (f : Nat) : KernelProgram Unit := do
  let file ← getFile f
  if file.ref < 1 then
    throw .assertion
  else
    setFile f { file with ref := file.ref + 1 }

/-- `pipe_close(pi, writable)` -/
def pipeClose (pi : Nat) (writable : Bool) : KernelProgram Unit := do
  let system ← get
  let pipe :=
    if writable then
      { system.pipes pi with writeopen := false }
    else
      { system.pipes pi with readopen := false }
  set { system with
    pipes := Function.update system.pipes pi pipe
    allocated :=
      if pipe.readopen = false ∧ pipe.writeopen = false then
        system.allocated.erase pi
      else
        system.allocated }

/-- `file_close(f)` -/
def fileClose (f : Nat) : KernelProgram Unit := do
  let file ← getFile f
  if file.ref < 1 then
    throw .assertion
  else if 0 < file.ref - 1 then
    setFile f { file with ref := file.ref - 1 }
  else
    setFile f { file with ref := file.ref - 1, type := .none }
    match file.type with
    | .none => return ()
    | .pipe => pipeClose file.object file.writable
    | .inode => onTable do
        beginOp env
        Inodes.put sblock file.object

theorem toNat_lt_noFile
    {fd : Int}
    (inside : 0 ≤ fd ∧ fd < noFile) :
    fd.toNat < noFile := by
  omega

/-- `fd2file(fd)` -/
def fd2file (fd : Int) : KernelProgram (Option Nat) := do
  if inside : 0 ≤ fd ∧ fd < noFile then
    return ((← get).procs this).openfile ⟨fd.toNat, toNat_lt_noFile inside⟩
  else
    return none

/-- `thisproc()->oftable.openfile[fd] = f` -/
def setSlot (fd : Fin noFile) (f : Option Nat) : KernelProgram Unit :=
  modify fun system =>
    let proc := system.procs this
    { system with
      procs :=
        Function.update system.procs this
          { proc with openfile := Function.update proc.openfile fd f } }

/-- `fdalloc(f)`, or nothing for -1 -/
def fdalloc (f : Nat) : KernelProgram (Option (Fin noFile)) := do
  let proc := (← get).procs this
  match
    (List.finRange noFile).find? fun fd => (proc.openfile fd).isNone
  with
  | none => return none
  | some fd => do
      setSlot this fd (some f)
      return some fd

/-- `dup(fd)` -/
def dup (fd : Int) : KernelProgram Int := do
  match ← fd2file this fd with
  | none => return -1
  | some f =>
      match ← fdalloc this f with
      | none => return -1
      | some fd => do
          fileDup f
          return fd

/-- `close(fd)` -/
def close (fd : Int) : KernelProgram Int := do
  let f ← fd2file this fd
  if inside : 0 ≤ fd ∧ fd < noFile then
    setSlot this ⟨fd.toNat, by omega⟩ none
    match f with
    | none => throw .null
    | some f => do
        fileClose sblock env f
        return 0
  else
    throw .bounds

/-- `inodes.unlock(ip)` and `inodes.put(&ctx, ip)` -/
def unlockPut (ip : Nat) : KernelProgram Unit :=
  onTable do
    Inodes.unlock ip
    Inodes.put sblock ip

/-- The part of `openat` after the inode is found. -/
def openFile (ip : Nat) (omode : BitVec 32) : KernelProgram Int := do
  match ← fileAlloc with
  | none => do
      unlockPut sblock ip
      return -1
  | some f =>
      match ← fdalloc this f with
      | none => do
          fileClose sblock env f
          unlockPut sblock ip
          return -1
      | some fd => do
          onTable (Inodes.unlock ip)
          setFile f
            { ← getFile f with
              type := .inode
              object := ip
              off := 0
              readable := omode &&& oWronly = 0
              writable := omode &&& oWronly ≠ 0 ∨ omode &&& oRdwr ≠ 0 }
          return fd

/-- `openat(dirfd, path, omode)` -/
def openat (dirfd : Int) (path : List UInt8) (omode : BitVec 32) :
    KernelProgram Int := do
  if userStrlen path 256 = 0 then
    return -1
  else if dirfd ≠ atFdcwd then
    return -1
  else
    let cwd := ((← get).procs this).cwd
    match ← onTable (openInode sblock env cwd path omode) with
    | none => return -1
    | some ip => openFile sblock env this ip omode

/-- `chdir(path)` -/
def chdir (path : List UInt8) : KernelProgram Int := do
  let cwd := ((← get).procs this).cwd
  match ← onTable (chdirTo sblock env cwd path) with
  | none => return -1
  | some ip => do
      modify fun system =>
        { system with
          procs :=
            Function.update system.procs this
              { system.procs this with cwd := ip } }
      return 0

/-- `pipe_alloc(f0, f1)` when `kalloc` returns `page` -/
def pipeAlloc (page : Option Nat) : KernelProgram (Option (Nat × Nat)) := do
  match ← fileAlloc with
  | none => return none
  | some f0 =>
      match ← fileAlloc with
      | none => do
          fileClose sblock env f0
          return none
      | some f1 =>
          match page with
          | none => do
              fileClose sblock env f0
              fileClose sblock env f1
              return none
          | some pi => do
              modify fun system =>
                { system with
                  pipes := Function.update system.pipes pi ⟨true, true⟩
                  allocated := pi :: system.allocated }
              setFile f0
                { ← getFile f0 with
                  type := .pipe
                  object := pi
                  readable := true
                  writable := false }
              setFile f1
                { ← getFile f1 with
                  type := .pipe
                  object := pi
                  readable := false
                  writable := true }
              return some (f0, f1)

/-- `pipe2(pipefd, flags)` when `kalloc` returns `page` -/
def pipe2 (flags : Int) (page : Option Nat) : KernelProgram Int := do
  if flags ≠ 0 then
    return -1
  else
    match ← pipeAlloc sblock env page with
    | none => return -1
    | some (rf, wf) => do
        let rfd ← fdalloc this rf
        let wfd ← fdalloc this wf
        match rfd, wfd with
        | some _, some _ => return 0
        | some rfd, none => do
            setSlot this rfd none
            fileClose sblock env rf
            fileClose sblock env wf
            return -1
        | none, _ => do
            fileClose sblock env rf
            fileClose sblock env wf
            return -1

/-- The loop of `fork` over the descriptors. -/
def forkSlot (child : Nat) (fd : Fin noFile) : KernelProgram Unit := do
  match ((← get).procs this).openfile fd with
  | none => return ()
  | some f => do
      fileDup f
      setSlot child fd (some f)

/-- `fork()` when `create_proc` returns `child` -/
def fork (child : Nat) : KernelProgram Int := do
  let cwd := ((← get).procs this).cwd
  modify fun system =>
    { system with
      procs :=
        Function.update system.procs child
          { openfile := fun _ => none, cwd := 0 } }
  (List.finRange noFile).foldlM (fun _ fd => forkSlot this child fd) ()
  let cwd ← onTable (Inodes.share cwd)
  modify fun system =>
    { system with
      procs :=
        Function.update system.procs child
          { system.procs child with cwd := cwd }
      live := insert child system.live }
  return child

/-- `exit(code)`; it does nothing to the files of the process. -/
def exit : KernelProgram Unit :=
  modify fun system => { system with live := system.live.erase this }

end Files

end FudanOS.Kernel.SysFile
