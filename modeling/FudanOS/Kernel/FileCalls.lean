import FudanOS.Kernel.FileRuns
import FudanOS.Fs.PipeCalls

/-!
# Reading and writing files

`file_read`, `file_write` and `file_stat` of `fs/file.c`, and the system calls
of `kernel/sysfile.c` which take a descriptor: `dup`, `read`, `write`,
`writev`, `fstat` and `close`.

What `console_write` sends to the terminal is left out.
-/

namespace FudanOS.Kernel.FileCalls

open FudanOS.Library.Programs
open FudanOS.Fs
open FudanOS.Fs.Defines
open FudanOS.Fs.InodeLayout
open FudanOS.Fs.InodeLayer
open FudanOS.Fs.InodeTable
open FudanOS.Fs.InodeRuns (emptyDisk smallDisk)
open FudanOS.Fs.Names
open FudanOS.Fs.PipeCalls (Waits bytesAt pipeRead pipeWrite)
open FudanOS.Kernel.SysFile
open FudanOS.Kernel.FileRuns (plainEnv unbooted)

/-! ## Machine integers -/

/-- A `usize` as an `isize`. -/
def isize (number : Nat) : Int :=
  (number : Int).bmod usizeModulus

/-- An `isize` as a `usize`. -/
def usize (number : Int) : Nat :=
  (number % usizeModulus).toNat

/-- An `isize` as an `int`. -/
def int (number : Int) : Int :=
  number.bmod (2 ^ 32)

/-! ## The kernel with its pipes -/

/-- The buffers of the pipes, beside what `System` says of their ends. -/
structure Machine where
  system : System
  pipes : Nat → PipeCalls.Pipe

/-- Why a call does not return. -/
inductive Halt where
  | kernel (halt : SysFile.Halt)
  | pipe (stop : PipeCalls.Stop)
  deriving DecidableEq

abbrev MachineProgram (Value : Type) := Program Machine Halt Value

/-- A program of the kernel which does not look into pipes. -/
def onSystem {Value : Type} (program : KernelProgram Value) :
    MachineProgram Value :=
  fun machine =>
    match program.run machine.system with
    | .ok (value, system) => .ok (value, { machine with system := system })
    | .error halt => .error (.kernel halt)

section Lift

variable
    {Value : Type}
    {program : KernelProgram Value}
    {machine : Machine}

theorem onSystem_ok
    {value : Value}
    {system : System}
    (returned : program.run machine.system = .ok (value, system)) :
    (onSystem program).run machine =
      .ok (value, { machine with system := system }) := by
  change onSystem program machine = _
  rw [onSystem, returned]

theorem onSystem_error
    {halt : SysFile.Halt}
    (stopped : program.run machine.system = .error halt) :
    (onSystem program).run machine = .error (.kernel halt) := by
  change onSystem program machine = _
  rw [onSystem, stopped]

/-- A lifted program has returned, so the program has. -/
theorem exists_of_onSystem_ok
    {value : Value}
    {target : Machine}
    (returned : (onSystem program).run machine = .ok (value, target)) :
    ∃ system, program.run machine.system = .ok (value, system) ∧
      target = { machine with system := system } := by
  change onSystem program machine = _ at returned
  unfold onSystem at returned
  split at returned
  · rename_i result system ran
    cases returned
    exact ⟨system, ran, rfl⟩
  · cases returned

end Lift

/-- The pipe with its ends. -/
def Machine.pipe (machine : Machine) (pi : Nat) : PipeCalls.Pipe :=
  { machine.pipes pi with
    readopen := (machine.system.pipes pi).readopen
    writeopen := (machine.system.pipes pi).writeopen }

def Machine.setPipe (machine : Machine) (pi : Nat)
    (pipe : PipeCalls.Pipe) : Machine where
  system :=
    { machine.system with
      pipes :=
        Function.update machine.system.pipes pi
          ⟨pipe.readopen, pipe.writeopen⟩ }
  pipes := Function.update machine.pipes pi pipe

/-- A function of the pipe at an address. -/
def onPipe {Value : Type} (pi : Nat)
    (call :
      PipeCalls.Pipe →
        Except PipeCalls.Stop (Value × List UInt8 × PipeCalls.Pipe)) :
    MachineProgram (Value × List UInt8) :=
  fun machine =>
    match call (machine.pipe pi) with
    | .ok (value, bytes, pipe) =>
        .ok ((value, bytes), machine.setPipe pi pipe)
    | .error stop => .error (.pipe stop)

/-! ## Files -/

/-- `struct stat`, with `st_mode` as the type of the inode -/
structure Stat where
  stDev : Nat
  stIno : Nat
  stNlink : UInt16
  stSize : UInt32
  stMode : UInt16

section Files

variable
    (sblock : SuperBlock)
    (env : Env)
    (this : Nat)
    /- `thisproc()->killed` -/
    (killed : Bool)
    (waits : Waits)

/-- `stati(ip, st)` -/
def stati (ip : Nat) : TableProgram Stat := do
  let entry ← Inodes.entry ip
  if
    entry.type = inodeRegular ∨ entry.type = inodeDirectory ∨
      entry.type = inodeDevice
  then
    return {
      stDev := 1
      stIno := ← Inodes.inodeNo ip
      stNlink := entry.numLinks
      stSize := entry.numBytes
      stMode := entry.type }
  else
    throw .assertion

/-- `file_stat(f, st)` and what it stores -/
def fileStat (f : Nat) : KernelProgram (Int × Option Stat) := do
  let file ← getFile f
  if file.type = .inode then
    onTable (Inodes.lock file.object)
    let st ← onTable (stati file.object)
    onTable (Inodes.unlock file.object)
    return (0, some st)
  else
    return (-1, none)

/-- `f->off += count` if the count is positive as an `isize` -/
def addOff (f count : Nat) : KernelProgram Unit := do
  if 0 < isize count then
    let file ← getFile f
    setFile f { file with off := (file.off + count) % usizeModulus }

/-- The part of `file_read` for inodes. -/
def readInode (f : Nat) (n : Int) : KernelProgram (Int × List UInt8) := do
  let file ← getFile f
  onTable (Inodes.lock file.object)
  let (count, bytes) ←
    onTable (Inodes.read sblock env file.object file.off (usize n))
  addOff f count
  onTable (Inodes.unlock file.object)
  return (isize count, bytes)

/-- `file_read(f, addr, n)` and what it stores at `addr` -/
def fileRead (f : Nat) (n : Int) : MachineProgram (Int × List UInt8) := do
  let file ← onSystem (getFile f)
  if file.readable = false then
    return (-1, [])
  else
    match file.type with
    | .inode => onSystem (readInode sblock env f n)
    | .pipe => onPipe file.object fun pi => pipeRead waits pi killed (int n)
    | .none => throw (.kernel .assertion)

/-- `maxbytes` of `file_write` -/
abbrev maxbytes : Nat := (opMaxNumBlocks - 4) / 2 * blockSize

/-- One transaction of `file_write`. -/
def writeChunk (f : Nat) (chunk : List UInt8) : KernelProgram Int := do
  onTable (beginOp env)
  let file ← getFile f
  onTable (Inodes.lock file.object)
  let count ← onTable (Inodes.write sblock file.object chunk file.off)
  addOff f count
  onTable (Inodes.unlock file.object)
  return isize count

/--
The loop of `file_write`, with the bytes which are left to write; `fuel` bounds
their number.  It is left with `false` by `break`.
-/
def writeChunks (f : Nat) : Nat → List UInt8 → KernelProgram Bool
  | 0, _ => return true
  | fuel + 1, bytes => do
      if bytes = [] then
        return true
      else
        let chunk := bytes.take maxbytes
        let realLen ← writeChunk sblock env f chunk
        if realLen < 0 then
          return false
        else if realLen ≠ chunk.length then
          throw .assertion
        else
          writeChunks f fuel (bytes.drop chunk.length)

/-- The part of `file_write` for inodes. -/
def writeInode (f : Nat) (addr : Nat → UInt8) (n : Int) :
    KernelProgram Int := do
  let bytes := bytesAt addr n
  let done ← writeChunks sblock env f bytes.length bytes
  return if done = true ∧ 0 ≤ n then n else -1

/--
`file_write(f, addr, n)`.  Beside what the call returns come the bytes which it
has stored.
-/
def fileWrite (f : Nat) (addr : Nat → UInt8) (n : Int) :
    MachineProgram (Int × List UInt8) := do
  let file ← onSystem (getFile f)
  if file.writable = false then
    return (-1, [])
  else
    match file.type with
    | .inode => do
        let result ← onSystem (writeInode sblock env f addr n)
        return (result, if result = n then bytesAt addr n else [])
    | .pipe =>
        onPipe file.object fun pi =>
          pipeWrite waits pi killed addr (int n)
    | .none => return (0, [])

/-! ## System calls -/

/-- `read(fd, buffer, size)`; `buffer` may not be writable. -/
def read (fd : Int) (writeable : Bool) (size : Int) :
    MachineProgram (Int × List UInt8) := do
  match ← onSystem (fd2file this fd) with
  | none => return (-1, [])
  | some f =>
      if size ≤ 0 ∨ writeable = false then
        return (-1, [])
      else
        fileRead sblock env killed waits f size

/-- `write(fd, buffer, size)` -/
def write (fd : Int) (buffer : Nat → UInt8) (size : Int) :
    MachineProgram (Int × List UInt8) := do
  match ← onSystem (fd2file this fd) with
  | none => return (-1, [])
  | some f =>
      if size ≤ 0 then
        return (-1, [])
      else
        fileWrite sblock env killed waits f buffer size

/-- `struct iovec`, with the bytes at `iov_base` -/
structure Iovec where
  iovBase : Nat → UInt8
  iovLen : Nat

/-- What others do around the `file_write` of a segment. -/
structure Around where
  /-- Before the call. -/
  others : Machine → Machine
  /-- During its waits on a pipe. -/
  waits : Waits
  /-- What its transactions find. -/
  env : Env

/--
The loop of `writev`.  Beside `tot` come what the calls of `file_write` have
returned and stored.
-/
def writevLoop (f : Nat) :
    Nat → List (Iovec × Around) →
      MachineProgram (Nat × List (Int × List UInt8))
  | tot, [] => return (tot, [])
  | tot, (p, around) :: rest => do
      modify around.others
      let wrote ←
        fileWrite sblock around.env killed around.waits f p.iovBase
          (isize p.iovLen)
      let (tot, wrotes) ←
        writevLoop f ((tot + usize wrote.1) % usizeModulus) rest
      return (tot, wrote :: wrotes)

/-- `writev(fd, iov, iovcnt)`, where `iov` has `iovcnt` elements if any -/
def writev (fd : Int) (iov : List (Iovec × Around)) (iovcnt : Int) :
    MachineProgram (Int × List (Int × List UInt8)) := do
  match ← onSystem (fd2file this fd) with
  | none => return (-1, [])
  | some f =>
      if iovcnt ≤ 0 then
        return (-1, [])
      else
        let (tot, wrotes) ← writevLoop sblock killed f 0 iov
        return (isize tot, wrotes)

/-- `fstat(fd, st)`; `st` may not be writable. -/
def fstat (fd : Int) (writeable : Bool) :
    MachineProgram (Int × Option Stat) := do
  match ← onSystem (fd2file this fd) with
  | none => return (-1, none)
  | some f =>
      if writeable = false then
        return (-1, none)
      else
        onSystem (fileStat f)

end Files

/-! ## Descriptors which are not open -/

/-- The system calls which take a descriptor. -/
inductive FdCall where
  | dup
  | read (writeable : Bool) (size : Int)
  | write (buffer : Nat → UInt8) (size : Int)
  | writev (iov : List (Iovec × Around)) (iovcnt : Int)
  | fstat (writeable : Bool)
  | close

section Descriptors

variable
    (sblock : SuperBlock)
    (env : Env)
    (this : Nat)
    (killed : Bool)
    (waits : Waits)

/-- What a call returns. -/
def FdCall.run (fd : Int) : FdCall → MachineProgram Int
  | .dup => onSystem (SysFile.dup this fd)
  | .read writeable size =>
      Prod.fst <$> FileCalls.read sblock env this killed waits fd writeable size
  | .write buffer size =>
      Prod.fst <$> FileCalls.write sblock env this killed waits fd buffer size
  | .writev iov iovcnt =>
      Prod.fst <$> FileCalls.writev sblock this killed fd iov iovcnt
  | .fstat writeable => Prod.fst <$> FileCalls.fstat this fd writeable
  | .close => onSystem (SysFile.close sblock env this fd)

end Descriptors

/-- The descriptor is out of range, or its slot is empty. -/
def NotOpen (system : System) (this : Nat) (fd : Int) : Prop :=
  ∀ inside : 0 ≤ fd ∧ fd < noFile,
    (system.procs this).openfile ⟨fd.toNat, toNat_lt_noFile inside⟩ = none

section Rejected

variable
    {sblock : SuperBlock}
    {env : Env}
    {this : Nat}
    {killed : Bool}
    {waits : Waits}
    {fd : Int}

theorem fd2file_notOpen
    {system : System}
    (notOpen : NotOpen system this fd) :
    (fd2file this fd).run system = .ok (none, system) := by
  unfold fd2file
  by_cases inside : 0 ≤ fd ∧ fd < noFile
  · rw [dif_pos inside]
    have empty := notOpen inside
    change Except.ok _ = _
    rw [empty]
  · rw [dif_neg inside]
    rfl

/-- The result of `fd2file` decides how a call goes on. -/
theorem run_after_fd2file
    {Value : Type}
    {machine : Machine}
    (notOpen : NotOpen machine.system this fd)
    (next : Option Nat → MachineProgram Value) :
    (onSystem (fd2file this fd) >>= next).run machine =
      (next none).run machine := by
  rw [StateT.run_bind]
  rw [onSystem_ok (fd2file_notOpen notOpen)]
  rfl

/-- `dup` looks at the descriptor before anything else. -/
theorem dup_notOpen
    {machine : Machine}
    (notOpen : NotOpen machine.system this fd) :
    (onSystem (SysFile.dup this fd)).run machine = .ok (-1, machine) := by
  refine onSystem_ok ?_
  unfold SysFile.dup
  rw [StateT.run_bind, fd2file_notOpen notOpen]
  rfl

/-- `close` stores into the table before anything else. -/
theorem close_notOpen
    (sblock : SuperBlock)
    (env : Env)
    {system : System}
    (notOpen : NotOpen system this fd) :
    ∃ halt,
      (SysFile.close sblock env this fd).run system = .error halt := by
  unfold SysFile.close
  rw [StateT.run_bind, fd2file_notOpen notOpen]
  by_cases inside : 0 ≤ fd ∧ fd < noFile
  · refine ⟨.null, ?_⟩
    change StateT.run (dite _ _ _) system = _
    rw [dif_pos inside]
    rfl
  · refine ⟨.bounds, ?_⟩
    change StateT.run (dite _ _ _) system = _
    rw [dif_neg inside]
    rfl

end Rejected

/--
A call on a descriptor which is not open returns -1 and changes nothing, unless
it is `close`.
-/
theorem invalid_descriptor_rejected_iff
    (sblock : SuperBlock)
    (env : Env)
    {this : Nat}
    (killed : Bool)
    (waits : Waits)
    {fd : Int}
    {machine : Machine}
    (notOpen : NotOpen machine.system this fd)
    (call : FdCall) :
    (call.run sblock env this killed waits fd).run machine =
        .ok (-1, machine) ↔
      call ≠ .close := by
  cases call with
  | dup => exact iff_of_true (dup_notOpen notOpen) nofun
  | read writeable size =>
      refine iff_of_true ?_ nofun
      unfold FdCall.run FileCalls.read
      rw [StateT.run_map, run_after_fd2file notOpen]
      rfl
  | write buffer size =>
      refine iff_of_true ?_ nofun
      unfold FdCall.run FileCalls.write
      rw [StateT.run_map, run_after_fd2file notOpen]
      rfl
  | writev iov iovcnt =>
      refine iff_of_true ?_ nofun
      unfold FdCall.run FileCalls.writev
      rw [StateT.run_map, run_after_fd2file notOpen]
      rfl
  | fstat writeable =>
      refine iff_of_true ?_ nofun
      unfold FdCall.run FileCalls.fstat
      rw [StateT.run_map, run_after_fd2file notOpen]
      rfl
  | close =>
      refine iff_of_false ?_ (fun differs => differs rfl)
      intro returned
      rcases close_notOpen sblock env notOpen with
        ⟨halt, stopped⟩
      unfold FdCall.run at returned
      rw [onSystem_error stopped] at returned
      cases returned

/-- No file is open on the small disk. -/
def idle : Machine where
  system := unbooted emptyDisk.store emptyDisk.nodes
  pipes := fun _ => PipeCalls.initPipe

theorem idle_notOpen (this : Nat) (fd : Int) :
    NotOpen idle.system this fd :=
  fun _ => rfl

theorem invalid_descriptor_rejected_read :
    NotOpen idle.system 0 77 ∧
      (FdCall.run smallDisk plainEnv 0 false [] 77 (.read true 5)).run idle =
        .ok (-1, idle) :=
  ⟨idle_notOpen 0 77,
    (invalid_descriptor_rejected_iff smallDisk plainEnv false []
      (idle_notOpen 0 77) (.read true 5)).mpr nofun⟩

/-- `close(20)` stores behind the table of the process. -/
theorem close_out_of_range :
    NotOpen idle.system 0 20 ∧
      (FdCall.run smallDisk plainEnv 0 false [] 20 .close).run idle =
        .error (.kernel .bounds) :=
  ⟨idle_notOpen 0 20, rfl⟩

end FudanOS.Kernel.FileCalls
