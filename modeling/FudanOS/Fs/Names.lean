import FudanOS.Fs.InodeTable

/-!
# Path names

`skipelem`, `namex`, `namei` and `nameiparent` of `fs/inode.c`, over the table
of inodes.  One system call runs at a time, so the lock of an inode is free
when a call waits for it; what is left of `inode_lock` and `inode_unlock` is
their assertion.  A path is the bytes of the string before its NUL.
-/

namespace FudanOS.Fs.Names

open FudanOS.Library.Programs
open FudanOS.Fs.Defines
open FudanOS.Fs.BlockBitmap
open FudanOS.Fs.InodeLayout
open FudanOS.Fs.InodeLayer
open FudanOS.Fs.Directory
open FudanOS.Fs.InodeTable

/-- `ROOT_INODE_NO` -/
abbrev rootInodeNo : Nat := 1

/-- A program of the file system. -/
abbrev TableProgram (Value : Type) := Program InodeTable.State Stop Value

/-- What a system call finds around itself. -/
structure Env where
  /-- `kalloc` of an inode, when some addresses are in use. -/
  kalloc : List Nat → Nat
  fresh : ∀ used, kalloc used ∉ used
  console : ConsoleRead
  /-- The stack of the lookup which has some elements of the path to go. -/
  walk : Nat → Frame
  /-- The stacks of the other directory functions of the call. -/
  frame : Nat → Frame
  /-- The bytes of the stack after the array `name`, up to a zero. -/
  after : List UInt8
  /-- What other operations have put in the log. -/
  logged : List Nat

/-! ## `inodes` -/

namespace Inodes

variable
    (sblock : SuperBlock)
    (env : Env)

section Lift

variable {Value : Type}

/-- A function which works on the blocks. -/
def onStore (program : Program Store Stop Value) : TableProgram Value :=
  fun state =>
    match program.run state.store with
    | .ok (value, store) => .ok (value, { state with store := store })
    | .error stop => .error stop

/-- A function which reads the inode at an address. -/
def reads (address : Nat) (program : Inode → Program Store Stop Value) :
    TableProgram Value :=
  fun state => onStore (program (state.nodes address)) state

/-- A function which changes the inode at an address. -/
def changes (address : Nat)
    (program : Inode → Program Store Stop (Inode × Value)) :
    TableProgram Value :=
  fun state =>
    match (program (state.nodes address)).run state.store with
    | .ok ((inode, value), store) =>
        .ok (value,
          { state with
            store := store
            nodes := Function.update state.nodes address inode })
    | .error stop => .error stop

end Lift

/-- `inode->entry` -/
def entry (address : Nat) : TableProgram InodeEntry := do
  return ((← get).nodes address).entry

/-- `inode->inode_no` -/
def inodeNo (address : Nat) : TableProgram Nat := do
  return ((← get).nodes address).inodeNo

/-- An assignment to fields of `inode->entry`. -/
def setEntry (address : Nat) (change : InodeEntry → InodeEntry) :
    TableProgram Unit :=
  changes address fun inode =>
    return ({ inode with entry := change inode.entry }, ())

/-- `ASSERT(inode->rc.count > 0)` of `inode_lock` and `inode_unlock` -/
def assertHeld (address : Nat) : TableProgram Unit := do
  if 0 < ((← get).nodes address).rc then
    return ()
  else
    throw .assertion

/-- `inodes.lock(inode)` -/
def lock (address : Nat) : TableProgram Unit :=
  assertHeld address

/-- `inodes.unlock(inode)` -/
def unlock (address : Nat) : TableProgram Unit :=
  assertHeld address

/-- `inodes.alloc(ctx, type)` -/
def alloc (type : UInt16) : TableProgram Nat :=
  onStore (inodeAlloc sblock type)

/-- `inodes.sync(ctx, inode, true)` -/
def sync (address : Nat) : TableProgram Unit :=
  changes address fun inode => do
    return (← inodeSync sblock inode true, ())

/-- `inodes.get(inode_no)` -/
def get (inodeNo : Nat) : TableProgram Nat :=
  fun state => inodeGet sblock inodeNo (env.kalloc state.head) state

/-- `inodes.share(inode)` -/
def share (address : Nat) : TableProgram Nat := do
  modify (inodeShare address)
  return address

/-- `inodes.put(ctx, inode)` -/
def put (address : Nat) : TableProgram Unit :=
  fun state =>
    match inodePut sblock address state with
    | .ok state => .ok ((), state)
    | .error stop => .error stop

/-- `inodes.read(inode, dest, offset, count)` and what it stores. -/
def read (address offset count : Nat) :
    TableProgram (Nat × List UInt8) :=
  reads address fun inode =>
    inodeRead sblock env.console inode offset count

/-- `inodes.write(ctx, inode, src, offset, count)` -/
def write (address : Nat) (src : List UInt8) (offset : Nat) :
    TableProgram Nat :=
  changes address fun inode => inodeWrite sblock inode src offset

/-- `inodes.lookup(inode, name, index)` -/
def lookup (frame : Frame) (address : Nat) (name : List UInt8) :
    TableProgram (Option (Nat × Nat)) :=
  reads address fun inode =>
    inodeLookup sblock env.console frame inode name

/-- `inodes.insert(ctx, inode, name, inode_no)` -/
def insert (frame : Frame) (address : Nat) (name : List UInt8)
    (inodeNo : Nat) : TableProgram Nat :=
  changes address fun inode =>
    inodeInsert sblock env.console frame inode name inodeNo

end Inodes

/-! ## Elements of a path -/

/-- `'/'` -/
abbrev slash : UInt8 := 47

/-- `skipelem(path, name)`: the rest of the path and the element. -/
def skipelem (path : List UInt8) : Option (List UInt8 × List UInt8) :=
  let path := path.dropWhile (· == slash)
  if path = [] then
    none
  else
    let element := path.takeWhile (· != slash)
    let path := path.dropWhile (· != slash)
    some (path.dropWhile (· == slash), element)

/-- The elements which `skipelem` returns, at most so many. -/
def elementsFrom : Nat → List UInt8 → List (List UInt8)
  | 0, _ => []
  | fuel + 1, path =>
      match skipelem path with
      | none => []
      | some (path, element) => element :: elementsFrom fuel path

/-- The elements of a path; each of them has a byte at least. -/
def elements (path : List UInt8) : List (List UInt8) :=
  elementsFrom path.length path

/--
The string in the array `name` after `skipelem`.  An element which fills the
array leaves no NUL in it, and the string goes on with what is after it.
-/
def elementName (after element : List UInt8) : List UInt8 :=
  if fileNameMaxLength ≤ element.length then
    element.take fileNameMaxLength ++ after
  else
    element

section Functions

variable
    (sblock : SuperBlock)
    (env : Env)

/-- The loop of `namex`. -/
def namexFrom (parent : Bool) :
    List (List UInt8) → List UInt8 → Nat →
      TableProgram (Option (Nat × List UInt8))
  | [], name, ans =>
      if parent then do
        Inodes.put sblock ans
        return none
      else
        return some (ans, name)
  | element :: rest, _, ans => do
      let name := elementName env.after element
      Inodes.lock ans
      if (← Inodes.entry ans).type ≠ inodeDirectory then
        Inodes.unlock ans
        Inodes.put sblock ans
        return none
      else if parent && rest.isEmpty then
        Inodes.unlock ans
        return some (ans, name)
      else
        match
          ← Inodes.lookup sblock env (env.walk rest.length) ans name
        with
        | none => do
            Inodes.unlock ans
            Inodes.put sblock ans
            return none
        | some (inodeNo, _) => do
            Inodes.unlock ans
            Inodes.put sblock ans
            let ans ← Inodes.get sblock env inodeNo
            namexFrom parent rest name ans

/-- `namex(path, nameiparent, name, ctx)` when `thisproc()->cwd` is `cwd` -/
def namex (cwd : Nat) (path : List UInt8) (parent : Bool) :
    TableProgram (Option (Nat × List UInt8)) := do
  let ans ←
    if path.head? = some slash then
      Inodes.get sblock env rootInodeNo
    else
      Inodes.share cwd
  namexFrom sblock env parent (elements path) [] ans

/-- `namei(path, ctx)` -/
def namei (cwd : Nat) (path : List UInt8) :
    TableProgram (Option Nat) := do
  return (← namex sblock env cwd path false).map Prod.fst

/-- `nameiparent(path, name, ctx)` and `name` -/
def nameiparent (cwd : Nat) (path : List UInt8) :
    TableProgram (Option (Nat × List UInt8)) :=
  namex sblock env cwd path true

end Functions

end FudanOS.Fs.Names
