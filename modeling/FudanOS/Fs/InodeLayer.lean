import FudanOS.Fs.InodeLayout

/-!
# The inode layer

The functions of `fs/inode.c` which work on one in-memory inode, over the
block cache as one thread sees it.  An `Inode *` argument is passed as a value
and returned when the function changes it.  `ctx == NULL` is `false`.  The
console stands behind device inodes: a write to it leaves the file system
alone, and what a read from it returns is a parameter.
-/

namespace FudanOS.Fs.InodeLayer

open FudanOS.Library.Programs
open FudanOS.Fs.Defines
open FudanOS.Fs.BlockBitmap
open FudanOS.Fs.InodeLayout

/-- `Inode`, without its lock and its list node. -/
structure Inode where
  rc : Int
  inodeNo : Nat
  valid : Bool
  entry : InodeEntry

/-- What `console_read(inode, dest, count)` returns and stores. -/
abbrev ConsoleRead := Nat → Nat × List UInt8

/-- A change of `block->data` in place. -/
def edit (blockNo : Nat) (change : BlockData → BlockData) :
    Program Store Stop Unit :=
  modify fun store =>
    { store with
      blocks :=
        Function.update store.blocks blockNo
          (change (store.blocks blockNo)) }

/-- `ASSERT(condition)` -/
def assert (condition : Bool) : Program Store Stop Unit :=
  if condition then pure () else throw .assertion

section Functions

variable (sblock : SuperBlock)

/-- `inode_sync(ctx, inode, do_write)` -/
def inodeSync (inode : Inode) (doWrite : Bool) :
    Program Store Stop Inode :=
  let blockNo := toBlockNo sblock inode.inodeNo
  let slot := inode.inodeNo % inodePerBlock
  if inode.valid && doWrite then do
    let _ ← acquire blockNo
    edit blockNo fun data => setEntry data slot inode.entry
    sync blockNo
    release blockNo
    return inode
  else if !inode.valid then do
    let data ← acquire blockNo
    release blockNo
    return { inode with entry := entryAt data slot, valid := true }
  else
    return inode

/-- The loop of `inode_alloc` over the inode numbers. -/
def inodeAllocFrom (type : UInt16) : List Nat → Program Store Stop Nat
  | [] => throw .noFreeInode
  | inodeNo :: rest => do
      let blockNo := toBlockNo sblock inodeNo
      let slot := inodeNo % inodePerBlock
      let data ← acquire blockNo
      if (entryAt data slot).type = inodeInvalid then do
        edit blockNo fun data =>
          setEntry data slot { InodeEntry.zero with type := type }
        sync blockNo
        release blockNo
        return inodeNo
      else do
        release blockNo
        inodeAllocFrom type rest

/-- `inode_alloc(ctx, type)` -/
def inodeAlloc (type : UInt16) : Program Store Stop Nat := do
  assert (type != inodeInvalid)
  inodeAllocFrom sblock type
    (List.range' 1 (sblock.numInodes.toNat - 1))

/-- `inode->entry.addrs[index] = address` -/
def Inode.setAddr
    (inode : Inode)
    (index : Fin inodeNumDirect)
    (address : UInt32) : Inode :=
  { inode with
    entry :=
      { inode.entry with
        addrs := Function.update inode.entry.addrs index address } }

/-- `inode->entry.indirect = address` -/
def Inode.setIndirect (inode : Inode) (address : UInt32) : Inode :=
  { inode with entry := { inode.entry with indirect := address } }

/-- `inode->entry.num_bytes = numBytes` -/
def Inode.setNumBytes (inode : Inode) (numBytes : Nat) : Inode :=
  { inode with
    entry := { inode.entry with numBytes := UInt32.ofNat numBytes } }

/-- The result of `inode_map` with its parameter `modified`. -/
structure Mapped where
  inode : Inode
  blockNo : Nat
  modified : Bool

/-- `inode_map` for a block with a direct address. -/
def mapDirect (ctx : Bool) (inode : Inode) (index : Fin inodeNumDirect) :
    Program Store Stop Mapped :=
  if inode.entry.addrs index = 0 then
    if ctx then do
      let blockNo ← cacheAlloc sblock
      let inode ←
        inodeSync sblock (inode.setAddr index (UInt32.ofNat blockNo)) true
      return ⟨inode, (inode.entry.addrs index).toNat, true⟩
    else
      return ⟨inode, 0, false⟩
  else
    return ⟨inode, (inode.entry.addrs index).toNat, false⟩

/-- `inode_map` once the indirect block is there. -/
def mapThrough (ctx : Bool) (inode : Inode) (index : Nat) :
    Program Store Stop Mapped := do
  let indirect := inode.entry.indirect.toNat
  let data ← acquire indirect
  if inodeNumIndirect ≤ index then
    throw .overrun
  else if addrAt data index = 0 then
    if ctx then do
      let blockNo ← cacheAlloc sblock
      edit indirect fun data =>
        InodeLayout.setAddr data index (UInt32.ofNat blockNo)
      sync indirect
      release indirect
      return ⟨inode, (UInt32.ofNat blockNo).toNat, true⟩
    else do
      release indirect
      return ⟨inode, 0, false⟩
  else do
    release indirect
    return ⟨inode, (addrAt data index).toNat, false⟩

/-- `inode_map(ctx, inode, offset, modified)` -/
def inodeMap (ctx : Bool) (inode : Inode) (offset : Nat) :
    Program Store Stop Mapped :=
  if direct : offset < inodeNumDirect then
    mapDirect sblock ctx inode ⟨offset, direct⟩
  else if inode.entry.indirect = 0 then
    if ctx then do
      let blockNo ← cacheAlloc sblock
      let inode ←
        inodeSync sblock (inode.setIndirect (UInt32.ofNat blockNo)) true
      mapThrough sblock ctx inode (offset - inodeNumDirect)
    else
      return ⟨inode, 0, false⟩
  else
    mapThrough sblock ctx inode (offset - inodeNumDirect)

/-- One iteration of `inode_clear` over the indirect block. -/
def freeIndirect (indirect : Nat) (index : Fin inodeNumIndirect) :
    Program Store Stop Unit := do
  let store ← get
  let address := addrAt (store.blocks indirect) index
  if address = 0 then
    return ()
  else
    cacheFree sblock address.toNat

/-- One iteration of `inode_clear` over the direct addresses. -/
def freeDirect (inode : Inode) (index : Fin inodeNumDirect) :
    Program Store Stop Inode :=
  if inode.entry.addrs index = 0 then
    return inode
  else do
    cacheFree sblock (inode.entry.addrs index).toNat
    return inode.setAddr index 0

/-- `inode_clear` up to its second loop. -/
def clearIndirect (inode : Inode) : Program Store Stop Inode :=
  if inode.entry.indirect = 0 then
    return inode
  else do
    let indirect := inode.entry.indirect.toNat
    let _ ← acquire indirect
    (List.finRange inodeNumIndirect).foldlM
      (fun _ index => freeIndirect sblock indirect index) ()
    release indirect
    cacheFree sblock indirect
    return inode.setIndirect 0

/-- `inode_clear(ctx, inode)` -/
def inodeClear (inode : Inode) : Program Store Stop Inode := do
  let inode ← clearIndirect sblock inode
  let inode ←
    (List.finRange inodeNumDirect).foldlM (freeDirect sblock) inode
  inodeSync sblock (inode.setNumBytes 0) true

/-- The loop of `inode_read`; `fuel` bounds the number of bytes to go. -/
def readLoop (inode : Inode) (finish : Nat) :
    Nat → Nat → Program Store Stop (List UInt8)
  | 0, _ => return []
  | fuel + 1, position =>
      if position < finish then do
        let mapped ← inodeMap sblock false inode (position / blockSize)
        let data ← acquire mapped.blockNo
        let len :=
          min (finish - position) (blockSize - position % blockSize)
        release mapped.blockNo
        let rest ←
          readLoop inode finish fuel ((position / blockSize + 1) * blockSize)
        return (List.range len).map
          (fun index => byteAt data (position % blockSize + index)) ++ rest
      else
        return []

/-- `inode_read(inode, dest, offset, count)` and what it stores in `dest`. -/
def inodeRead (console : ConsoleRead) (inode : Inode)
    (offset count : Nat) : Program Store Stop (Nat × List UInt8) :=
  let numBytes := inode.entry.numBytes.toNat
  if inode.entry.type = inodeDevice then
    return console count
  else do
    let count :=
      if numBytes < (count + offset) % usizeModulus then
        (numBytes + usizeModulus - offset) % usizeModulus
      else
        count
    let finish := (offset + count) % usizeModulus
    assert (decide (offset ≤ numBytes))
    assert (decide (finish ≤ numBytes))
    assert (decide (offset ≤ finish))
    let bytes ← readLoop sblock inode finish (finish - offset) offset
    return (count, bytes)

/-- The loop of `inode_write`; `fuel` bounds the number of bytes to go. -/
def writeLoop (finish : Nat) :
    Nat → Inode → List UInt8 → Nat → Program Store Stop Inode
  | 0, inode, _, _ => return inode
  | fuel + 1, inode, src, position =>
      if position < finish then do
        let mapped ← inodeMap sblock true inode (position / blockSize)
        let _ ← acquire mapped.blockNo
        let len :=
          min (finish - position) (blockSize - position % blockSize)
        edit mapped.blockNo fun data =>
          patch data (position % blockSize) len fun index => src.getD index 0
        sync mapped.blockNo
        release mapped.blockNo
        writeLoop finish fuel mapped.inode (src.drop len)
          ((position / blockSize + 1) * blockSize)
      else
        return inode

/-- `inode_write(ctx, inode, src, offset, count)` -/
def inodeWrite (inode : Inode) (src : List UInt8) (offset : Nat) :
    Program Store Stop (Inode × Nat) :=
  let numBytes := inode.entry.numBytes.toNat
  let finish := (offset + src.length) % usizeModulus
  if inode.entry.type = inodeDevice then
    return (inode, src.length)
  else do
    assert (decide (offset ≤ numBytes))
    assert (decide (finish ≤ inodeMaxBytes))
    assert (decide (offset ≤ finish))
    let inode ←
      if numBytes < finish then
        inodeSync sblock (inode.setNumBytes finish) true
      else
        pure inode
    let inode ← writeLoop sblock finish (finish - offset) inode src offset
    return (inode, src.length)

end Functions

end FudanOS.Fs.InodeLayer
