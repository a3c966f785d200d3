import FudanOS.Fs.Eviction
import FudanOS.Fs.LogSections
import FudanOS.Library.RedoLog

/-!
# The block cache, one call at a time

This module embeds `fs/cache.c` with every call running to completion before
the next one starts.  The list `head` is modelled by the sequence of its
blocks, the block behind `head` first.  A `Block *` is represented by its
block number.  The device remembers its writes in order, so that a run can be
cut after any of them.

A call which would sleep on a lock, panic, or touch memory that is not there
has no successor state; `Stop` tells which of these happened.
-/

namespace FudanOS.Fs.BlockCache

open FudanOS.Fs.Defines
open FudanOS.Fs.Eviction
open FudanOS.Fs.LogSections
open FudanOS.Library.RedoLog

/-- A block device: its first contents and the writes it was given. -/
structure Device where
  initial : Disk
  writes : List (BlockNo × BlockData)

namespace Device

/-- The contents after the first `count` writes. -/
def cut (device : Device) (count : Nat) : Disk :=
  applyWrites device.initial (device.writes.take count)

/-- The present contents. -/
def contents (device : Device) : Disk :=
  applyWrites device.initial device.writes

def write (device : Device) (blockNo : BlockNo) (data : BlockData) :
    Device :=
  { device with writes := device.writes ++ [(blockNo, data)] }

@[simp]
theorem contents_write
    (device : Device)
    (blockNo : BlockNo)
    (data : BlockData) :
    (device.write blockNo data).contents =
      Function.update device.contents blockNo data := by
  simp [contents, write, applyWrites_append]

end Device

/-- `Block`; `lock` is the value of its sleep lock. -/
structure Block where
  blockNo : BlockNo
  acquired : Bool
  pinned : Bool
  lock : Nat
  valid : Bool
  data : BlockData

/-- The static variables of `cache.c`. -/
structure Cache where
  device : Device
  head : List Block
  blockNum : Nat
  log : Log

/-- Why a call does not return. -/
inductive Stop where
  | sleep
  | panic (reason : Panic)
  | undefined
  deriving DecidableEq

/-- The block which `cache_acquire` finds for a block number. -/
def lookup (head : List Block) (blockNo : BlockNo) : Option Block :=
  head.find? fun block => block.blockNo == blockNo

/-- Write to the fields of a block. -/
def updateBlock
    (head : List Block)
    (blockNo : BlockNo)
    (change : Block → Block) : List Block :=
  head.map fun block =>
    if block.blockNo = blockNo then change block else block

/-- The blocks which the eviction loop may drop. -/
def Block.idle (block : Block) : Bool :=
  !block.acquired && !block.pinned

/-- The block of a miss: initialized, locked and loaded from disk. -/
def loadBlock (device : Device) (blockNo : BlockNo) : Block where
  blockNo := blockNo
  acquired := true
  pinned := false
  lock := 0
  valid := true
  data := device.contents blockNo

/-- `cache_acquire(block_no)` -/
def cacheAcquire (cache : Cache) (blockNo : BlockNo) :
    Except Stop Cache :=
  match lookup cache.head blockNo with
  | some block =>
      -- `wait_sem(&blk->lock)` returns at once or not at all.
      if block.lock = 0 then
        .error .sleep
      else
        .ok { cache with
          head :=
            { block with acquired := true, lock := block.lock - 1 } ::
              cache.head.eraseP fun other => other.blockNo == blockNo }
  | none =>
      let evicted := evict Block.idle cache.blockNum cache.head
      .ok { cache with
        head := loadBlock cache.device blockNo :: evicted.2
        blockNum := evicted.1 + 1 }

/-- Write to the fields of a block which has to be in memory. -/
def change (cache : Cache) (blockNo : BlockNo) (edit : Block → Block) :
    Except Stop Cache :=
  match lookup cache.head blockNo with
  | some _ => .ok { cache with head := updateBlock cache.head blockNo edit }
  | none => .error .undefined

/-- `cache_release(block)` -/
def cacheRelease (cache : Cache) (blockNo : BlockNo) : Except Stop Cache :=
  change cache blockNo fun block =>
    { block with acquired := false, lock := block.lock + 1 }

/-- The caller writes to the data of a block. -/
def setData (cache : Cache) (blockNo : BlockNo) (data : BlockData) :
    Except Stop Cache :=
  change cache blockNo fun block => { block with data := data }

/-- `block->pinned = pinned` -/
def setPinned (cache : Cache) (blockNo : BlockNo) (pinned : Bool) :
    Except Stop Cache :=
  change cache blockNo fun block => { block with pinned := pinned }

/-- `cache_sync(NULL, block)` -/
def cacheSyncNull (cache : Cache) (blockNo : BlockNo) :
    Except Stop Cache :=
  match lookup cache.head blockNo with
  | some block =>
      .ok { cache with device := cache.device.write blockNo block.data }
  | none => .error .undefined

/-- `cache_sync(ctx, block)` -/
def cacheSync (cache : Cache) (ctx : OpContext) (blockNo : BlockNo) :
    Except Stop (Cache × OpContext) := do
  let cache ← setPinned cache blockNo true
  match cacheSyncSection cache.log ctx blockNo with
  | .ok (log, ctx) => .ok ({ cache with log := log }, ctx)
  | .error panic => .error (.panic panic)

/-- `cache_begin_op(ctx)` -/
def cacheBeginOp (cache : Cache) : Except Stop (Cache × OpContext) :=
  if mustWait cache.log then
    .error .sleep
  else
    .ok ({ cache with log := admitOp cache.log }, { rm := 0 })

/-- Copy the data of one acquired block into another. -/
def copyData (cache : Cache) (source target : BlockNo) :
    Except Stop Cache :=
  match lookup cache.head source with
  | some block => setData cache target block.data
  | none => .error .undefined

/-- Copy one block and write the copy, holding both blocks. -/
def transfer (cache : Cache) (source target : BlockNo) :
    Except Stop Cache := do
  let cache ← cacheAcquire cache source
  let cache ← cacheAcquire cache target
  let cache ← copyData cache source target
  let cache ← cacheSyncNull cache target
  let cache ← cacheRelease cache source
  cacheRelease cache target

/-- One round of the loop of `cache_end_op` which fills the log. -/
def copyToLog (sblock : SuperBlock) (cache : Cache) (index : Nat) :
    Except Stop Cache :=
  transfer cache (cache.log.header.blockNo index) (sblock.logBlock index)

/-- One round of the loop of `cache_end_op` which installs the blocks. -/
def install (cache : Cache) (index : Nat) : Except Stop Cache := do
  let blockNo := cache.log.header.blockNo index
  let cache ← cacheAcquire cache blockNo
  let cache ← cacheSyncNull cache blockNo
  let cache ← setPinned cache blockNo false
  cacheRelease cache blockNo

/-- `write_header()` -/
def writeHeader (sblock : SuperBlock) (cache : Cache) : Cache :=
  { cache with
    device :=
      cache.device.write sblock.headerBlock cache.log.header.encode }

/-- The committing part of `cache_end_op`. -/
def commit (sblock : SuperBlock) (cache : Cache) : Except Stop Cache := do
  let count := cache.log.header.numBlocks
  let cache ← (List.range count).foldlM (copyToLog sblock) cache
  let cache := writeHeader sblock cache
  let cache ← (List.range count).foldlM install cache
  let cache := { cache with log := clearHeader cache.log }
  let cache := writeHeader sblock cache
  .ok { cache with log := finishCommit cache.log }

/-- `cache_end_op(ctx)` -/
def cacheEndOp (sblock : SuperBlock) (cache : Cache) : Except Stop Cache :=
  match cacheEndOpSection cache.log with
  | .ok (.leave, log) => .ok { cache with log := log }
  | .ok (.commit, log) => commit sblock { cache with log := log }
  | .error panic => .error (.panic panic)

/-- One round of the recovery loop of `init_bcache`. -/
def copyFromLog (sblock : SuperBlock) (cache : Cache) (index : Nat) :
    Except Stop Cache :=
  if logMaxSize ≤ index then
    -- `header.block_no[i]` lies behind the array.
    .error .undefined
  else
    transfer cache (sblock.logBlock index) (cache.log.header.blockNo index)

/--
`memset(header.block_no, 0, LOG_MAX_SIZE)`: the size counts bytes, so the
first seven block numbers and seven bytes of the eighth are zeroed.
-/
def zeroBlockNo (blockNo : Nat → BlockNo) (index : Nat) : BlockNo :=
  if index < logMaxSize / 8 then 0
  else if index = logMaxSize / 8 then
    blockNo index &&& 0xFF00000000000000
  else blockNo index

/-- The static variables before the recovery loop of `init_bcache`. -/
def bootCache (sblock : SuperBlock) (disk : Disk) : Cache where
  device := { initial := disk, writes := [] }
  head := []
  blockNum := 0
  log :=
    { header := LogHeader.decode (disk sblock.headerBlock)
      iscommit := false
      outstanding := 0 }

/-- The log after the recovery loop of `init_bcache`. -/
def emptyLog (log : Log) : Log :=
  { log with
    header :=
      { numBlocks := 0, blockNo := zeroBlockNo log.header.blockNo } }

/-- `init_bcache(sblock, device)` -/
def initBcache (sblock : SuperBlock) (disk : Disk) : Except Stop Cache := do
  let cache := bootCache sblock disk
  let count := cache.log.header.numBlocks
  let cache ← (List.range count).foldlM (copyFromLog sblock) cache
  .ok (writeHeader sblock { cache with log := emptyLog cache.log })

end FudanOS.Fs.BlockCache
