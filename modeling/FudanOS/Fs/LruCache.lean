import FudanOS.Fs.BlockBitmap
import FudanOS.Fs.LogCommit
import FudanOS.Library.Runs

/-!
# The order of the block cache

One thread uses `fs/cache.c`, and every acquisition is recorded: those of the
thread and those which `init_bcache`, `cache_end_op`, `cache_alloc` and
`cache_free` make on its behalf.  The list of cached blocks is in the order of
their last acquisitions, and a miss drops idle blocks from the end of it.

The second half shows that the programs with records compute what the
functions of `BlockCache` compute.
-/

namespace FudanOS.Fs.LruCache

open FudanOS.Library.Programs
open FudanOS.Library.Runs
open FudanOS.Fs.Defines
open FudanOS.Fs.Eviction
open FudanOS.Fs.LogSections
open FudanOS.Fs.BlockCache
open FudanOS.Fs.CacheRefinement
open FudanOS.Fs.LogCommit (roomySuperBlock zeroDisk)
open FudanOS.Fs.BlockBitmap (bitPerBlock mask setByte clearByte?)

/-- A call of `cache_acquire` which has returned. -/
structure Acquisition where
  blockNo : BlockNo
  before : Cache
  after : Cache

/-- The cache, and the acquisitions so far, the last one first. -/
structure Traced where
  cache : Cache
  acquired : List Acquisition

/-- Why a call does not return. -/
inductive Halt where
  | cache (stop : BlockCache.Stop)
  /-- `cache_alloc` panics. -/
  | noFreeBlock
  deriving DecidableEq

/-- A program which uses the cache. -/
abbrev CacheProgram (Value : Type) := Program Traced Halt Value

/-! ## The functions of the cache -/

section Functions

variable {Value : Type}

/-- A function which acquires nothing. -/
def onCache (function : Cache → Except BlockCache.Stop (Cache × Value)) :
    CacheProgram Value :=
  fun traced =>
    match function traced.cache with
    | .ok (cache, value) => .ok (value, { traced with cache := cache })
    | .error stop => .error (.cache stop)

/-- A function which acquires nothing and returns nothing. -/
def onCacheUnit (function : Cache → Except BlockCache.Stop Cache) :
    CacheProgram Unit :=
  onCache fun cache => (function cache).map fun cache => (cache, ())

/-- `cache_acquire(block_no)` -/
def acquire (blockNo : BlockNo) : CacheProgram Unit :=
  fun traced =>
    match cacheAcquire traced.cache blockNo with
    | .ok cache =>
        .ok ((),
          { cache := cache
            acquired := ⟨blockNo, traced.cache, cache⟩ :: traced.acquired })
    | .error stop => .error (.cache stop)

/-- `cache_release(block)` -/
def release (blockNo : BlockNo) : CacheProgram Unit :=
  onCacheUnit fun cache => cacheRelease cache blockNo

/-- A change of `block->data`. -/
def write (blockNo : BlockNo) (data : BlockData) : CacheProgram Unit :=
  onCacheUnit fun cache => setData cache blockNo data

/-- `block->data` -/
def read (blockNo : BlockNo) : CacheProgram BlockData :=
  onCache fun cache =>
    match lookup cache.head blockNo with
    | some block => .ok (cache, block.data)
    | none => .error .undefined

/-- `cache_sync(ctx, block)` -/
def sync (ctx : OpContext) (blockNo : BlockNo) : CacheProgram OpContext :=
  onCache fun cache => cacheSync cache ctx blockNo

/-- `cache_sync(NULL, block)` -/
def syncNull (blockNo : BlockNo) : CacheProgram Unit :=
  onCacheUnit fun cache => cacheSyncNull cache blockNo

/-- `cache_begin_op(ctx)` -/
def beginOp : CacheProgram OpContext :=
  onCache cacheBeginOp

/-- `log` and `header` -/
def getLog : CacheProgram Log := do
  return (← get).cache.log

def setLog (log : Log) : CacheProgram Unit :=
  onCacheUnit fun cache => .ok { cache with log := log }

variable (sblock : SuperBlock)

/-- Copy one block and write the copy, holding both blocks. -/
def transfer (source target : BlockNo) : CacheProgram Unit := do
  acquire source
  acquire target
  onCacheUnit fun cache => copyData cache source target
  syncNull target
  release source
  release target

/-- One round of the loop of `cache_end_op` which fills the log. -/
def copyToLog (index : Nat) : CacheProgram Unit := do
  transfer ((← getLog).header.blockNo index) (sblock.logBlock index)

/-- One round of the loop of `cache_end_op` which installs the blocks. -/
def install (index : Nat) : CacheProgram Unit := do
  let blockNo := (← getLog).header.blockNo index
  acquire blockNo
  syncNull blockNo
  onCacheUnit fun cache => setPinned cache blockNo false
  release blockNo

/-- `write_header()` -/
def writeHeader : CacheProgram Unit :=
  onCacheUnit fun cache => .ok (BlockCache.writeHeader sblock cache)

/-- A loop `for (i = 0; i < count; i++)`. -/
def forEach (body : Nat → CacheProgram Unit) : List Nat → CacheProgram Unit
  | [] => return ()
  | index :: rest => do
      body index
      forEach body rest

/-- The committing part of `cache_end_op`. -/
def commit : CacheProgram Unit := do
  let count := (← getLog).header.numBlocks
  forEach (copyToLog sblock) (List.range count)
  writeHeader sblock
  forEach install (List.range count)
  setLog (clearHeader (← getLog))
  writeHeader sblock
  setLog (finishCommit (← getLog))

/-- `cache_end_op(ctx)` -/
def endOp : CacheProgram Unit := do
  match cacheEndOpSection (← getLog) with
  | .ok (.leave, log) => setLog log
  | .ok (.commit, log) => do
      setLog log
      commit sblock
  | .error panic => throw (.cache (.panic panic))

/-- One round of the recovery loop of `init_bcache`. -/
def copyFromLog (index : Nat) : CacheProgram Unit := do
  if logMaxSize ≤ index then
    throw (.cache .undefined)
  else
    transfer (sblock.logBlock index) ((← getLog).header.blockNo index)

/-- `init_bcache(sblock, device)` once the log header is read. -/
def initBcache : CacheProgram Unit := do
  let count := (← getLog).header.numBlocks
  forEach (copyFromLog sblock) (List.range count)
  setLog (emptyLog (← getLog))
  writeHeader sblock

/-- `cache_alloc` once it has found a clear bit of a bitmap block. -/
def takeBlock (ctx : OpContext) (mapBlock : BlockNo)
    (group mapByte mapBit : Nat) (data : BlockData) :
    CacheProgram BlockNo := do
  write mapBlock
    (setByte data mapByte (byteAt data mapByte + mask mapBit))
  let ctx ← sync ctx mapBlock
  release mapBlock
  let blockNo :=
    UInt64.ofNat (group * bitPerBlock + mapByte * 8 + mapBit)
  acquire blockNo
  write blockNo fun _ => 0
  let _ ← sync ctx blockNo
  release blockNo
  return blockNo

/-- The body of the outer loop of `cache_alloc`, for one bitmap block. -/
def searchGroup (ctx : OpContext) (group : Nat)
    (next : CacheProgram BlockNo) : CacheProgram BlockNo := do
  let mapBlock := sblock.bitmapStart.toUInt64 + UInt64.ofNat group
  acquire mapBlock
  let data ← read mapBlock
  match clearByte? sblock (group * bitPerBlock) data with
  | some (mapByte, mapBit) =>
      takeBlock ctx mapBlock group mapByte mapBit data
  | none => do
      release mapBlock
      next

/-- The outer loop of `cache_alloc`, over the bitmap blocks. -/
def allocFrom (ctx : OpContext) : List Nat → CacheProgram BlockNo
  | [] => throw .noFreeBlock
  | group :: rest => searchGroup sblock ctx group (allocFrom ctx rest)

/-- `cache_alloc(ctx)` -/
def alloc (ctx : OpContext) : CacheProgram BlockNo :=
  allocFrom sblock ctx
    (List.range
      ((sblock.numBlocks.toNat + bitPerBlock - 1) / bitPerBlock))

/-- `cache_free(ctx, block_no)` -/
def free (ctx : OpContext) (blockNo : BlockNo) : CacheProgram Unit := do
  let mapBlock :=
    sblock.bitmapStart.toUInt64 +
      UInt64.ofNat (blockNo.toNat / bitPerBlock)
  acquire mapBlock
  let data ← read mapBlock
  let mapByte := blockNo.toNat % bitPerBlock / 8
  let mapBit := blockNo.toNat % bitPerBlock % 8
  write mapBlock
    (setByte data mapByte (byteAt data mapByte - mask mapBit))
  let _ ← sync ctx mapBlock
  release mapBlock

end Functions

/-- A call of the one thread; contexts and data are up to the caller. -/
inductive Call where
  | acquire (blockNo : BlockNo)
  | release (blockNo : BlockNo)
  | write (blockNo : BlockNo) (data : BlockData)
  | sync (ctx : OpContext) (blockNo : BlockNo)
  | syncNull (blockNo : BlockNo)
  | beginOp
  | endOp
  | alloc (ctx : OpContext)
  | free (ctx : OpContext) (blockNo : BlockNo)

/-- What a call runs; what it returns is with the caller. -/
def program (sblock : SuperBlock) : Call → CacheProgram Unit
  | .acquire blockNo => LruCache.acquire blockNo
  | .release blockNo => LruCache.release blockNo
  | .write blockNo data => LruCache.write blockNo data
  | .sync ctx blockNo => do
      let _ ← LruCache.sync ctx blockNo
  | .syncNull blockNo => LruCache.syncNull blockNo
  | .beginOp => do
      let _ ← LruCache.beginOp
  | .endOp => LruCache.endOp sblock
  | .alloc ctx => do
      let _ ← LruCache.alloc sblock ctx
  | .free ctx blockNo => LruCache.free sblock ctx blockNo

/-- One call. -/
def step
    (sblock : SuperBlock)
    (traced : Traced)
    (call : Call) : Except Halt Traced :=
  match (program sblock call).run traced with
  | .ok (_, target) => .ok target
  | .error halt => .error halt

/-- The static variables before the recovery loop of `init_bcache`. -/
def boot (sblock : SuperBlock) (disk : Disk) : Traced where
  cache := bootCache sblock disk
  acquired := []

/-! ## What an acquisition does -/

/-- The numbers of the cached blocks, in the order of the list. -/
def numbers (cache : Cache) : List BlockNo :=
  cache.head.map Block.blockNo

/--
The blocks have all been acquired, and a block is before another one when its
last acquisition is later.
-/
structure ByRecency (history : List BlockNo) (numbers : List BlockNo) :
    Prop where
  acquired : ∀ blockNo ∈ numbers, blockNo ∈ history
  ordered :
    numbers.Pairwise fun left right =>
      history.idxOf left < history.idxOf right

/-- What an acquisition found, after the earlier ones, and what it did. -/
structure LeastRecentFirst
    (earlier : List BlockNo)
    (acquisition : Acquisition) : Prop where
  ordered : ByRecency earlier (numbers acquisition.before)
  /-- A hit drops nothing. -/
  hit :
    acquisition.blockNo ∈ numbers acquisition.before →
      acquisition.after.blockNum = acquisition.before.blockNum ∧
        (numbers acquisition.after).Perm (numbers acquisition.before)
  /-- A miss drops the victims and adds its block. -/
  miss :
    acquisition.blockNo ∉ numbers acquisition.before →
      ∃ block : Block,
        block.blockNo = acquisition.blockNo ∧
          acquisition.after.head =
            block ::
              without Block.blockNo
                ((victims Block.idle acquisition.before.blockNum
                  acquisition.before.head).map Block.blockNo)
                acquisition.before.head
  bound :
    acquisition.blockNo ∉ numbers acquisition.before →
      acquisition.after.blockNum ≤
        max evictionThreshold
          (1 + acquisition.before.head.countP fun block => !block.idle)

/-- What holds after every function of the cache. -/
structure Orderly (traced : Traced) : Prop where
  counted : traced.cache.head.length = traced.cache.blockNum
  ordered :
    ByRecency (traced.acquired.map Acquisition.blockNo)
      (numbers traced.cache)
  recorded :
    ∀ earlier acquisition,
      (acquisition :: earlier) <:+ traced.acquired →
        LeastRecentFirst (earlier.map Acquisition.blockNo) acquisition

section Acquire

variable
    {history numbers : List BlockNo}
    {blockNo : BlockNo}
    {traced : Traced}

theorem ByRecency.nodup
    (byRecency : ByRecency history numbers) :
    numbers.Nodup := by
  refine byRecency.ordered.imp ?_
  intro left right before same
  rw [same] at before
  exact Nat.lt_irrefl _ before

/-- Blocks may be left out. -/
theorem ByRecency.sublist
    (byRecency : ByRecency history numbers)
    {kept : List BlockNo}
    (sublist : kept.Sublist numbers) :
    ByRecency history kept := by
  constructor
  · intro blockNo member
    exact byRecency.acquired blockNo (sublist.subset member)
  · exact byRecency.ordered.sublist sublist

/-- The block which is acquired comes first. -/
theorem ByRecency.push
    (byRecency : ByRecency history numbers)
    (absent : blockNo ∉ numbers) :
    ByRecency (blockNo :: history) (blockNo :: numbers) := by
  have later :
      ∀ other ∈ numbers,
        (blockNo :: history).idxOf other = history.idxOf other + 1 := by
    intro other member
    refine List.idxOf_cons_ne _ ?_
    intro same
    exact absent (same ▸ member)
  constructor
  · intro other member
    rcases List.mem_cons.mp member with rfl | there
    · exact List.mem_cons_self
    · exact List.mem_cons_of_mem _ (byRecency.acquired other there)
  · refine List.pairwise_cons.mpr ⟨?_, ?_⟩
    · intro other member
      rw [later other member, List.idxOf_cons_self]
      exact Nat.succ_pos _
    · refine byRecency.ordered.imp_of_mem ?_
      intro left right leftMember rightMember before
      rw [later left leftMember, later right rightMember]
      exact Nat.succ_lt_succ before

theorem numbers_erase
    (head : List Block)
    (blockNo : BlockNo) :
    (head.eraseP fun other => other.blockNo == blockNo).map Block.blockNo =
      (head.map Block.blockNo).erase blockNo := by
  rw [List.erase_eq_eraseP', List.eraseP_map]
  rfl

/-- The outcomes of `cache_acquire`, by the numbers of the cached blocks. -/
inductive Acquires (cache : Cache) (blockNo : BlockNo) : Cache → Prop where
  | hit
      {target : Cache}
      (member : blockNo ∈ LruCache.numbers cache)
      (sameNumbers :
        LruCache.numbers target =
          blockNo :: (LruCache.numbers cache).erase blockNo)
      (sameNum : target.blockNum = cache.blockNum) :
      Acquires cache blockNo target
  | miss
      {target : Cache}
      {block : Block}
      (absent : blockNo ∉ LruCache.numbers cache)
      (number : block.blockNo = blockNo)
      (head :
        target.head = block :: (evict Block.idle cache.blockNum cache.head).2)
      (blockNum :
        target.blockNum =
          (evict Block.idle cache.blockNum cache.head).1 + 1) :
      Acquires cache blockNo target

theorem acquires
    {cache target : Cache}
    (returned : cacheAcquire cache blockNo = .ok target) :
    Acquires cache blockNo target := by
  unfold cacheAcquire at returned
  cases found : lookup cache.head blockNo with
  | some block =>
      rw [found] at returned
      dsimp only at returned
      split_ifs at returned
      cases returned
      rcases lookup_some found with ⟨member, number⟩
      refine Acquires.hit ?_ ?_ rfl
      · rw [← number]
        exact List.mem_map_of_mem member
      · unfold LruCache.numbers
        rw [List.map_cons, numbers_erase, number]
  | none =>
      rw [found] at returned
      cases returned
      exact Acquires.miss (lookup_none.mp found) rfl rfl rfl

/-- One acquisition, in a cache whose list is in order. -/
theorem Orderly.acquired
    (orderly : Orderly traced)
    {cache : Cache}
    (acquires : Acquires traced.cache blockNo cache) :
    LeastRecentFirst (traced.acquired.map Acquisition.blockNo)
        ⟨blockNo, traced.cache, cache⟩ ∧
      cache.head.length = cache.blockNum ∧
        ByRecency (blockNo :: traced.acquired.map Acquisition.blockNo)
          (LruCache.numbers cache) := by
  have counted := orderly.counted
  have nodup := orderly.ordered.nodup
  cases acquires with
  | hit member sameNumbers sameNum =>
      have perm :
          (LruCache.numbers cache).Perm (LruCache.numbers traced.cache) := by
        rw [sameNumbers]
        exact (List.perm_cons_erase member).symm
      have sameLength : cache.head.length = traced.cache.head.length := by
        have lengths := perm.length_eq
        unfold LruCache.numbers at lengths
        rw [List.length_map, List.length_map] at lengths
        exact lengths
      refine ⟨⟨orderly.ordered, ?_, ?_, ?_⟩, ?_, ?_⟩
      · exact fun _ => ⟨sameNum, perm⟩
      · exact fun absent => absurd member absent
      · exact fun absent => absurd member absent
      · rw [sameLength, sameNum]
        exact counted
      · rw [sameNumbers]
        refine ByRecency.push ?_ nodup.not_mem_erase
        exact orderly.ordered.sublist List.erase_sublist
  | miss absent number head blockNum =>
      have evicted :=
        evict_spec Block.idle traced.cache.blockNum traced.cache.head
      refine ⟨⟨orderly.ordered, ?_, ?_, ?_⟩, ?_, ?_⟩
      · exact fun member => absurd member absent
      · intro _
        refine ⟨_, number, head.trans ?_⟩
        rw [evict_eq Block.idle Block.blockNo nodup]
      · intro _
        dsimp only
        rw [blockNum]
        exact evict_bound Block.idle counted
      · have count := evicted.count
        rw [head, blockNum, List.length_cons]
        omega
      · unfold LruCache.numbers
        rw [head, List.map_cons, number]
        have kept := evicted.sublist.map Block.blockNo
        refine ByRecency.push (orderly.ordered.sublist kept) ?_
        exact fun member => absent (kept.subset member)

/-! ## Programs keep the order -/

/-- A program keeps the list of cached blocks in order. -/
def Keeps {Value : Type} (program : CacheProgram Value) : Prop :=
  ∀ traced, Orderly traced →
    Ensures (fun _ => True) program traced fun _ target => Orderly target

end Acquire

section Programs

variable {Value Result : Type}

theorem keeps_pure
    (value : Value) :
    Keeps (pure value : CacheProgram Value) :=
  fun _ orderly => orderly

theorem keeps_throw
    (halt : Halt) :
    Keeps (throw halt : CacheProgram Value) :=
  fun _ _ => trivial

theorem Keeps.bind
    {program : CacheProgram Value}
    {next : Value → CacheProgram Result}
    (first : Keeps program)
    (rest : ∀ value, Keeps (next value)) :
    Keeps (program >>= next) := by
  intro traced orderly
  rw [ensures_bind]
  refine (first traced orderly).mono ?_
  exact fun value target => rest value target

theorem keeps_ite
    {condition : Prop}
    [Decidable condition]
    {yes no : CacheProgram Value}
    (whenTrue : Keeps yes)
    (whenFalse : Keeps no) :
    Keeps (if condition then yes else no) := by
  split_ifs
  · exact whenTrue
  · exact whenFalse

theorem keeps_forEach
    {body : Nat → CacheProgram Unit}
    (keeps : ∀ index, Keeps (body index))
    (indices : List Nat) :
    Keeps (forEach body indices) := by
  induction indices with
  | nil => exact keeps_pure ()
  | cons index rest ih => exact (keeps index).bind fun _ => ih

/-- Only a call which acquires a block changes the order. -/
theorem keeps_onCache
    {function : Cache → Except BlockCache.Stop (Cache × Value)}
    (same :
      ∀ cache target value,
        function cache = .ok (target, value) →
          numbers target = numbers cache ∧
            target.blockNum = cache.blockNum) :
    Keeps (onCache function) := by
  intro traced orderly
  unfold Ensures onCache StateT.run
  dsimp only
  cases returned : function traced.cache with
  | error stop => trivial
  | ok result =>
      rcases result with ⟨target, value⟩
      rcases same _ _ _ returned with ⟨sameNumbers, sameNum⟩
      have sameLength :
          target.head.length = traced.cache.head.length := by
        have lengths := congrArg List.length sameNumbers
        unfold numbers at lengths
        rw [List.length_map, List.length_map] at lengths
        exact lengths
      refine ⟨?_, ?_, orderly.recorded⟩
      · exact sameLength.trans (orderly.counted.trans sameNum.symm)
      · dsimp only
        rw [sameNumbers]
        exact orderly.ordered

theorem keeps_onCacheUnit
    {function : Cache → Except BlockCache.Stop Cache}
    (same :
      ∀ cache target,
        function cache = .ok target →
          numbers target = numbers cache ∧
            target.blockNum = cache.blockNum) :
    Keeps (onCacheUnit function) := by
  refine keeps_onCache ?_
  intro cache target value returned
  cases found : function cache with
  | error stop =>
      rw [found] at returned
      cases returned
  | ok result =>
      rw [found] at returned
      cases returned
      exact same cache target found

theorem keeps_acquire
    (blockNo : BlockNo) :
    Keeps (acquire blockNo) := by
  intro traced orderly
  unfold Ensures acquire StateT.run
  dsimp only
  cases returned : cacheAcquire traced.cache blockNo with
  | error stop => trivial
  | ok cache =>
      rcases orderly.acquired (acquires returned) with
        ⟨recorded, counted, ordered⟩
      refine ⟨counted, ordered, ?_⟩
      intro earlier acquisition suffix
      rcases List.suffix_cons_iff.mp suffix with here | there
      · cases here
        exact recorded
      · exact orderly.recorded earlier acquisition there

/-- Writing to the fields of a block keeps the numbers. -/
theorem change_numbers
    {cache target : Cache}
    {blockNo : BlockNo}
    {edit : Block → Block}
    (sameNo : ∀ block, (edit block).blockNo = block.blockNo)
    (changed : change cache blockNo edit = .ok target) :
    numbers target = numbers cache ∧ target.blockNum = cache.blockNum := by
  unfold change at changed
  split at changed
  · cases changed
    exact ⟨map_blockNo_updateBlock sameNo, rfl⟩
  · cases changed

theorem keeps_change
    (blockNo : BlockNo)
    {edit : Block → Block}
    (sameNo : ∀ block, (edit block).blockNo = block.blockNo) :
    Keeps (onCacheUnit fun cache => change cache blockNo edit) :=
  keeps_onCacheUnit fun _ _ changed => change_numbers sameNo changed

theorem keeps_release
    (blockNo : BlockNo) :
    Keeps (release blockNo) :=
  keeps_change blockNo fun _ => rfl

theorem keeps_write
    (blockNo : BlockNo)
    (data : BlockData) :
    Keeps (write blockNo data) :=
  keeps_change blockNo fun _ => rfl

theorem keeps_setPinned
    (blockNo : BlockNo)
    (pinned : Bool) :
    Keeps (onCacheUnit fun cache => setPinned cache blockNo pinned) :=
  keeps_change blockNo fun _ => rfl

theorem keeps_read
    (blockNo : BlockNo) :
    Keeps (read blockNo) := by
  refine keeps_onCache ?_
  intro cache target value returned
  split at returned
  · cases returned
    exact ⟨rfl, rfl⟩
  · cases returned

theorem keeps_syncNull
    (blockNo : BlockNo) :
    Keeps (syncNull blockNo) := by
  refine keeps_onCacheUnit ?_
  intro cache target returned
  unfold cacheSyncNull at returned
  split at returned
  · cases returned
    exact ⟨rfl, rfl⟩
  · cases returned

theorem keeps_sync
    (ctx : OpContext)
    (blockNo : BlockNo) :
    Keeps (sync ctx blockNo) := by
  refine keeps_onCache ?_
  intro cache target charged returned
  rcases exists_of_bind_eq_ok returned with ⟨pinned, setPinned_, logged⟩
  have kept :
      numbers pinned = numbers cache ∧ pinned.blockNum = cache.blockNum := by
    refine change_numbers ?_ setPinned_
    exact fun _ => rfl
  split at logged
  · cases logged
    exact kept
  · cases logged

theorem keeps_beginOp : Keeps beginOp := by
  refine keeps_onCache ?_
  intro cache target ctx returned
  unfold cacheBeginOp at returned
  split_ifs at returned
  cases returned
  exact ⟨rfl, rfl⟩

theorem keeps_getLog : Keeps getLog :=
  fun _ orderly => orderly

theorem keeps_setLog
    (log : Log) :
    Keeps (setLog log) := by
  refine keeps_onCacheUnit ?_
  intro cache target returned
  cases returned
  exact ⟨rfl, rfl⟩

variable (sblock : SuperBlock)

theorem keeps_writeHeader : Keeps (writeHeader sblock) := by
  refine keeps_onCacheUnit ?_
  intro cache target returned
  cases returned
  exact ⟨rfl, rfl⟩

theorem keeps_copyData
    (source target : BlockNo) :
    Keeps (onCacheUnit fun cache => copyData cache source target) := by
  refine keeps_onCacheUnit ?_
  intro cache after returned
  unfold copyData at returned
  split at returned
  · refine change_numbers ?_ returned
    exact fun _ => rfl
  · cases returned

theorem keeps_transfer
    (source target : BlockNo) :
    Keeps (transfer source target) := by
  unfold transfer
  refine (keeps_acquire source).bind fun _ => ?_
  refine (keeps_acquire target).bind fun _ => ?_
  refine (keeps_copyData source target).bind fun _ => ?_
  refine (keeps_syncNull target).bind fun _ => ?_
  exact (keeps_release source).bind fun _ => keeps_release target

theorem keeps_copyToLog
    (index : Nat) :
    Keeps (copyToLog sblock index) :=
  keeps_getLog.bind fun _ => keeps_transfer _ _

theorem keeps_install
    (index : Nat) :
    Keeps (install index) := by
  refine keeps_getLog.bind fun log => ?_
  refine (keeps_acquire _).bind fun _ => ?_
  refine (keeps_syncNull _).bind fun _ => ?_
  exact (keeps_setPinned _ _).bind fun _ => keeps_release _

theorem keeps_commit : Keeps (commit sblock) := by
  unfold commit
  refine keeps_getLog.bind fun log => ?_
  refine (keeps_forEach (keeps_copyToLog sblock) _).bind fun _ => ?_
  refine (keeps_writeHeader sblock).bind fun _ => ?_
  refine (keeps_forEach keeps_install _).bind fun _ => ?_
  refine keeps_getLog.bind fun _ => (keeps_setLog _).bind fun _ => ?_
  refine (keeps_writeHeader sblock).bind fun _ => ?_
  exact keeps_getLog.bind fun _ => keeps_setLog _

theorem keeps_endOp : Keeps (endOp sblock) := by
  unfold endOp
  refine keeps_getLog.bind fun log => ?_
  split
  · exact keeps_setLog _
  · exact (keeps_setLog _).bind fun _ => keeps_commit sblock
  · exact keeps_throw _

theorem keeps_initBcache : Keeps (initBcache sblock) := by
  have copies : ∀ index, Keeps (copyFromLog sblock index) := by
    intro index
    refine keeps_ite (keeps_throw _) ?_
    exact keeps_getLog.bind fun _ => keeps_transfer _ _
  unfold initBcache
  refine keeps_getLog.bind fun log => ?_
  refine (keeps_forEach copies _).bind fun _ => ?_
  refine keeps_getLog.bind fun _ => (keeps_setLog _).bind fun _ => ?_
  exact keeps_writeHeader sblock

theorem keeps_takeBlock
    (ctx : OpContext)
    (mapBlock : BlockNo)
    (group mapByte mapBit : Nat)
    (data : BlockData) :
    Keeps (takeBlock ctx mapBlock group mapByte mapBit data) := by
  unfold takeBlock
  refine (keeps_write _ _).bind fun _ => (keeps_sync _ _).bind fun _ => ?_
  refine (keeps_release _).bind fun _ => (keeps_acquire _).bind fun _ => ?_
  refine (keeps_write _ _).bind fun _ => (keeps_sync _ _).bind fun _ => ?_
  exact (keeps_release _).bind fun _ => keeps_pure _

theorem keeps_searchGroup
    (ctx : OpContext)
    (group : Nat)
    {next : CacheProgram BlockNo}
    (keeps : Keeps next) :
    Keeps (searchGroup sblock ctx group next) := by
  unfold searchGroup
  refine (keeps_acquire _).bind fun _ => (keeps_read _).bind fun data => ?_
  split
  · exact keeps_takeBlock _ _ _ _ _ _
  · exact (keeps_release _).bind fun _ => keeps

theorem keeps_alloc
    (ctx : OpContext) :
    Keeps (alloc sblock ctx) := by
  have from_ :
      ∀ groups, Keeps (allocFrom sblock ctx groups) := by
    intro groups
    induction groups with
    | nil => exact keeps_throw _
    | cons group rest ih => exact keeps_searchGroup sblock ctx group ih
  exact from_ _

theorem keeps_free
    (ctx : OpContext)
    (blockNo : BlockNo) :
    Keeps (free sblock ctx blockNo) := by
  unfold free
  refine (keeps_acquire _).bind fun _ => (keeps_read _).bind fun data => ?_
  refine (keeps_write _ _).bind fun _ => (keeps_sync _ _).bind fun _ => ?_
  exact keeps_release _

/-- Every call keeps the list of cached blocks in order. -/
theorem keeps_program
    (call : Call) :
    Keeps (program sblock call) := by
  cases call with
  | acquire blockNo => exact keeps_acquire blockNo
  | release blockNo => exact keeps_release blockNo
  | write blockNo data => exact keeps_write blockNo data
  | sync ctx blockNo => exact (keeps_sync ctx blockNo).bind fun _ => keeps_pure ()
  | syncNull blockNo => exact keeps_syncNull blockNo
  | beginOp => exact keeps_beginOp.bind fun _ => keeps_pure ()
  | endOp => exact keeps_endOp sblock
  | alloc ctx => exact (keeps_alloc sblock ctx).bind fun _ => keeps_pure ()
  | free ctx blockNo => exact keeps_free sblock ctx blockNo

end Programs

/-! ## Runs -/

section Runs

variable
    {sblock : SuperBlock}
    {disk : Disk}
    {start finish : Traced}

theorem orderly_boot : Orderly (boot sblock disk) := by
  refine ⟨rfl, ⟨?_, List.Pairwise.nil⟩, ?_⟩
  · intro blockNo member
    cases member
  · intro earlier acquisition suffix
    cases List.suffix_nil.mp suffix

theorem run_orderly
    (booted : (initBcache sblock).run (boot sblock disk) = .ok ((), start))
    {calls : List Call}
    (run :
      Run (Takes (step sblock)) (fun _ _ => True) start calls finish) :
    Orderly finish := by
  have initially : Orderly start :=
    (keeps_initBcache sblock _ orderly_boot).of_run booted
  refine run.invariant initially ?_
  intro source call target orderly _ taken
  unfold Takes step at taken
  split at taken
  · rename_i value after returned
    cases taken
    exact (keeps_program sblock call source orderly).of_run returned
  · cases taken

/--
In every state the list is in the order of the last acquisitions, and
`block_num` is its length.  Every acquisition since `init_bcache`, by the
thread or on its behalf, found the list in this order, dropped nothing on a
hit, and on a miss dropped the idle blocks which had been acquired least
recently, as many as it takes to get below the threshold or all of them.
-/
theorem least_recent_dropped
    (booted : (initBcache sblock).run (boot sblock disk) = .ok ((), start))
    {calls : List Call}
    (run :
      Run (Takes (step sblock)) (fun _ _ => True) start calls finish) :
    ByRecency (finish.acquired.map Acquisition.blockNo)
        (numbers finish.cache) ∧
      finish.cache.head.length = finish.cache.blockNum ∧
        ∀ earlier acquisition,
          (acquisition :: earlier) <:+ finish.acquired →
            LeastRecentFirst (earlier.map Acquisition.blockNo)
              acquisition := by
  have orderly := run_orderly booted run
  exact ⟨orderly.ordered, orderly.counted, orderly.recorded⟩

end Runs

/-! ## The programs without their records -/

/-- Without its records, the program computes the given result. -/
def Computes
    (traced : Traced)
    (program : CacheProgram Unit)
    (result : Except BlockCache.Stop Cache) : Prop :=
  (program.run traced).map (fun outcome => outcome.2.cache) =
    result.mapError Halt.cache

section Computes

variable {traced : Traced}

theorem Computes.bind
    {first second : CacheProgram Unit}
    {result : Except BlockCache.Stop Cache}
    {next : Cache → Except BlockCache.Stop Cache}
    (computes : Computes traced first result)
    (continues :
      ∀ target : Traced, Computes target second (next target.cache)) :
    Computes traced (do first; second) (result >>= next) := by
  unfold Computes at computes ⊢
  rw [StateT.run_bind]
  cases ran : first.run traced with
  | error halt =>
      rw [ran] at computes
      cases result with
      | error stop => exact computes
      | ok cache => cases computes
  | ok outcome =>
      rw [ran] at computes
      cases result with
      | error stop => cases computes
      | ok cache =>
          cases computes
          exact continues outcome.2

theorem computes_getLog
    {next : Log → CacheProgram Unit}
    {result : Except BlockCache.Stop Cache}
    (computes : Computes traced (next traced.cache.log) result) :
    Computes traced (getLog >>= next) result :=
  computes

theorem computes_onCacheUnit
    (function : Cache → Except BlockCache.Stop Cache) :
    Computes traced (onCacheUnit function) (function traced.cache) := by
  unfold Computes onCacheUnit onCache StateT.run
  dsimp only
  cases function traced.cache <;> rfl

theorem computes_acquire
    (blockNo : BlockNo) :
    Computes traced (acquire blockNo) (cacheAcquire traced.cache blockNo) := by
  unfold Computes acquire StateT.run
  dsimp only
  cases cacheAcquire traced.cache blockNo <;> rfl

theorem computes_forEach
    {body : Nat → CacheProgram Unit}
    {function : Cache → Nat → Except BlockCache.Stop Cache}
    (computes :
      ∀ target index,
        Computes target (body index) (function target.cache index))
    (indices : List Nat) :
    Computes traced (forEach body indices)
      (indices.foldlM function traced.cache) := by
  induction indices generalizing traced with
  | nil => exact rfl
  | cons index rest ih =>
      rw [List.foldlM_cons]
      exact (computes traced index).bind fun _ => ih

variable {sblock : SuperBlock}

theorem computes_transfer
    (source target : BlockNo) :
    Computes traced (transfer source target)
      (BlockCache.transfer traced.cache source target) := by
  refine (computes_acquire source).bind fun _ => ?_
  refine (computes_acquire target).bind fun _ => ?_
  refine (computes_onCacheUnit _).bind fun _ => ?_
  refine (computes_onCacheUnit _).bind fun _ => ?_
  refine (computes_onCacheUnit _).bind fun _ => ?_
  exact computes_onCacheUnit _

theorem computes_install
    (index : Nat) :
    Computes traced (install index)
      (BlockCache.install traced.cache index) := by
  refine computes_getLog ?_
  refine (computes_acquire _).bind fun _ => ?_
  refine (computes_onCacheUnit _).bind fun _ => ?_
  refine (computes_onCacheUnit _).bind fun _ => ?_
  exact computes_onCacheUnit _

/-- The log is cleared and the commit ends. -/
theorem computes_finish :
    Computes traced
      (do
        setLog (clearHeader (← getLog))
        writeHeader sblock
        setLog (finishCommit (← getLog)))
      (let cache :=
        BlockCache.writeHeader sblock
          { traced.cache with log := clearHeader traced.cache.log }
      .ok { cache with log := finishCommit cache.log }) :=
  rfl

theorem computes_commit :
    Computes traced (commit sblock)
      (BlockCache.commit sblock traced.cache) := by
  unfold commit
  refine computes_getLog ?_
  refine Computes.bind (computes_forEach ?_ _) fun filled => ?_
  · exact fun _ _ => computes_transfer _ _
  have header :
      Computes filled (writeHeader sblock)
        (.ok (BlockCache.writeHeader sblock filled.cache)) :=
    rfl
  refine
    @Computes.bind filled (writeHeader sblock) _ _
      (fun cache => do
        let cache ←
          (List.range traced.cache.log.header.numBlocks).foldlM
            BlockCache.install cache
        let cache :=
          BlockCache.writeHeader sblock
            { cache with log := clearHeader cache.log }
        .ok { cache with log := finishCommit cache.log })
      header fun written => ?_
  refine Computes.bind (computes_forEach ?_ _) fun _ => computes_finish
  exact fun _ _ => computes_install _

theorem computes_endOp :
    Computes traced (endOp sblock) (cacheEndOp sblock traced.cache) := by
  unfold endOp cacheEndOp
  refine computes_getLog ?_
  cases cacheEndOpSection traced.cache.log with
  | error panic => rfl
  | ok result =>
      rcases result with ⟨next, log⟩
      cases next with
      | leave => rfl
      | commit =>
          have logged :
              Computes traced (setLog log)
                (.ok { traced.cache with log := log }) :=
            rfl
          exact logged.bind fun _ => computes_commit

/-- The recovery of the log, from the variables as they are at boot. -/
theorem computes_initBcache
    (disk : Disk) :
    Computes (boot sblock disk) (initBcache sblock)
      (BlockCache.initBcache sblock disk) := by
  have copies :
      ∀ target index,
        Computes target (copyFromLog sblock index)
          (BlockCache.copyFromLog sblock target.cache index) := by
    intro target index
    unfold copyFromLog BlockCache.copyFromLog
    split_ifs
    · rfl
    · exact computes_getLog (computes_transfer _ _)
  unfold initBcache
  refine computes_getLog ?_
  refine Computes.bind (computes_forEach copies _) fun copied => ?_
  rfl

end Computes

/-! ## A commit, and more blocks than the threshold -/

/-- One block is written in an operation, and twenty others are read. -/
def writeAndRead : List Call :=
  [.beginOp, .acquire 300, .write 300 fun _ => 1, .sync ⟨0⟩ 300,
    .release 300, .endOp] ++
    (List.range 20).flatMap fun index =>
      [.acquire (UInt64.ofNat (400 + index)),
        .release (UInt64.ofNat (400 + index))]

/-- The state after the calls on the disk of zeros. -/
def runZero (calls : List Call) : Option (Traced × Traced) :=
  match (initBcache roomySuperBlock).run (boot roomySuperBlock zeroDisk) with
  | .ok (_, start) =>
      (executeChecked (step roomySuperBlock) (fun _ _ => true) start
        calls).map fun finish => (start, finish)
  | .error _ => none

theorem least_recent_dropped_commit :
    ∃ start finish,
      (initBcache roomySuperBlock).run (boot roomySuperBlock zeroDisk) =
          .ok ((), start) ∧
        Run (Takes (step roomySuperBlock)) (fun _ _ => True) start
          writeAndRead finish ∧
        finish.acquired.length = 24 ∧
        finish.cache.blockNum = 20 ∧
        300 ∉ numbers finish.cache ∧
        ByRecency (finish.acquired.map Acquisition.blockNo)
          (numbers finish.cache) := by
  have computed :
      ((runZero writeAndRead).map fun result =>
        (result.2.acquired.length, result.2.cache.blockNum,
          decide (300 ∈ numbers result.2.cache))) =
        some (24, 20, false) := by
    decide +kernel
  rcases Option.map_eq_some_iff.mp computed with
    ⟨⟨start, finish⟩, ran, values⟩
  simp only [Prod.mk.injEq, decide_eq_false_iff_not] at values
  rcases values with ⟨length, blockNum, absent⟩
  unfold runZero at ran
  split at ran
  · rename_i value reached booted
    rcases Option.map_eq_some_iff.mp ran with ⟨finish, executed, same⟩
    cases same
    have run :
        Run (Takes (step roomySuperBlock)) (fun _ _ => True) start
          writeAndRead finish :=
      Run.of_executeChecked (fun _ _ _ => trivial) executed
    exact ⟨start, finish, booted, run, length, blockNum, absent,
      (least_recent_dropped booted run).1⟩
  · cases ran

end FudanOS.Fs.LruCache
