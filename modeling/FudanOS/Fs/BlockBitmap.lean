import FudanOS.Fs.Defines
import FudanOS.Library.Programs
import Mathlib.Data.List.TakeWhile
import Mathlib.Tactic.IntervalCases

/-!
# The allocation bitmap

`cache_alloc` and `cache_free` of `fs/cache.c`, and the interface of the block
cache which they and the inode layer use.  One thread sees the cache as a
store of blocks; `BlockStore` shows that the cache acts as one.  A `Store`
also keeps the blocks which the thread has acquired, since acquiring one of
them again never returns, and what the running operation has put in the log,
since `cache_sync` panics when the budget of the operation is spent.
-/

namespace FudanOS.Fs.BlockBitmap

open FudanOS.Fs.Defines
open FudanOS.Library.Programs

/-- `BIT_PER_BLOCK` -/
def bitPerBlock : Nat := blockSize * 8

/-- Why a call does not return. -/
inductive Stop where
  /-- An `ASSERT` fails. -/
  | assertion
  /-- The thread waits for a block which it has acquired itself. -/
  | deadlock
  /-- A C string has no end within its array. -/
  | overrun
  /-- `cache_sync` panics: the operation or the log is full. -/
  | budget
  /-- `cache_alloc` panics. -/
  | noFreeBlock
  /-- `inode_alloc` panics. -/
  | noFreeInode
  deriving DecidableEq

/-- The reasons which a caller cannot rule out. -/
def Stop.Exhausted (stop : Stop) : Prop :=
  stop = .budget ∨ stop = .noFreeBlock ∨ stop = .noFreeInode

/-- The blocks as one thread sees them through the cache. -/
structure Store where
  blocks : Nat → BlockData
  /-- The blocks which the thread has acquired and not released. -/
  held : List Nat
  /-- The block numbers in the log header. -/
  logged : List Nat
  /-- `ctx->rm` of the running operation. -/
  rm : Nat

/-- `cache->acquire(block_no)` and the bytes of the block. -/
def acquire (blockNo : Nat) : Program Store Stop BlockData := do
  let store ← get
  if blockNo ∈ store.held then
    throw .deadlock
  else
    set { store with held := blockNo :: store.held }
    return store.blocks blockNo

/-- `cache->release(block)` -/
def release (blockNo : Nat) : Program Store Stop Unit :=
  modify fun store => { store with held := store.held.erase blockNo }

/-- A change of `block->data`. -/
def write (blockNo : Nat) (data : BlockData) : Program Store Stop Unit :=
  modify fun store =>
    { store with blocks := Function.update store.blocks blockNo data }

/-- `cache->sync(ctx, block)` with `ctx` not `NULL` -/
def sync (blockNo : Nat) : Program Store Stop Unit := do
  let store ← get
  if blockNo ∈ store.logged then
    return ()
  else if opMaxNumBlocks ≤ store.rm ∨ logMaxSize ≤ store.logged.length then
    throw .budget
  else
    set { store with
      logged := store.logged ++ [blockNo]
      rm := store.rm + 1 }

/-! ## Bits of a byte -/

/-- `1 << bit`, as a byte. -/
def mask (bit : Nat) : UInt8 :=
  1 <<< UInt8.ofNat bit

def hasBit (byte : UInt8) (bit : Nat) : Bool :=
  byte.toBitVec.getLsbD bit

theorem mask_toBitVec
    {bit : Nat}
    (below : bit < 8) :
    (mask bit).toBitVec = BitVec.twoPow 8 bit := by
  interval_cases bit <;> rfl

/-- The test of `cache_alloc`. -/
theorem and_mask_eq_zero
    {byte : UInt8}
    {bit : Nat}
    (below : bit < 8) :
    byte &&& mask bit = 0 ↔ hasBit byte bit = false := by
  rw [← UInt8.toBitVec_inj, UInt8.toBitVec_and, mask_toBitVec below,
    BitVec.and_twoPow, hasBit]
  cases byte.toBitVec.getLsbD bit with
  | false => simp
  | true => interval_cases bit <;> simp <;> decide

/-- Adding the mask of a clear bit sets that bit. -/
theorem hasBit_add_mask
    {byte : UInt8}
    {bit : Nat}
    (below : bit < 8)
    (clear : hasBit byte bit = false)
    (other : Nat) :
    hasBit (byte + mask bit) other =
      (decide (other = bit) || hasBit byte other) := by
  have disjoint : byte.toBitVec &&& (mask bit).toBitVec = 0#8 := by
    rw [hasBit] at clear
    rw [mask_toBitVec below, BitVec.and_twoPow]
    simp [clear]
  rw [hasBit, UInt8.toBitVec_add,
    BitVec.add_eq_or_of_and_eq_zero _ _ disjoint, BitVec.getLsbD_or,
    mask_toBitVec below, BitVec.getLsbD_twoPow, hasBit]
  by_cases same : other = bit
  · simp [same, below]
  · simp [same, Ne.symm same]

/-- Subtracting the mask of a set bit clears that bit. -/
theorem hasBit_sub_mask
    {byte : UInt8}
    {bit : Nat}
    (below : bit < 8)
    (isSet : hasBit byte bit = true)
    {other : Nat}
    (otherBelow : other < 8) :
    hasBit (byte - mask bit) other =
      (!decide (other = bit) && hasBit byte other) := by
  have disjoint :
      (byte.toBitVec &&& ~~~(mask bit).toBitVec) &&&
        (mask bit).toBitVec = 0#8 := by
    ext index
    simp
  have whole :
      (byte.toBitVec &&& ~~~(mask bit).toBitVec) + (mask bit).toBitVec =
        byte.toBitVec := by
    rw [BitVec.add_eq_or_of_and_eq_zero _ _ disjoint, mask_toBitVec below]
    ext index inside
    by_cases same : index = bit
    · subst same
      have set : byte.toBitVec[index] = true := by
        rwa [← BitVec.getLsbD_eq_getElem]
      simp [set]
    · simp [same]
  have difference :
      (byte - mask bit).toBitVec =
        byte.toBitVec &&& ~~~(mask bit).toBitVec := by
    rw [UInt8.toBitVec_sub]
    nth_rewrite 1 [← whole]
    exact BitVec.add_sub_cancel _ _
  rw [hasBit, difference, mask_toBitVec below, hasBit, BitVec.getLsbD_and,
    BitVec.getLsbD_not, BitVec.getLsbD_twoPow]
  by_cases same : other = bit
  · simp [same, below]
  · simp [same, Ne.symm same, otherBelow]

/-! ## The functions of the source -/

/-- `data[index] = value` -/
def setByte (data : BlockData) (index : Nat) (value : UInt8) : BlockData :=
  fun other => if other.val = index then value else data other

section Functions

variable (sblock : SuperBlock)

/-- The innermost loop of `cache_alloc`, over the bits of a byte. -/
def clearBit? (blockNo : Nat) (temp : UInt8) : Option Nat :=
  ((List.range 8).takeWhile fun mapBit =>
    decide (blockNo + mapBit < sblock.numBlocks.toNat)).find? fun mapBit =>
      temp &&& mask mapBit == 0

/-- The middle loop of `cache_alloc`, over the bytes of a bitmap block. -/
def clearByte? (blockStart : Nat) (data : BlockData) : Option (Nat × Nat) :=
  ((List.range blockSize).takeWhile fun mapByte =>
    decide
      (blockStart + mapByte * 8 < sblock.numBlocks.toNat)).findSome?
        fun mapByte =>
          (clearBit? sblock (blockStart + mapByte * 8)
            (byteAt data mapByte)).map fun mapBit => (mapByte, mapBit)

/-- `cache_alloc` once it has found a clear bit of a bitmap block. -/
def takeBlock (group mapByte mapBit : Nat) (data : BlockData) :
    Program Store Stop Nat := do
  let mapBlock := sblock.bitmapStart.toNat + group
  write mapBlock
    (setByte data mapByte (byteAt data mapByte + mask mapBit))
  sync mapBlock
  release mapBlock
  let blockNo := group * bitPerBlock + mapByte * 8 + mapBit
  let _ ← acquire blockNo
  write blockNo fun _ => 0
  sync blockNo
  release blockNo
  return blockNo

/-- The body of the outer loop of `cache_alloc`, for one bitmap block. -/
def searchGroup (group : Nat) (data : BlockData)
    (next : Program Store Stop Nat) : Program Store Stop Nat :=
  match clearByte? sblock (group * bitPerBlock) data with
  | some (mapByte, mapBit) => takeBlock sblock group mapByte mapBit data
  | none => do
      release (sblock.bitmapStart.toNat + group)
      next

/-- The outer loop of `cache_alloc`, over the bitmap blocks. -/
def cacheAllocFrom : List Nat → Program Store Stop Nat
  | [] => throw .noFreeBlock
  | group :: rest => do
      let data ← acquire (sblock.bitmapStart.toNat + group)
      searchGroup sblock group data (cacheAllocFrom rest)

/-- `cache_alloc(ctx)` -/
def cacheAlloc : Program Store Stop Nat :=
  cacheAllocFrom sblock
    (List.range
      ((sblock.numBlocks.toNat + bitPerBlock - 1) / bitPerBlock))

/-- `cache_free(ctx, block_no)` -/
def cacheFree (blockNo : Nat) : Program Store Stop Unit := do
  let mapBlock := sblock.bitmapStart.toNat + blockNo / bitPerBlock
  let data ← acquire mapBlock
  let mapByte := blockNo % bitPerBlock / 8
  let mapBit := blockNo % bitPerBlock % 8
  write mapBlock
    (setByte data mapByte (byteAt data mapByte - mask mapBit))
  sync mapBlock
  release mapBlock

/-- The bit of a block in the bitmap. -/
def used (blocks : Nat → BlockData) (blockNo : Nat) : Bool :=
  decide (blockNo < sblock.numBlocks.toNat) &&
    hasBit
      (byteAt
        (blocks (sblock.bitmapStart.toNat + blockNo / bitPerBlock))
        (blockNo % bitPerBlock / 8))
      (blockNo % 8)

/-- The first block behind the preallocated metadata. -/
def dataStart : Nat :=
  sblock.numBlocks.toNat - sblock.numDataBlocks.toNat

/-- The inode blocks, the bitmap and the data blocks lie in this order. -/
structure Geometry : Prop where
  boot : 0 < sblock.inodeStart.toNat
  inodes_before :
    sblock.inodeStart.toNat ≤ sblock.bitmapStart.toNat
  inodes :
    ∀ inodeNo < sblock.numInodes.toNat,
      sblock.inodeStart.toNat + inodeNo / 8 < sblock.bitmapStart.toNat
  bitmap_before : sblock.bitmapStart.toNat ≤ dataStart sblock
  bitmap :
    ∀ blockNo < sblock.numBlocks.toNat,
      sblock.bitmapStart.toNat + blockNo / bitPerBlock < dataStart sblock

end Functions

/-! ## What the functions do -/

section Specifications

variable
    {accepts : Stop → Prop}
    {store : Store}
    {blockNo : Nat}

theorem ensures_acquire
    {post : BlockData → Store → Prop}
    (free : blockNo ∉ store.held)
    (continues :
      post (store.blocks blockNo)
        { store with held := blockNo :: store.held }) :
    Ensures accepts (acquire blockNo) store post := by
  simpa [acquire, free] using continues

@[simp]
theorem ensures_release
    {post : Unit → Store → Prop} :
    Ensures accepts (release blockNo) store post ↔
      post () { store with held := store.held.erase blockNo } := by
  exact ensures_modify

@[simp]
theorem ensures_write
    {data : BlockData}
    {post : Unit → Store → Prop} :
    Ensures accepts (write blockNo data) store post ↔
      post ()
        { store with blocks := Function.update store.blocks blockNo data } := by
  exact ensures_modify

/-- `cache_sync` only changes the log. -/
theorem ensures_sync
    {post : Unit → Store → Prop}
    (continues :
      ∀ logged rm, post () { store with logged := logged, rm := rm }) :
    Ensures Stop.Exhausted (sync blockNo) store post := by
  simp only [sync, ensures_bind, ensures_get]
  refine ensures_ite ?_ ?_
  · intro _
    exact continues store.logged store.rm
  · intro _
    refine ensures_ite ?_ ?_
    · intro _
      exact Or.inl rfl
    · intro _
      exact continues _ _

variable {sblock : SuperBlock}

@[simp]
theorem byteAt_setByte
    (data : BlockData)
    {index : Nat}
    (inside : index < blockSize)
    (value : UInt8)
    (other : Nat) :
    byteAt (setByte data index value) other =
      if other = index then value else byteAt data other := by
  by_cases same : other = index
  · subst same
    simp [byteAt, setByte, inside]
  · unfold byteAt
    split_ifs with below
    · simp [setByte, same]
    · rfl

/-- One byte of one bitmap block changes. -/
theorem used_setByte
    (blocks : Nat → BlockData)
    (group : Nat)
    {mapByte : Nat}
    (inside : mapByte < blockSize)
    (value : UInt8)
    (other : Nat) :
    used sblock
        (Function.update blocks (sblock.bitmapStart.toNat + group)
          (setByte (blocks (sblock.bitmapStart.toNat + group)) mapByte
            value))
        other =
      if other / bitPerBlock = group ∧ other % bitPerBlock / 8 = mapByte then
        decide (other < sblock.numBlocks.toNat) && hasBit value (other % 8)
      else
        used sblock blocks other := by
  unfold used
  by_cases same : other / bitPerBlock = group
  · subst same
    rw [Function.update_self, byteAt_setByte _ inside]
    by_cases sameByte : other % bitPerBlock / 8 = mapByte
    · simp [sameByte]
    · simp [sameByte]
  · have different :
        sblock.bitmapStart.toNat + other / bitPerBlock ≠
          sblock.bitmapStart.toNat + group := by
      omega
    rw [Function.update_of_ne different]
    simp [same]

/-- The bit of a block is in one byte of one bitmap block. -/
theorem position_inj
    {left right : Nat}
    (group : left / bitPerBlock = right / bitPerBlock)
    (byte : left % bitPerBlock / 8 = right % bitPerBlock / 8)
    (bit : left % 8 = right % 8) :
    left = right := by
  simp only [bitPerBlock, blockSize] at group byte
  omega

theorem used_sub_mask
    {blocks : Nat → BlockData}
    (isUsed : used sblock blocks blockNo = true) :
    used sblock
        (Function.update blocks
          (sblock.bitmapStart.toNat + blockNo / bitPerBlock)
          (setByte
            (blocks (sblock.bitmapStart.toNat + blockNo / bitPerBlock))
            (blockNo % bitPerBlock / 8)
            (byteAt
                (blocks
                  (sblock.bitmapStart.toNat + blockNo / bitPerBlock))
                (blockNo % bitPerBlock / 8) -
              mask (blockNo % bitPerBlock % 8)))) =
      Function.update (used sblock blocks) blockNo false := by
  have bitPosition : blockNo % bitPerBlock % 8 = blockNo % 8 := by
    simp only [bitPerBlock, blockSize]
    omega
  have inside : blockNo % bitPerBlock / 8 < blockSize := by
    simp only [bitPerBlock, blockSize]
    omega
  have isSet := isUsed
  simp only [used, Bool.and_eq_true, decide_eq_true_eq] at isSet
  funext other
  rw [used_setByte blocks _ inside, bitPosition]
  by_cases same : other = blockNo
  · subst same
    rw [hasBit_sub_mask (Nat.mod_lt _ (by decide)) isSet.2
      (Nat.mod_lt _ (by decide))]
    simp
  · rw [Function.update_of_ne same]
    split_ifs with position
    · have otherBit : other % 8 ≠ blockNo % 8 :=
        fun bit => same (position_inj position.1 position.2 bit)
      rw [hasBit_sub_mask (Nat.mod_lt _ (by decide)) isSet.2
        (Nat.mod_lt _ (by decide))]
      simp [used, otherBit, position.1, position.2]
    · rfl

theorem used_add_mask
    {blocks : Nat → BlockData}
    (below : blockNo < sblock.numBlocks.toNat)
    (isFree : used sblock blocks blockNo = false) :
    used sblock
        (Function.update blocks
          (sblock.bitmapStart.toNat + blockNo / bitPerBlock)
          (setByte
            (blocks (sblock.bitmapStart.toNat + blockNo / bitPerBlock))
            (blockNo % bitPerBlock / 8)
            (byteAt
                (blocks
                  (sblock.bitmapStart.toNat + blockNo / bitPerBlock))
                (blockNo % bitPerBlock / 8) +
              mask (blockNo % 8)))) =
      Function.update (used sblock blocks) blockNo true := by
  have inside : blockNo % bitPerBlock / 8 < blockSize := by
    simp only [bitPerBlock, blockSize]
    omega
  have clear := isFree
  simp only [used, below, decide_true, Bool.true_and] at clear
  funext other
  rw [used_setByte blocks _ inside]
  by_cases same : other = blockNo
  · subst same
    rw [hasBit_add_mask (Nat.mod_lt _ (by decide)) clear]
    simp [below]
  · rw [Function.update_of_ne same]
    split_ifs with position
    · have otherBit : other % 8 ≠ blockNo % 8 :=
        fun bit => same (position_inj position.1 position.2 bit)
      rw [hasBit_add_mask (Nat.mod_lt _ (by decide)) clear]
      simp [used, otherBit, position.1, position.2]
    · rfl

/-- Neither the bitmap nor an inode block is held, and held blocks are used. -/
def Quiet (sblock : SuperBlock) (store : Store) : Prop :=
  ∀ held ∈ store.held,
    held < sblock.inodeStart.toNat ∨
      dataStart sblock ≤ held ∧ used sblock store.blocks held = true

/-- A block which is not part of the bitmap. -/
def OutsideBitmap (sblock : SuperBlock) (blockNo : Nat) : Prop :=
  blockNo < sblock.bitmapStart.toNat ∨ dataStart sblock ≤ blockNo

theorem Quiet.bitmap_free
    (geometry : Geometry sblock)
    (quiet : Quiet sblock store)
    (below : blockNo < sblock.numBlocks.toNat) :
    sblock.bitmapStart.toNat + blockNo / bitPerBlock ∉ store.held := by
  intro held
  have lower := Nat.le_add_right sblock.bitmapStart.toNat
    (blockNo / bitPerBlock)
  have upper := geometry.bitmap blockNo below
  have inodes := geometry.inodes_before
  rcases quiet _ held with boot | ⟨data, -⟩
  · omega
  · omega

/-- `cache_free` of a used block clears its bit and touches only the bitmap. -/
theorem ensures_cacheFree
    (geometry : Geometry sblock)
    (quiet : Quiet sblock store)
    (isUsed : used sblock store.blocks blockNo = true) :
    Ensures Stop.Exhausted (cacheFree sblock blockNo) store
      fun _ target =>
        target.held = store.held ∧
          (∀ other, OutsideBitmap sblock other →
            target.blocks other = store.blocks other) ∧
          used sblock target.blocks =
            Function.update (used sblock store.blocks) blockNo false := by
  have below : blockNo < sblock.numBlocks.toNat := by
    simp only [used, Bool.and_eq_true, decide_eq_true_eq] at isUsed
    exact isUsed.1
  have lower := Nat.le_add_right sblock.bitmapStart.toNat
    (blockNo / bitPerBlock)
  have upper := geometry.bitmap blockNo below
  simp only [cacheFree, ensures_bind]
  refine ensures_acquire (quiet.bitmap_free geometry below) ?_
  rw [ensures_write]
  refine ensures_sync ?_
  intro logged rm
  rw [ensures_release]
  refine ⟨by simp, ?_, used_sub_mask isUsed⟩
  intro other outside
  refine Function.update_of_ne ?_ _ _
  rcases outside with before | after
  · omega
  · omega

theorem clearBit?_spec
    {base mapBit : Nat}
    {temp : UInt8}
    (found : clearBit? sblock base temp = some mapBit) :
    mapBit < 8 ∧ base + mapBit < sblock.numBlocks.toNat ∧
      hasBit temp mapBit = false := by
  have member := List.mem_of_find?_eq_some found
  have inRange := List.takeWhile_subset _ member
  have condition := List.mem_takeWhile_imp member
  have test := List.find?_some found
  simp only [List.mem_range] at inRange
  simp only [decide_eq_true_eq] at condition
  simp only [beq_iff_eq] at test
  exact ⟨inRange, condition, (and_mask_eq_zero inRange).mp test⟩

theorem clearByte?_spec
    {blockStart mapByte mapBit : Nat}
    {data : BlockData}
    (found : clearByte? sblock blockStart data = some (mapByte, mapBit)) :
    mapByte < blockSize ∧ mapBit < 8 ∧
      blockStart + mapByte * 8 + mapBit < sblock.numBlocks.toNat ∧
      hasBit (byteAt data mapByte) mapBit = false := by
  rcases List.exists_of_findSome?_eq_some found with
    ⟨candidate, member, inner⟩
  have inRange := List.takeWhile_subset _ member
  rcases Option.map_eq_some_iff.mp inner with ⟨bit, bitFound, same⟩
  simp only [Prod.mk.injEq] at same
  rcases same with ⟨rfl, rfl⟩
  rcases clearBit?_spec bitFound with ⟨bitBelow, below, clear⟩
  exact ⟨List.mem_range.mp inRange, bitBelow, below, clear⟩

/-- What `cache_alloc` does with the block which it returns. -/
structure Allocates
    (sblock : SuperBlock)
    (store target : Store)
    (blockNo : Nat) : Prop where
  data : dataStart sblock ≤ blockNo
  below : blockNo < sblock.numBlocks.toNat
  free : used sblock store.blocks blockNo = false
  held : target.held = store.held
  zeroed : target.blocks blockNo = fun _ => 0
  others :
    ∀ other, OutsideBitmap sblock other → other ≠ blockNo →
      target.blocks other = store.blocks other
  marked :
    used sblock target.blocks =
      Function.update (used sblock store.blocks) blockNo true

/-- A change outside the bitmap leaves the bits. -/
theorem used_update_outside
    (geometry : Geometry sblock)
    (blocks : Nat → BlockData)
    (outside : OutsideBitmap sblock blockNo)
    (data : BlockData) :
    used sblock (Function.update blocks blockNo data) =
      used sblock blocks := by
  funext other
  unfold used
  by_cases below : other < sblock.numBlocks.toNat
  · have lower := Nat.le_add_right sblock.bitmapStart.toNat
      (other / bitPerBlock)
    have upper := geometry.bitmap other below
    have different :
        sblock.bitmapStart.toNat + other / bitPerBlock ≠ blockNo := by
      rcases outside with before | after
      · omega
      · omega
    rw [Function.update_of_ne different]
  · simp [below]

theorem ensures_takeBlock
    (geometry : Geometry sblock)
    (quiet : Quiet sblock store)
    (reserved :
      ∀ other < dataStart sblock, used sblock store.blocks other = true)
    {group mapByte mapBit : Nat}
    (found :
      clearByte? sblock (group * bitPerBlock)
        (store.blocks (sblock.bitmapStart.toNat + group)) =
          some (mapByte, mapBit)) :
    Ensures Stop.Exhausted
      (takeBlock sblock group mapByte mapBit
        (store.blocks (sblock.bitmapStart.toNat + group)))
      { store with
        held := (sblock.bitmapStart.toNat + group) :: store.held }
      fun blockNo target => Allocates sblock store target blockNo := by
  rcases clearByte?_spec found with ⟨byteBelow, bitBelow, below, clear⟩
  unfold takeBlock
  generalize position :
    group * bitPerBlock + mapByte * 8 + mapBit = blockNo at below ⊢
  have sameGroup : blockNo / bitPerBlock = group := by
    simp only [bitPerBlock, blockSize] at position byteBelow ⊢
    omega
  have sameByte : blockNo % bitPerBlock / 8 = mapByte := by
    simp only [bitPerBlock, blockSize] at position byteBelow ⊢
    omega
  have sameBit : blockNo % 8 = mapBit := by
    simp only [bitPerBlock, blockSize] at position
    omega
  subst sameGroup sameByte sameBit
  have isFree : used sblock store.blocks blockNo = false := by
    simp [used, clear]
  have data : dataStart sblock ≤ blockNo := by
    by_contra before
    have taken := reserved blockNo (Nat.lt_of_not_le before)
    simp [isFree] at taken
  have lower := Nat.le_add_right sblock.bitmapStart.toNat
    (blockNo / bitPerBlock)
  have upper := geometry.bitmap blockNo below
  have unheld : blockNo ∉ store.held := by
    intro held
    rcases quiet blockNo held with boot | ⟨-, taken⟩
    · have inodes := geometry.inodes_before
      omega
    · simp [isFree] at taken
  simp only [ensures_bind, ensures_write]
  refine ensures_sync ?_
  intro logged rm
  rw [ensures_release]
  refine ensures_acquire (by simpa using unheld) ?_
  refine ensures_sync ?_
  intro loggedAgain rmAgain
  rw [ensures_release, ensures_pure]
  refine ⟨data, below, isFree, by simp, by simp, ?_, ?_⟩
  · intro other outsideOther different
    have notMap :
        other ≠ sblock.bitmapStart.toNat + blockNo / bitPerBlock := by
      rcases outsideOther with before | after
      · omega
      · omega
    simp [different, notMap]
  · simp only
    rw [used_update_outside geometry _ (Or.inr data),
      used_add_mask below isFree]

theorem ensures_cacheAllocFrom
    (geometry : Geometry sblock)
    (quiet : Quiet sblock store)
    (reserved :
      ∀ other < dataStart sblock, used sblock store.blocks other = true)
    {groups : List Nat}
    (inside :
      ∀ group ∈ groups, group * bitPerBlock < sblock.numBlocks.toNat) :
    Ensures Stop.Exhausted (cacheAllocFrom sblock groups) store
      fun blockNo target => Allocates sblock store target blockNo := by
  induction groups with
  | nil =>
      rw [cacheAllocFrom, ensures_throw]
      exact Or.inr (Or.inl rfl)
  | cons group rest ih =>
      have start := inside group List.mem_cons_self
      have groupOf : group * bitPerBlock / bitPerBlock = group :=
        Nat.mul_div_cancel _ (by simp [bitPerBlock])
      have free := quiet.bitmap_free geometry start
      rw [groupOf] at free
      rw [cacheAllocFrom, ensures_bind]
      refine ensures_acquire free ?_
      unfold searchGroup
      split
      · rename_i mapByte mapBit found
        exact ensures_takeBlock geometry quiet reserved found
      · rw [ensures_bind, ensures_release]
        simp only [List.erase_cons_head]
        exact ih fun later member =>
          inside later (List.mem_cons_of_mem _ member)

/-- `cache_alloc` returns a data block which was free, filled with zeros. -/
theorem ensures_cacheAlloc
    (geometry : Geometry sblock)
    (quiet : Quiet sblock store)
    (reserved :
      ∀ other < dataStart sblock, used sblock store.blocks other = true) :
    Ensures Stop.Exhausted (cacheAlloc sblock) store
      fun blockNo target => Allocates sblock store target blockNo := by
  refine ensures_cacheAllocFrom geometry quiet reserved ?_
  intro group member
  simp only [List.mem_range, bitPerBlock, blockSize] at member ⊢
  omega

end Specifications

end FudanOS.Fs.BlockBitmap
