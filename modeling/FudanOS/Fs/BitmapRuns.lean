import FudanOS.Fs.BlockBitmap
import FudanOS.Library.Runs
import Mathlib.Data.List.Pairwise

/-!
# Sequences of allocations

`cache_alloc` returns the first block whose bit is clear, and `cache_free`
subtracts the mask of a bit.  Here both are described for every super block
and every contents of the bitmap.

The bitmap has bits for its own blocks as well.  Where such a bit is clear,
`cache_alloc` hands the block out and fills it with zeros, and with it the bits
of other blocks; the runs below start with these bits set and do not free
them.
-/

namespace FudanOS.Fs.BitmapRuns

open FudanOS.Fs.Defines
open FudanOS.Fs.BlockBitmap
open FudanOS.Library.Programs
open FudanOS.Library.Runs

/-! ## Bits -/

section Bits

variable (sblock : SuperBlock)

/-- The block which holds the bit of a block. -/
def mapBlock (blockNo : Nat) : Nat :=
  sblock.bitmapStart.toNat + blockNo / bitPerBlock

/-- The bit of a block, also beyond `num_blocks`. -/
def bitOf (blocks : Nat → BlockData) (blockNo : Nat) : Bool :=
  hasBit
    (byteAt (blocks (mapBlock sblock blockNo)) (blockNo % bitPerBlock / 8))
    (blockNo % 8)

/-- The number of blocks which the bitmap takes. -/
def groups : Nat :=
  (sblock.numBlocks.toNat + bitPerBlock - 1) / bitPerBlock

/-- The bit of one block becomes `value`, and no other bit of the bitmap changes. -/
def SetsOnly (before after : Nat → BlockData) (blockNo : Nat)
    (value : Bool) : Prop :=
  ∀ other < groups sblock * bitPerBlock,
    bitOf sblock after other =
      if other = blockNo then value else bitOf sblock before other

end Bits

variable {sblock : SuperBlock}

theorem group_lt
    {blockNo : Nat}
    (below : blockNo < sblock.numBlocks.toNat) :
    blockNo / bitPerBlock < groups sblock := by
  simp only [groups, bitPerBlock, blockSize]
  omega

/-- The bitmap has a bit for every block. -/
theorem lt_groups_mul
    {blockNo : Nat}
    (below : blockNo < sblock.numBlocks.toNat) :
    blockNo < groups sblock * bitPerBlock := by
  have group := group_lt below
  simp only [bitPerBlock, blockSize] at group ⊢
  omega

/-- One byte of one bitmap block changes. -/
theorem bitOf_setByte
    (blocks : Nat → BlockData)
    (blockNo : Nat)
    (value : UInt8)
    (other : Nat) :
    bitOf sblock
        (Function.update blocks (mapBlock sblock blockNo)
          (setByte (blocks (mapBlock sblock blockNo))
            (blockNo % bitPerBlock / 8) value))
        other =
      if other / bitPerBlock = blockNo / bitPerBlock ∧
          other % bitPerBlock / 8 = blockNo % bitPerBlock / 8 then
        hasBit value (other % 8)
      else
        bitOf sblock blocks other := by
  have inside : blockNo % bitPerBlock / 8 < blockSize := by
    simp only [bitPerBlock, blockSize]
    omega
  unfold bitOf mapBlock
  by_cases same : other / bitPerBlock = blockNo / bitPerBlock
  · rw [same, Function.update_self, byteAt_setByte _ inside]
    by_cases sameByte :
        other % bitPerBlock / 8 = blockNo % bitPerBlock / 8
    · rw [if_pos sameByte, if_pos ⟨rfl, sameByte⟩]
    · rw [if_neg sameByte, if_neg fun both => sameByte both.2]
  · have different :
        sblock.bitmapStart.toNat + other / bitPerBlock ≠
          sblock.bitmapStart.toNat + blockNo / bitPerBlock := by
      intro equal
      exact same (Nat.add_left_cancel equal)
    rw [Function.update_of_ne different, if_neg fun both => same both.1]

/--
A byte is replaced by one which differs in the bit of the block, so that bit
changes and no other.
-/
theorem bitOf_replace
    {blocks : Nat → BlockData}
    {blockNo : Nat}
    {value : UInt8}
    {bit : Bool}
    (bits :
      ∀ index < 8,
        hasBit value index =
          if index = blockNo % 8 then
            bit
          else
            hasBit
              (byteAt (blocks (mapBlock sblock blockNo))
                (blockNo % bitPerBlock / 8))
              index)
    (other : Nat) :
    bitOf sblock
        (Function.update blocks (mapBlock sblock blockNo)
          (setByte (blocks (mapBlock sblock blockNo))
            (blockNo % bitPerBlock / 8) value))
        other =
      if other = blockNo then bit else bitOf sblock blocks other := by
  rw [bitOf_setByte, bits _ (Nat.mod_lt _ (by decide))]
  by_cases same : other = blockNo
  · subst same
    rw [if_pos ⟨rfl, rfl⟩, if_pos rfl, if_pos rfl]
  · rw [if_neg same]
    by_cases position :
        other / bitPerBlock = blockNo / bitPerBlock ∧
          other % bitPerBlock / 8 = blockNo % bitPerBlock / 8
    · have otherBit : other % 8 ≠ blockNo % 8 := by
        intro bit
        exact same (position_inj position.1 position.2 bit)
      rw [if_pos position, if_neg otherBit]
      unfold bitOf mapBlock
      rw [position.1, position.2]
    · rw [if_neg position]

/-- `cache_sync` changes the log, or the budget is spent. -/
theorem ensures_sync_budget
    {store : Store}
    {blockNo : Nat}
    {post : Unit → Store → Prop}
    (continues :
      ∀ logged rm, post () { store with logged := logged, rm := rm }) :
    Ensures (fun stop => stop = .budget) (sync blockNo) store post := by
  simp only [sync, ensures_bind, ensures_get]
  refine ensures_ite ?_ ?_
  · intro _
    exact continues store.logged store.rm
  · intro _
    refine ensures_ite ?_ ?_
    · intro _
      rfl
    · intro _
      exact continues _ _

/-! ## `cache_free` -/

/-- Subtracting the mask of a clear bit sets that bit. -/
theorem hasBit_sub_mask_clear
    {byte : UInt8}
    {bit : Nat}
    (below : bit < 8)
    (clear : hasBit byte bit = false) :
    hasBit (byte - mask bit) bit = true := by
  by_contra cleared
  rw [Bool.not_eq_true] at cleared
  have restored := hasBit_add_mask below cleared bit
  rw [UInt8.sub_add_cancel, clear] at restored
  simp at restored

/-- What `cache_free` stores, and what it leaves. -/
theorem ensures_free
    {store : Store}
    {blockNo : Nat}
    (free : mapBlock sblock blockNo ∉ store.held) :
    Ensures (fun stop => stop = .budget) (cacheFree sblock blockNo) store
      fun _ target =>
        target.held = store.held ∧
          target.blocks =
            Function.update store.blocks (mapBlock sblock blockNo)
              (setByte (store.blocks (mapBlock sblock blockNo))
                (blockNo % bitPerBlock / 8)
                (byteAt (store.blocks (mapBlock sblock blockNo))
                    (blockNo % bitPerBlock / 8) -
                  mask (blockNo % 8))) := by
  have bitPosition : blockNo % bitPerBlock % 8 = blockNo % 8 := by
    simp only [bitPerBlock, blockSize]
    omega
  simp only [cacheFree, ensures_bind]
  refine ensures_acquire free ?_
  rw [ensures_write]
  refine ensures_sync_budget ?_
  intro logged rm
  rw [ensures_release, bitPosition]
  exact ⟨List.erase_cons_head .., rfl⟩

/-- The bits after `cache_free` of an allocated block. -/
theorem setsOnly_free
    {before after : Nat → BlockData}
    {blockNo : Nat}
    (isSet : bitOf sblock before blockNo = true)
    (stored :
      after =
        Function.update before (mapBlock sblock blockNo)
          (setByte (before (mapBlock sblock blockNo))
            (blockNo % bitPerBlock / 8)
            (byteAt (before (mapBlock sblock blockNo))
                (blockNo % bitPerBlock / 8) -
              mask (blockNo % 8)))) :
    SetsOnly sblock before after blockNo false := by
  have bitBelow : blockNo % 8 < 8 := Nat.mod_lt _ (by decide)
  intro other _
  rw [bitOf] at isSet
  rw [stored]
  apply bitOf_replace
  intro index indexBelow
  rw [hasBit_sub_mask bitBelow isSet indexBelow]
  by_cases same : index = blockNo % 8
  · simp [same]
  · simp [same]

/--
`cache_free` clears the bit and leaves the others exactly when the bit was set.
-/
theorem free_clears_iff_allocated
    {store : Store}
    {blockNo : Nat}
    (below : blockNo < sblock.numBlocks.toNat)
    (free : mapBlock sblock blockNo ∉ store.held) :
    Ensures (fun stop => stop = .budget) (cacheFree sblock blockNo) store
      fun _ target =>
        SetsOnly sblock store.blocks target.blocks blockNo false ↔
          bitOf sblock store.blocks blockNo = true := by
  apply (ensures_free free).mono
  rintro _ target ⟨_, stored⟩
  constructor
  · intro sets
    by_contra clear
    rw [Bool.not_eq_true, bitOf] at clear
    have cleared := sets blockNo (lt_groups_mul below)
    rw [if_pos rfl, stored, bitOf_setByte, if_pos ⟨rfl, rfl⟩,
      hasBit_sub_mask_clear (Nat.mod_lt _ (by decide)) clear] at cleared
    exact nomatch cleared
  · intro isSet
    exact setsOnly_free isSet stored

/-- A disk of 16 blocks with the bitmap in block 3. -/
def smallSuperBlock : SuperBlock where
  numBlocks := 16
  numDataBlocks := 8
  numInodes := 1
  numLogBlocks := 1
  logStart := 1
  inodeStart := 2
  bitmapStart := 3

/-- A store in which the first byte of the bitmap is given. -/
def storeWith (byte : UInt8) : Store where
  blocks := fun blockNo index =>
    if blockNo = 3 ∧ index.val = 0 then byte else 0
  held := []
  logged := []
  rm := 0

theorem free_clears_iff_allocated_block_five :
    bitOf smallSuperBlock (storeWith 0x20).blocks 5 = true ∧
      Ensures (fun stop => stop = .budget) (cacheFree smallSuperBlock 5)
        (storeWith 0x20)
        fun _ target =>
          SetsOnly smallSuperBlock (storeWith 0x20).blocks target.blocks 5
              false ↔
            bitOf smallSuperBlock (storeWith 0x20).blocks 5 = true := by
  constructor
  · decide
  · exact free_clears_iff_allocated (by decide) (by decide)

/-- Freeing the free block 3 sets the bits 3 to 7. -/
theorem free_of_free_block :
    ¬ ∀ sblock store blockNo, blockNo < sblock.numBlocks.toNat →
      mapBlock sblock blockNo ∉ store.held →
        Ensures (fun stop => stop = .budget) (cacheFree sblock blockNo) store
          fun _ target =>
            SetsOnly sblock store.blocks target.blocks blockNo false := by
  intro claim
  have ensures := claim smallSuperBlock (storeWith 0) 3 (by decide) (by decide)
  cases returned : (cacheFree smallSuperBlock 3).run (storeWith 0) with
  | error stop =>
      have succeeds :
          ((cacheFree smallSuperBlock 3).run (storeWith 0)).isOk = true := by
        decide +kernel
      rw [returned] at succeeds
      exact nomatch succeeds
  | ok result =>
      have wrong :
          ((cacheFree smallSuperBlock 3).run (storeWith 0)).toOption.map
              (fun result => bitOf smallSuperBlock result.2.blocks 4) =
            some true := by
        decide +kernel
      rw [returned] at wrong
      have isSet : bitOf smallSuperBlock result.2.blocks 4 = true :=
        Option.some.inj wrong
      have sets := ensures.of_run returned 4 (by decide)
      rw [if_neg (by decide), isSet] at sets
      exact absurd sets (by decide)

/-! ## The search of `cache_alloc` -/

section Search

theorem mem_takeWhile_range
    {test : Nat → Bool}
    {count index : Nat}
    (below : index < count)
    (holds : ∀ other ≤ index, test other = true) :
    index ∈ (List.range count).takeWhile test := by
  have split :
      List.range count =
        List.range (index + 1) ++
          (List.range (count - (index + 1))).map (index + 1 + ·) := by
    rw [← List.range_add, Nat.add_sub_cancel' below]
  have passes : ∀ other ∈ List.range (index + 1), test other = true := by
    intro other member
    exact holds other (Nat.le_of_lt_succ (List.mem_range.mp member))
  rw [split, List.takeWhile_append_of_pos passes]
  exact List.mem_append_left _ (List.mem_range.mpr (Nat.lt_succ_self index))

theorem pairwise_takeWhile_range (test : Nat → Bool) (count : Nat) :
    ((List.range count).takeWhile test).Pairwise (· < ·) :=
  List.pairwise_lt_range.sublist (List.takeWhile_sublist test)

/-- What stands before the first hit of a search in order is no hit. -/
theorem findSome?_before
    {Value : Type}
    {search : Nat → Option Value}
    {list : List Nat}
    {value : Value}
    (ordered : list.Pairwise (· < ·))
    (found : list.findSome? search = some value) :
    ∃ hit ∈ list, search hit = some value ∧
      ∀ other ∈ list, other < hit → search other = none := by
  rcases List.findSome?_eq_some_iff.mp found with
    ⟨front, hit, back, rfl, isHit, misses⟩
  refine ⟨hit, by simp, isHit, ?_⟩
  intro other member before
  rcases List.mem_append.mp member with inFront | inBack
  · exact misses other inFront
  · have order := (List.pairwise_append.mp ordered).2.1
    rcases List.mem_cons.mp inBack with rfl | later
    · exact absurd before (Nat.lt_irrefl _)
    · exact absurd before
        (Nat.lt_asymm (List.rel_of_pairwise_cons order later))

theorem find?_before
    {test : Nat → Bool}
    {list : List Nat}
    {hit : Nat}
    (ordered : list.Pairwise (· < ·))
    (found : list.find? test = some hit)
    {other : Nat}
    (member : other ∈ list)
    (before : other < hit) :
    test other = false := by
  rcases List.find?_eq_some_iff_append.mp found with
    ⟨_, front, back, rfl, misses⟩
  rcases List.mem_append.mp member with inFront | inBack
  · have miss := misses other inFront
    rwa [Bool.not_eq_true'] at miss
  · have order := (List.pairwise_append.mp ordered).2.1
    rcases List.mem_cons.mp inBack with rfl | later
    · exact absurd before (Nat.lt_irrefl _)
    · exact absurd before
        (Nat.lt_asymm (List.rel_of_pairwise_cons order later))

variable
    {base : Nat}
    {temp : UInt8}
    {data : BlockData}

theorem mem_bits
    {bit : Nat}
    (below : bit < 8)
    (inside : base + bit < sblock.numBlocks.toNat) :
    bit ∈ (List.range 8).takeWhile fun mapBit =>
      decide (base + mapBit < sblock.numBlocks.toNat) := by
  apply mem_takeWhile_range below
  intro other atMost
  exact decide_eq_true (by omega)

/-- The bits before the one which the innermost loop finds are set. -/
theorem clearBit?_before
    {hit bit : Nat}
    (found : clearBit? sblock base temp = some hit)
    (below : bit < 8)
    (inside : base + bit < sblock.numBlocks.toNat)
    (before : bit < hit) :
    hasBit temp bit = true := by
  have miss :=
    find?_before (pairwise_takeWhile_range _ _) found (mem_bits below inside)
      before
  rw [beq_eq_false_iff_ne] at miss
  by_contra clear
  rw [Bool.not_eq_true] at clear
  exact miss ((and_mask_eq_zero below).mpr clear)

theorem clearBit?_none
    {bit : Nat}
    (failed : clearBit? sblock base temp = none)
    (below : bit < 8)
    (inside : base + bit < sblock.numBlocks.toNat) :
    hasBit temp bit = true := by
  have miss := List.find?_eq_none.mp failed bit (mem_bits below inside)
  by_contra clear
  rw [Bool.not_eq_true] at clear
  apply miss
  rw [beq_iff_eq]
  exact (and_mask_eq_zero below).mpr clear

theorem mem_bytes
    {byte : Nat}
    (below : byte < blockSize)
    (inside : base + byte * 8 < sblock.numBlocks.toNat) :
    byte ∈ (List.range blockSize).takeWhile fun mapByte =>
      decide (base + mapByte * 8 < sblock.numBlocks.toNat) := by
  apply mem_takeWhile_range below
  intro other atMost
  exact decide_eq_true (by omega)

/-- The bits before the one which the two inner loops find are set. -/
theorem clearByte?_before
    {mapByte mapBit byte bit : Nat}
    (found : clearByte? sblock base data = some (mapByte, mapBit))
    (byteBelow : byte < blockSize)
    (bitBelow : bit < 8)
    (inside : base + byte * 8 + bit < sblock.numBlocks.toNat)
    (before : byte * 8 + bit < mapByte * 8 + mapBit) :
    hasBit (byteAt data byte) bit = true := by
  rcases findSome?_before (pairwise_takeWhile_range _ _) found with
    ⟨hit, _, isHit, misses⟩
  rcases Option.map_eq_some_iff.mp isHit with ⟨hitBit, bitFound, same⟩
  rw [Prod.mk.injEq] at same
  rcases same with ⟨rfl, rfl⟩
  have hitBelow := (clearBit?_spec bitFound).1
  have member := mem_bytes byteBelow (Nat.lt_of_le_of_lt
    (Nat.le_add_right _ bit) inside)
  rcases Nat.lt_trichotomy byte hit with earlier | rfl | later
  · have failed := Option.map_eq_none_iff.mp (misses byte member earlier)
    exact clearBit?_none failed bitBelow inside
  · exact clearBit?_before bitFound bitBelow inside (by omega)
  · omega

theorem clearByte?_none
    {byte bit : Nat}
    (failed : clearByte? sblock base data = none)
    (byteBelow : byte < blockSize)
    (bitBelow : bit < 8)
    (inside : base + byte * 8 + bit < sblock.numBlocks.toNat) :
    hasBit (byteAt data byte) bit = true := by
  have member := mem_bytes byteBelow (Nat.lt_of_le_of_lt
    (Nat.le_add_right _ bit) inside)
  have miss := List.findSome?_eq_none_iff.mp failed byte member
  exact clearBit?_none (Option.map_eq_none_iff.mp miss) bitBelow inside

end Search

/-! ## `cache_alloc` -/

/-- The bits of the blocks of the bitmap are set, as far as there are any. -/
def Preallocated (sblock : SuperBlock) (blocks : Nat → BlockData) : Prop :=
  ∀ group < groups sblock,
    sblock.bitmapStart.toNat + group < sblock.numBlocks.toNat →
      bitOf sblock blocks (sblock.bitmapStart.toNat + group) = true

/-- All blocks of the disk are allocated. -/
def Full (sblock : SuperBlock) (blocks : Nat → BlockData) : Prop :=
  ∀ blockNo < sblock.numBlocks.toNat, bitOf sblock blocks blockNo = true

/-- What `cache_alloc` does when it returns `blockNo`. -/
structure AllocatesFirst
    (sblock : SuperBlock)
    (store target : Store)
    (blockNo : Nat) : Prop where
  below : blockNo < sblock.numBlocks.toNat
  clear : bitOf sblock store.blocks blockNo = false
  first : ∀ other < blockNo, bitOf sblock store.blocks other = true
  marks : SetsOnly sblock store.blocks target.blocks blockNo true
  zeroed : target.blocks blockNo = fun _ => 0
  others :
    ∀ other, other ≠ blockNo → other ≠ mapBlock sblock blockNo →
      target.blocks other = store.blocks other
  held : target.held = store.held

section Alloc

variable {store : Store}

/-- A position in a bitmap block is the position of one block. -/
theorem position_of_block
    {group mapByte mapBit blockNo : Nat}
    (byteBelow : mapByte < blockSize)
    (bitBelow : mapBit < 8)
    (position : group * bitPerBlock + mapByte * 8 + mapBit = blockNo) :
    blockNo / bitPerBlock = group ∧
      blockNo % bitPerBlock / 8 = mapByte ∧ blockNo % 8 = mapBit := by
  simp only [bitPerBlock, blockSize] at position byteBelow ⊢
  omega

/-- A block whose bit is clear is no block of the bitmap. -/
theorem Preallocated.outside
    {blocks : Nat → BlockData}
    {blockNo other : Nat}
    (preallocated : Preallocated sblock blocks)
    (below : blockNo < sblock.numBlocks.toNat)
    (clear : bitOf sblock blocks blockNo = false)
    (inside : other < groups sblock * bitPerBlock) :
    mapBlock sblock other ≠ blockNo := by
  rintro rfl
  have group : other / bitPerBlock < groups sblock :=
    Nat.div_lt_of_lt_mul (by rwa [Nat.mul_comm])
  rw [mapBlock, preallocated _ group below] at clear
  exact nomatch clear

theorem ensures_take
    {group mapByte mapBit : Nat}
    (idle : store.held = [])
    (preallocated : Preallocated sblock store.blocks)
    (before :
      ∀ other < group * bitPerBlock, bitOf sblock store.blocks other = true)
    (found :
      clearByte? sblock (group * bitPerBlock)
        (store.blocks (sblock.bitmapStart.toNat + group)) =
          some (mapByte, mapBit)) :
    Ensures (fun stop => stop = .budget)
      (takeBlock sblock group mapByte mapBit
        (store.blocks (sblock.bitmapStart.toNat + group)))
      { store with held := (sblock.bitmapStart.toNat + group) :: store.held }
      fun blockNo target => AllocatesFirst sblock store target blockNo := by
  rcases clearByte?_spec found with ⟨byteBelow, bitBelow, below, clear⟩
  have earlier :
      ∀ other < group * bitPerBlock + mapByte * 8 + mapBit,
        bitOf sblock store.blocks other = true := by
    intro other smaller
    rcases Nat.lt_or_ge other (group * bitPerBlock) with low | high
    · exact before other low
    · have place :
          other / bitPerBlock = group ∧
            group * bitPerBlock + other % bitPerBlock / 8 * 8 + other % 8 =
              other := by
        simp only [bitPerBlock, blockSize] at high smaller byteBelow ⊢
        omega
      have byteInside : other % bitPerBlock / 8 < blockSize := by
        simp only [bitPerBlock, blockSize]
        omega
      unfold bitOf mapBlock
      rw [place.1]
      apply clearByte?_before found byteInside (Nat.mod_lt _ (by decide))
      · rw [place.2]
        exact smaller.trans below
      · omega
  unfold takeBlock
  generalize position :
    group * bitPerBlock + mapByte * 8 + mapBit = blockNo at below earlier ⊢
  rcases position_of_block byteBelow bitBelow position with
    ⟨rfl, rfl, rfl⟩
  have isClear : bitOf sblock store.blocks blockNo = false := clear
  have outside :
      ∀ other < groups sblock * bitPerBlock,
        mapBlock sblock other ≠ blockNo := by
    intro other inside
    exact preallocated.outside below isClear inside
  simp only [ensures_bind, ensures_write]
  refine ensures_sync_budget ?_
  intro logged rm
  rw [ensures_release]
  refine ensures_acquire ?_ ?_
  · rw [List.erase_cons_head, idle]
    exact List.not_mem_nil
  refine ensures_sync_budget ?_
  intro loggedAgain rmAgain
  rw [ensures_release, ensures_pure]
  constructor
  · exact below
  · exact isClear
  · exact earlier
  · intro other inside
    unfold bitOf
    dsimp only
    rw [Function.update_of_ne (outside other inside)]
    change bitOf sblock _ other = _
    apply bitOf_replace
    intro index indexBelow
    rw [hasBit_add_mask bitBelow clear]
    by_cases same : index = blockNo % 8
    · simp [same]
    · rw [decide_eq_false same, Bool.false_or, if_neg same]
      rfl
  · exact Function.update_self ..
  · intro other different notMap
    dsimp only
    rw [Function.update_of_ne different]
    exact Function.update_of_ne notMap _ _
  · dsimp only
    rw [List.erase_cons_head, List.erase_cons_head]

/-- Where a bitmap block has no clear bit, its blocks are allocated. -/
theorem allocated_of_clearByte?_none
    {group other : Nat}
    (failed :
      clearByte? sblock (group * bitPerBlock)
        (store.blocks (sblock.bitmapStart.toNat + group)) = none)
    (inGroup : other / bitPerBlock = group)
    (below : other < sblock.numBlocks.toNat) :
    bitOf sblock store.blocks other = true := by
  have place :
      group * bitPerBlock + other % bitPerBlock / 8 * 8 + other % 8 =
        other := by
    simp only [bitPerBlock, blockSize] at inGroup ⊢
    omega
  have byteInside : other % bitPerBlock / 8 < blockSize := by
    simp only [bitPerBlock, blockSize]
    omega
  unfold bitOf mapBlock
  rw [inGroup]
  apply clearByte?_none failed byteInside (Nat.mod_lt _ (by decide))
  rw [place]
  exact below

/-- The outer loop, when the bitmap blocks before `group` have no clear bit. -/
theorem ensures_allocFrom
    {group count : Nat}
    (idle : store.held = [])
    (preallocated : Preallocated sblock store.blocks)
    (whole : group + count = groups sblock)
    (before :
      ∀ other < group * bitPerBlock, other < sblock.numBlocks.toNat →
        bitOf sblock store.blocks other = true) :
    Ensures
      (fun stop =>
        stop = .budget ∨ stop = .noFreeBlock ∧ Full sblock store.blocks)
      (cacheAllocFrom sblock (List.range' group count)) store
      fun blockNo target => AllocatesFirst sblock store target blockNo := by
  induction count generalizing group with
  | zero =>
      rw [List.range'_zero, cacheAllocFrom, ensures_throw]
      refine Or.inr ⟨rfl, ?_⟩
      intro blockNo below
      apply before blockNo _ below
      have last := group_lt below
      rw [← whole] at last
      simp only [bitPerBlock, blockSize, Nat.add_zero] at last ⊢
      omega
  | succ count ih =>
      rw [List.range'_succ, cacheAllocFrom, ensures_bind]
      refine ensures_acquire ?_ ?_
      · rw [idle]
        exact List.not_mem_nil
      have inside : group * bitPerBlock < sblock.numBlocks.toNat := by
        simp only [groups, bitPerBlock, blockSize] at whole ⊢
        omega
      unfold searchGroup
      cases found : clearByte? sblock (group * bitPerBlock)
          (store.blocks (sblock.bitmapStart.toNat + group)) with
      | some position =>
          rcases position with ⟨mapByte, mapBit⟩
          have all :
              ∀ other < group * bitPerBlock,
                bitOf sblock store.blocks other = true := by
            intro other smaller
            exact before other smaller (smaller.trans inside)
          apply (ensures_take idle preallocated all found).accepting
          intro stop spent
          exact Or.inl spent
      | none =>
          dsimp only
          rw [ensures_bind, ensures_release]
          dsimp only
          rw [List.erase_cons_head]
          refine ih ?_ ?_
          · omega
          · intro other smaller below
            rcases Nat.lt_or_ge other (group * bitPerBlock) with low | high
            · exact before other low below
            · apply allocated_of_clearByte?_none found _ below
              simp only [bitPerBlock, blockSize] at smaller high ⊢
              omega

/-- `cache_alloc` takes the first free block, or there is none. -/
theorem ensures_alloc
    (idle : store.held = [])
    (preallocated : Preallocated sblock store.blocks) :
    Ensures
      (fun stop =>
        stop = .budget ∨ stop = .noFreeBlock ∧ Full sblock store.blocks)
      (cacheAlloc sblock) store
      fun blockNo target => AllocatesFirst sblock store target blockNo := by
  unfold cacheAlloc
  rw [List.range_eq_range']
  apply ensures_allocFrom idle preallocated (Nat.zero_add _)
  intro other smaller
  rw [Nat.zero_mul] at smaller
  exact absurd smaller (Nat.not_lt_zero other)

/-- On a full disk every bitmap block is searched in vain. -/
theorem ensures_allocFrom_full
    {list : List Nat}
    (idle : store.held = [])
    (full : Full sblock store.blocks) :
    Ensures (fun stop => stop = .noFreeBlock) (cacheAllocFrom sblock list)
      store fun _ _ => False := by
  induction list with
  | nil =>
      rw [cacheAllocFrom, ensures_throw]
  | cons group rest ih =>
      rw [cacheAllocFrom, ensures_bind]
      refine ensures_acquire ?_ ?_
      · rw [idle]
        exact List.not_mem_nil
      unfold searchGroup
      cases found : clearByte? sblock (group * bitPerBlock)
          (store.blocks (sblock.bitmapStart.toNat + group)) with
      | none =>
          dsimp only
          rw [ensures_bind, ensures_release]
          dsimp only
          rw [List.erase_cons_head]
          exact ih
      | some position =>
          rcases position with ⟨mapByte, mapBit⟩
          rcases clearByte?_spec found with
            ⟨byteBelow, bitBelow, below, clear⟩
          have isSet := full _ below
          rcases position_of_block byteBelow bitBelow rfl with
            ⟨sameGroup, sameByte, sameBit⟩
          unfold bitOf mapBlock at isSet
          rw [sameGroup, sameByte, sameBit, clear] at isSet
          cases isSet

/-- `cache_alloc` panics exactly when all blocks are allocated. -/
theorem alloc_panics_iff
    (idle : store.held = [])
    (preallocated : Preallocated sblock store.blocks) :
    (cacheAlloc sblock).run store = .error .noFreeBlock ↔
      Full sblock store.blocks := by
  constructor
  · intro panics
    have ensures := ensures_alloc idle preallocated
    unfold Ensures at ensures
    rw [panics] at ensures
    rcases ensures with spent | ⟨_, full⟩
    · cases spent
    · exact full
  · intro full
    have ensures : Ensures (fun stop => stop = .noFreeBlock)
        (cacheAlloc sblock) store fun _ _ => False :=
      ensures_allocFrom_full idle full
    unfold Ensures at ensures
    cases returned : (cacheAlloc sblock).run store with
    | ok result =>
        rw [returned] at ensures
        exact ensures.elim
    | error stop =>
        rw [returned] at ensures
        rw [ensures]

end Alloc

/-! ## Runs -/

/-- The store, with the blocks which were returned and not yet freed. -/
structure System where
  store : Store
  live : List Nat

inductive Label where
  | alloc
  | free (blockNo : Nat)
  /--
  `cache_end_op` and `cache_begin_op`, after which the log and the budget of
  the operation are what they are
  -/
  | operation (logged : List Nat) (rm : Nat)

def step (sblock : SuperBlock) (system : System) :
    Label → Except Stop System
  | .alloc => do
      let (blockNo, store) ← (cacheAlloc sblock).run system.store
      return { store := store, live := blockNo :: system.live }
  | .free blockNo => do
      let ((), store) ← (cacheFree sblock blockNo).run system.store
      let live := system.live.filter fun other => other ≠ blockNo
      return { store := store, live := live }
  | .operation logged rm =>
      .ok
        { system with
          store := { system.store with logged := logged, rm := rm } }

/-- Only blocks which are allocated are freed. -/
def FreesAllocated (sblock : SuperBlock) (system : System) : Label → Prop
  | .free blockNo =>
      blockNo < sblock.numBlocks.toNat ∧
        bitOf sblock system.store.blocks blockNo = true
  | _ => True

/-- The blocks of the bitmap are not freed. -/
def SparesBitmap (sblock : SuperBlock) : Label → Prop
  | .free blockNo =>
      ∀ group < groups sblock, blockNo ≠ sblock.bitmapStart.toNat + group
  | _ => True

def Allowed (sblock : SuperBlock) (system : System) (label : Label) : Prop :=
  FreesAllocated sblock system label ∧ SparesBitmap sblock label

instance (system : System) :
    (label : Label) → Decidable (FreesAllocated sblock system label)
  | .free _ => inferInstanceAs (Decidable (_ ∧ _))
  | .alloc | .operation _ _ => inferInstanceAs (Decidable True)

instance : (label : Label) → Decidable (SparesBitmap sblock label)
  | .free _ => inferInstanceAs (Decidable (∀ _ < _, _ ≠ _))
  | .alloc | .operation _ _ => inferInstanceAs (Decidable True)

instance (system : System) (label : Label) :
    Decidable (Allowed sblock system label) :=
  inferInstanceAs (Decidable (_ ∧ _))

/-- The next call of `cache_alloc` does what it should. -/
structure AllocCorrect (sblock : SuperBlock) (system : System) : Prop where
  returns :
    ∀ blockNo target,
      (cacheAlloc sblock).run system.store = .ok (blockNo, target) →
        AllocatesFirst sblock system.store target blockNo ∧
          blockNo ∉ system.live
  panics :
    (cacheAlloc sblock).run system.store = .error .noFreeBlock ↔
      Full sblock system.store.blocks
  /-- Apart from that panic, only the budget can be in the way. -/
  stops :
    ∀ stop, (cacheAlloc sblock).run system.store = .error stop →
      stop = .noFreeBlock ∨ stop = .budget

/-- Nothing is held, and neither bitmap blocks nor live blocks are free. -/
structure Consistent (sblock : SuperBlock) (system : System) : Prop where
  idle : system.store.held = []
  preallocated : Preallocated sblock system.store.blocks
  live :
    ∀ blockNo ∈ system.live, blockNo < sblock.numBlocks.toNat ∧
      bitOf sblock system.store.blocks blockNo = true

namespace Consistent

variable {system target : System}

theorem alloc
    (consistent : Consistent sblock system)
    (taken : step sblock system .alloc = .ok target) :
    Consistent sblock target := by
  cases returned : (cacheAlloc sblock).run system.store with
  | error stop =>
      simp only [step, returned, bind, Except.bind] at taken
      exact nomatch taken
  | ok result =>
      rcases result with ⟨blockNo, store⟩
      simp only [step, returned, bind, Except.bind, pure, Except.pure,
        Except.ok.injEq] at taken
      subst taken
      have allocates :=
        (ensures_alloc consistent.idle consistent.preallocated).of_run returned
      have kept :
          ∀ other < sblock.numBlocks.toNat,
            bitOf sblock system.store.blocks other = true →
              bitOf sblock store.blocks other = true := by
        intro other below isSet
        rw [allocates.marks other (lt_groups_mul below)]
        by_cases same : other = blockNo
        · rw [if_pos same]
        · rw [if_neg same]
          exact isSet
      constructor
      · exact allocates.held.trans consistent.idle
      · intro group inside below
        exact kept _ below (consistent.preallocated group inside below)
      · intro other member
        rcases List.mem_cons.mp member with rfl | older
        · refine ⟨allocates.below, ?_⟩
          rw [allocates.marks _ (lt_groups_mul allocates.below), if_pos rfl]
        · rcases consistent.live other older with ⟨below, isSet⟩
          exact ⟨below, kept other below isSet⟩

theorem free
    {blockNo : Nat}
    (consistent : Consistent sblock system)
    (allowed : Allowed sblock system (.free blockNo))
    (taken : step sblock system (.free blockNo) = .ok target) :
    Consistent sblock target := by
  rcases allowed with ⟨⟨below, isSet⟩, spares⟩
  have notHeld : mapBlock sblock blockNo ∉ system.store.held := by
    rw [consistent.idle]
    exact List.not_mem_nil
  cases returned : (cacheFree sblock blockNo).run system.store with
  | error stop =>
      simp only [step, returned, bind, Except.bind] at taken
      exact nomatch taken
  | ok result =>
      rcases result with ⟨_, store⟩
      simp only [step, returned, bind, Except.bind, pure, Except.pure,
        Except.ok.injEq] at taken
      subst taken
      rcases (ensures_free notHeld).of_run returned with ⟨held, stored⟩
      have sets := setsOnly_free isSet stored
      have kept :
          ∀ other < sblock.numBlocks.toNat, other ≠ blockNo →
            bitOf sblock system.store.blocks other = true →
              bitOf sblock store.blocks other = true := by
        intro other otherBelow different otherSet
        rw [sets other (lt_groups_mul otherBelow), if_neg different]
        exact otherSet
      constructor
      · exact held.trans consistent.idle
      · intro group inside groupBelow
        exact kept _ groupBelow (Ne.symm (spares group inside))
          (consistent.preallocated group inside groupBelow)
      · intro other member
        rcases List.mem_filter.mp member with ⟨older, different⟩
        rw [decide_eq_true_eq] at different
        rcases consistent.live other older with ⟨otherBelow, otherSet⟩
        exact ⟨otherBelow, kept other otherBelow different otherSet⟩

theorem of_step
    {label : Label}
    (consistent : Consistent sblock system)
    (allowed : Allowed sblock system label)
    (taken : Takes (step sblock) system label target) :
    Consistent sblock target := by
  cases label with
  | alloc => exact consistent.alloc taken
  | free blockNo => exact consistent.free allowed taken
  | operation logged rm =>
      cases taken
      exact ⟨consistent.idle, consistent.preallocated, consistent.live⟩

theorem allocCorrect
    (consistent : Consistent sblock system) :
    AllocCorrect sblock system := by
  have ensures := ensures_alloc consistent.idle consistent.preallocated
  constructor
  · intro blockNo target returned
    have allocates := ensures.of_run returned
    refine ⟨allocates, ?_⟩
    intro isLive
    have isSet := (consistent.live blockNo isLive).2
    rw [allocates.clear] at isSet
    exact nomatch isSet
  · exact alloc_panics_iff consistent.idle consistent.preallocated
  · intro stop stopped
    unfold Ensures at ensures
    rw [stopped] at ensures
    rcases ensures with spent | ⟨full, _⟩
    · exact Or.inr spent
    · exact Or.inl full

end Consistent

/--
In every sequence of calls, `cache_alloc` takes the first free block and
changes nothing else, and no block is returned twice unless it is freed in
between.
-/
theorem alloc_correct
    {start : Store}
    {labels : List Label}
    {finish : System}
    (idle : start.held = [])
    (preallocated : Preallocated sblock start.blocks)
    (run :
      Run (Takes (step sblock)) (Allowed sblock)
        { store := start, live := [] } labels finish) :
    AllocCorrect sblock finish := by
  have initially :
      Consistent sblock { store := start, live := [] } := by
    refine ⟨idle, preallocated, ?_⟩
    intro blockNo member
    exact absurd member List.not_mem_nil
  have consistent : Consistent sblock finish := by
    refine run.invariant initially ?_
    intro source label target consistent allowed taken
    exact consistent.of_step allowed taken
  exact consistent.allocCorrect

/-- A block is allocated, freed and allocated again. -/
theorem alloc_correct_twice :
    Preallocated smallSuperBlock (storeWith 0xFF).blocks ∧
      ∃ finish,
        Run (Takes (step smallSuperBlock)) (Allowed smallSuperBlock)
          { store := storeWith 0xFF, live := [] }
          [.alloc, .free 8, .alloc] finish ∧
        finish.live = [8] ∧ AllocCorrect smallSuperBlock finish := by
  have preallocated :
      Preallocated smallSuperBlock (storeWith 0xFF).blocks := by
    unfold Preallocated
    decide
  have computed :
      ((executeChecked (step smallSuperBlock)
        (fun system label => decide (Allowed smallSuperBlock system label))
        { store := storeWith 0xFF, live := [] }
        [.alloc, .free 8, .alloc]).map System.live) =
          some [8] := by
    decide +kernel
  rcases Option.map_eq_some_iff.mp computed with ⟨finish, executed, live⟩
  have run :
      Run (Takes (step smallSuperBlock)) (Allowed smallSuperBlock)
        { store := storeWith 0xFF, live := [] }
        [.alloc, .free 8, .alloc] finish :=
    Run.of_executeChecked (fun _ _ => of_decide_eq_true) executed
  exact ⟨preallocated, finish, run, live, alloc_correct rfl preallocated run⟩

/--
The block of the bitmap is freed; `cache_alloc` returns it and clears all the
bits.
-/
theorem bitmap_handed_out :
    ¬ ∀ sblock start labels finish, start.held = [] →
      Run (Takes (step sblock)) (FreesAllocated sblock)
        { store := start, live := [] } labels finish →
        AllocCorrect sblock finish := by
  intro claim
  have computed :
      ((executeChecked (step smallSuperBlock)
        (fun system label =>
          decide (FreesAllocated smallSuperBlock system label))
        { store := storeWith 0xFF, live := [] } [.free 3]).bind
          fun finish =>
            ((cacheAlloc smallSuperBlock).run finish.store).toOption.map
              fun result =>
                (result.1, bitOf smallSuperBlock finish.store.blocks 0,
                  bitOf smallSuperBlock result.2.blocks 0)) =
        some (3, true, false) := by
    decide +kernel
  rcases Option.bind_eq_some_iff.mp computed with
    ⟨finish, executed, allocated⟩
  have run :
      Run (Takes (step smallSuperBlock)) (FreesAllocated smallSuperBlock)
        { store := storeWith 0xFF, live := [] } [.free 3] finish :=
    Run.of_executeChecked (fun _ _ => of_decide_eq_true) executed
  have correct :=
    claim smallSuperBlock (storeWith 0xFF) [.free 3] finish rfl run
  cases returned : (cacheAlloc smallSuperBlock).run finish.store with
  | error stop =>
      rw [returned] at allocated
      exact nomatch allocated
  | ok result =>
      rw [returned] at allocated
      rcases result with ⟨blockNo, target⟩
      have facts := Option.some.inj allocated
      rw [Prod.mk.injEq, Prod.mk.injEq] at facts
      rcases facts with ⟨rfl, before, after⟩
      have marks := (correct.returns 3 target returned).1.marks 0 (by decide)
      rw [if_neg (by decide), before] at marks
      exact absurd (after.symm.trans marks) (by decide)

end FudanOS.Fs.BitmapRuns
