import FudanOS.Fs.BlockBitmap
import Mathlib.Data.Fintype.Basic

/-!
# Inodes and addresses on the disk

The structures `InodeEntry` and `IndirectBlock` of `fs/defines.h` as bytes of
a block, and the disk seen as what the inode layer keeps on it: a bit for each
block, an entry for each inode and the contents of the data blocks.  Each
change which the inode layer makes to a block is a change of one of these.
-/

namespace FudanOS.Fs.InodeLayout

open FudanOS.Library
open FudanOS.Fs.Defines
open FudanOS.Fs.BlockBitmap

/-- `INODE_NUM_DIRECT` -/
abbrev inodeNumDirect : Nat := 12

/-- `INODE_NUM_INDIRECT` -/
abbrev inodeNumIndirect : Nat := blockSize / 4

/-- `INODE_PER_BLOCK` -/
abbrev inodePerBlock : Nat := blockSize / 64

/-- `INODE_MAX_BLOCKS` -/
abbrev inodeMaxBlocks : Nat := inodeNumDirect + inodeNumIndirect

/-- `INODE_MAX_BYTES` -/
abbrev inodeMaxBytes : Nat := inodeMaxBlocks * blockSize

/-- `INODE_INVALID` -/
abbrev inodeInvalid : UInt16 := 0

/-- `INODE_DIRECTORY` -/
abbrev inodeDirectory : UInt16 := 1

/-- `INODE_REGULAR` -/
abbrev inodeRegular : UInt16 := 2

/-- `INODE_DEVICE` -/
abbrev inodeDevice : UInt16 := 3

/-- `InodeEntry` -/
@[ext]
structure InodeEntry where
  type : UInt16
  major : UInt16
  minor : UInt16
  numLinks : UInt16
  numBytes : UInt32
  addrs : Fin inodeNumDirect → UInt32
  indirect : UInt32
  deriving DecidableEq

/-- The entry of which every byte is zero. -/
def InodeEntry.zero : InodeEntry where
  type := 0
  major := 0
  minor := 0
  numLinks := 0
  numBytes := 0
  addrs := fun _ => 0
  indirect := 0

namespace InodeEntry

/-- The 64 bytes of an entry. -/
def bytes (entry : InodeEntry) (index : Nat) : UInt8 :=
  if index < 2 then
    LittleEndian.byte entry.type.toNat index
  else if index < 4 then
    LittleEndian.byte entry.major.toNat (index - 2)
  else if index < 6 then
    LittleEndian.byte entry.minor.toNat (index - 4)
  else if index < 8 then
    LittleEndian.byte entry.numLinks.toNat (index - 6)
  else if index < 12 then
    LittleEndian.byte entry.numBytes.toNat (index - 8)
  else if index < 60 then
    LittleEndian.byte
      (entry.addrs (Fin.ofNat inodeNumDirect ((index - 12) / 4))).toNat
      ((index - 12) % 4)
  else
    LittleEndian.byte entry.indirect.toNat (index - 60)

/-- The 16-bit field at an offset. -/
def field16 (bytes : Nat → UInt8) (offset : Nat) : UInt16 :=
  UInt16.ofNat (LittleEndian.value (fun index => bytes (offset + index)) 2)

/-- The 32-bit field at an offset. -/
def field32 (bytes : Nat → UInt8) (offset : Nat) : UInt32 :=
  UInt32.ofNat (LittleEndian.value (fun index => bytes (offset + index)) 4)

/-- The entry which 64 bytes represent. -/
def decode (bytes : Nat → UInt8) : InodeEntry where
  type := field16 bytes 0
  major := field16 bytes 2
  minor := field16 bytes 4
  numLinks := field16 bytes 6
  numBytes := field32 bytes 8
  addrs := fun index => field32 bytes (12 + 4 * index)
  indirect := field32 bytes 60

theorem field16_congr
    {left right : Nat → UInt8}
    {offset : Nat}
    (agree : ∀ index < 2, left (offset + index) = right (offset + index)) :
    field16 left offset = field16 right offset := by
  rw [field16, field16, LittleEndian.value_congr agree]

theorem field32_congr
    {left right : Nat → UInt8}
    {offset : Nat}
    (agree : ∀ index < 4, left (offset + index) = right (offset + index)) :
    field32 left offset = field32 right offset := by
  rw [field32, field32, LittleEndian.value_congr agree]

theorem field16_of_bytes
    {bytes : Nat → UInt8}
    {offset : Nat}
    {number : UInt16}
    (stored :
      ∀ index < 2,
        bytes (offset + index) =
          LittleEndian.byte number.toNat index) :
    field16 bytes offset = number := by
  have fits : number.toNat < 256 ^ 2 := number.toNat_lt
  rw [field16, LittleEndian.value_congr stored, LittleEndian.value_byte,
    Nat.mod_eq_of_lt fits, UInt16.ofNat_toNat]

theorem field32_of_bytes
    {bytes : Nat → UInt8}
    {offset : Nat}
    {number : UInt32}
    (stored :
      ∀ index < 4,
        bytes (offset + index) =
          LittleEndian.byte number.toNat index) :
    field32 bytes offset = number := by
  have fits : number.toNat < 256 ^ 4 := number.toNat_lt
  rw [field32, LittleEndian.value_congr stored, LittleEndian.value_byte,
    Nat.mod_eq_of_lt fits, UInt32.ofNat_toNat]

theorem decode_congr
    {left right : Nat → UInt8}
    (agree : ∀ index < 64, left index = right index) :
    decode left = decode right := by
  ext address
  · exact congrArg _ (field16_congr fun index _ => agree _ (by omega))
  · exact congrArg _ (field16_congr fun index _ => agree _ (by omega))
  · exact congrArg _ (field16_congr fun index _ => agree _ (by omega))
  · exact congrArg _ (field16_congr fun index _ => agree _ (by omega))
  · exact congrArg _ (field32_congr fun index _ => agree _ (by omega))
  · have inside : address.val < 12 := address.isLt
    exact congrArg _ (field32_congr fun index _ => agree _ (by omega))
  · exact congrArg _ (field32_congr fun index _ => agree _ (by omega))

/-- An entry is read back from its bytes. -/
theorem decode_bytes (entry : InodeEntry) :
    decode entry.bytes = entry := by
  ext address
  · refine congrArg _ (field16_of_bytes ?_)
    intro index below
    simp [bytes, below]
  · refine congrArg _ (field16_of_bytes ?_)
    intro index below
    simp [bytes, show ¬ 2 + index < 2 by omega,
      show 2 + index < 4 by omega]
  · refine congrArg _ (field16_of_bytes ?_)
    intro index below
    simp [bytes, show ¬ 4 + index < 2 by omega,
      show 4 + index < 6 by omega]
  · refine congrArg _ (field16_of_bytes ?_)
    intro index below
    simp [bytes, show ¬ 6 + index < 2 by omega,
      show ¬ 6 + index < 4 by omega, show 6 + index < 8 by omega]
  · refine congrArg _ (field32_of_bytes ?_)
    intro index below
    simp [bytes, show ¬ 8 + index < 2 by omega,
      show ¬ 8 + index < 4 by omega, show ¬ 8 + index < 6 by omega,
      show 8 + index < 12 by omega]
  · refine congrArg _ (field32_of_bytes ?_)
    intro index below
    have inside : address.val < 12 := address.isLt
    have position : (12 + 4 * address.val + index - 12) / 4 = address := by
      omega
    have digit : (12 + 4 * address.val + index - 12) % 4 = index := by
      omega
    simp only [bytes]
    rw [if_neg (by omega), if_neg (by omega), if_neg (by omega),
      if_neg (by omega), if_neg (by omega), if_pos (by omega), position,
      digit]
    have same : Fin.ofNat inodeNumDirect address.val = address :=
      Fin.ext (Nat.mod_eq_of_lt address.isLt)
    rw [same]
  · refine congrArg _ (field32_of_bytes ?_)
    intro index below
    simp only [bytes]
    rw [if_neg (by omega), if_neg (by omega), if_neg (by omega),
      if_neg (by omega), if_neg (by omega), if_neg (by omega),
      show 60 + index - 60 = index by omega]

end InodeEntry

/-! ## Bytes copied into a block -/

/-- `memcpy(data + offset, bytes, len)` -/
def patch (data : BlockData) (offset len : Nat) (bytes : Nat → UInt8) :
    BlockData :=
  fun index =>
    if offset ≤ index.val ∧ index.val < offset + len then
      bytes (index.val - offset)
    else
      data index

theorem byteAt_patch
    (data : BlockData)
    {offset len : Nat}
    (bytes : Nat → UInt8)
    (fits : offset + len ≤ blockSize)
    (index : Nat) :
    byteAt (patch data offset len bytes) index =
      if offset ≤ index ∧ index < offset + len then
        bytes (index - offset)
      else
        byteAt data index := by
  unfold byteAt
  by_cases inside : index < blockSize
  · simp [inside, patch]
  · have outside : ¬ (offset ≤ index ∧ index < offset + len) := by
      omega
    simp [inside, outside]

/-- `get_entry(block, inode_no)` reads the entry in a slot. -/
def entryAt (data : BlockData) (slot : Nat) : InodeEntry :=
  InodeEntry.decode fun index => byteAt data (64 * slot + index)

/-- An entry is copied into a slot. -/
def setEntry (data : BlockData) (slot : Nat) (entry : InodeEntry) :
    BlockData :=
  patch data (64 * slot) 64 entry.bytes

theorem entryAt_setEntry
    (data : BlockData)
    {slot : Nat}
    (inside : slot < inodePerBlock)
    (entry : InodeEntry)
    (other : Nat) :
    entryAt (setEntry data slot entry) other =
      if other = slot then entry else entryAt data other := by
  have fits : 64 * slot + 64 ≤ blockSize := by
    simp only [inodePerBlock, blockSize] at inside ⊢
    omega
  by_cases same : other = slot
  · subst same
    rw [if_pos rfl, ← entry.decode_bytes]
    apply InodeEntry.decode_congr
    intro index below
    rw [setEntry, byteAt_patch _ _ fits, if_pos (by omega),
      entry.decode_bytes]
    congr 1
    omega
  · rw [if_neg same]
    apply InodeEntry.decode_congr
    intro index below
    rw [setEntry, byteAt_patch _ _ fits, if_neg (by omega)]

/-- `get_addrs(block)[index]` -/
def addrAt (data : BlockData) (index : Nat) : UInt32 :=
  InodeEntry.field32 (byteAt data) (4 * index)

/-- `addrs[index] = address` -/
def setAddr (data : BlockData) (index : Nat) (address : UInt32) :
    BlockData :=
  patch data (4 * index) 4 (LittleEndian.byte address.toNat)

theorem addrAt_setAddr
    (data : BlockData)
    {index : Nat}
    (inside : index < inodeNumIndirect)
    (address : UInt32)
    (other : Nat) :
    addrAt (setAddr data index address) other =
      if other = index then address else addrAt data other := by
  have fits : 4 * index + 4 ≤ blockSize := by
    simp only [inodeNumIndirect, blockSize] at inside ⊢
    omega
  by_cases same : other = index
  · subst same
    rw [if_pos rfl]
    apply InodeEntry.field32_of_bytes
    intro digit below
    rw [setAddr, byteAt_patch _ _ fits, if_pos (by omega)]
    congr 1
    omega
  · rw [if_neg same]
    apply InodeEntry.field32_congr
    intro digit below
    rw [setAddr, byteAt_patch _ _ fits, if_neg (by omega)]

theorem addrAt_zero (index : Nat) :
    addrAt (fun _ => 0) index = 0 := by
  apply InodeEntry.field32_of_bytes
  intro digit _
  have zero : byteAt (fun _ => 0) (4 * index + digit) = 0 := by
    unfold byteAt
    split_ifs <;> rfl
  rw [zero]
  simp [LittleEndian.byte]

/-! ## The disk as the inode layer sees it -/

/-- What the inode layer keeps on the disk. -/
@[ext]
structure View where
  /-- Is the bit of the block set? -/
  used : Nat → Bool
  entry : Nat → InodeEntry
  /-- The contents of the data blocks. -/
  data : Nat → BlockData

section Views

variable (sblock : SuperBlock)

/-- `to_block_no(inode_no)` -/
def toBlockNo (inodeNo : Nat) : Nat :=
  sblock.inodeStart.toNat + inodeNo / inodePerBlock

/-- A block behind the metadata. -/
def IsData (blockNo : Nat) : Prop :=
  dataStart sblock ≤ blockNo ∧ blockNo < sblock.numBlocks.toNat

instance (blockNo : Nat) : Decidable (IsData sblock blockNo) :=
  inferInstanceAs (Decidable (_ ∧ _))

/-- The view of the blocks of a disk. -/
def view (blocks : Nat → BlockData) : View where
  used := BlockBitmap.used sblock blocks
  entry := fun inodeNo =>
    if inodeNo < sblock.numInodes.toNat then
      entryAt (blocks (toBlockNo sblock inodeNo)) (inodeNo % inodePerBlock)
    else
      InodeEntry.zero
  data := fun blockNo =>
    if IsData sblock blockNo then blocks blockNo else fun _ => 0

variable {sblock}

theorem toBlockNo_bounds
    (geometry : Geometry sblock)
    {inodeNo : Nat}
    (below : inodeNo < sblock.numInodes.toNat) :
    sblock.inodeStart.toNat ≤ toBlockNo sblock inodeNo ∧
      toBlockNo sblock inodeNo < sblock.bitmapStart.toNat := by
  exact ⟨Nat.le_add_right _ _, geometry.inodes inodeNo below⟩

/-- Copying an entry into its slot changes that entry only. -/
theorem view_setEntry
    (geometry : Geometry sblock)
    (blocks : Nat → BlockData)
    {inodeNo : Nat}
    (below : inodeNo < sblock.numInodes.toNat)
    (entry : InodeEntry) :
    view sblock
        (Function.update blocks (toBlockNo sblock inodeNo)
          (setEntry (blocks (toBlockNo sblock inodeNo))
            (inodeNo % inodePerBlock) entry)) =
      { view sblock blocks with
        entry := Function.update (view sblock blocks).entry inodeNo entry } := by
  have bounds := toBlockNo_bounds geometry below
  ext1
  · exact used_update_outside geometry _ (Or.inl bounds.2) _
  · funext other
    by_cases inside : other < sblock.numInodes.toNat
    · by_cases sameBlock :
          toBlockNo sblock other = toBlockNo sblock inodeNo
      · simp only [view, if_pos inside]
        rw [sameBlock, Function.update_self,
          entryAt_setEntry _ (Nat.mod_lt _ (by decide))]
        have slots :
            other % inodePerBlock = inodeNo % inodePerBlock ↔
              other = inodeNo := by
          simp only [toBlockNo, inodePerBlock, blockSize] at sameBlock ⊢
          omega
        by_cases same : other = inodeNo
        · subst same
          simp
        · rw [if_neg (fun slot => same (slots.mp slot)),
            Function.update_of_ne same]
          simp only [if_pos inside, sameBlock]
      · have different : other ≠ inodeNo := by
          rintro rfl
          exact sameBlock rfl
        simp only [view, if_pos inside]
        rw [Function.update_of_ne sameBlock, Function.update_of_ne different]
        simp only [if_pos inside]
    · have different : other ≠ inodeNo := by
        rintro rfl
        exact inside below
      simp only [view, if_neg inside]
      rw [Function.update_of_ne different]
      simp only [if_neg inside]
  · funext other
    simp only [view]
    by_cases isData : IsData sblock other
    · have later := geometry.bitmap_before
      have different : other ≠ toBlockNo sblock inodeNo := by
        have start := isData.1
        omega
      rw [if_pos isData, if_pos isData, Function.update_of_ne different]
    · rw [if_neg isData, if_neg isData]

/-- The entries are not in the data blocks. -/
theorem entry_congr
    (geometry : Geometry sblock)
    {left right : Nat → BlockData}
    (agree :
      ∀ blockNo < sblock.bitmapStart.toNat,
        left blockNo = right blockNo) :
    (view sblock left).entry = (view sblock right).entry := by
  funext inodeNo
  simp only [view]
  split_ifs with below
  · rw [agree _ (toBlockNo_bounds geometry below).2]
  · rfl

/-- A change of a data block changes its contents only. -/
theorem view_setData
    (geometry : Geometry sblock)
    (blocks : Nat → BlockData)
    {blockNo : Nat}
    (isData : IsData sblock blockNo)
    (data : BlockData) :
    view sblock (Function.update blocks blockNo data) =
      { view sblock blocks with
        data := Function.update (view sblock blocks).data blockNo data } := by
  have later := geometry.bitmap_before
  ext1
  · exact used_update_outside geometry _ (Or.inr isData.1) _
  · apply entry_congr geometry
    intro other before
    have start := isData.1
    exact Function.update_of_ne (by omega) _ _
  · funext other
    simp only [view]
    by_cases same : other = blockNo
    · subst same
      rw [if_pos isData, Function.update_self, Function.update_self]
    · rw [Function.update_of_ne same, Function.update_of_ne same]

/-- What `cache_alloc` does to the view. -/
theorem view_allocates
    (geometry : Geometry sblock)
    {store target : Store}
    {blockNo : Nat}
    (allocates : Allocates sblock store target blockNo) :
    view sblock target.blocks =
      { view sblock store.blocks with
        used :=
          Function.update (view sblock store.blocks).used blockNo true
        data :=
          Function.update (view sblock store.blocks).data blockNo
            fun _ => 0 } := by
  have later := geometry.bitmap_before
  have start := allocates.data
  ext1
  · exact allocates.marked
  · apply entry_congr geometry
    intro other before
    exact allocates.others other (Or.inl before) (by omega)
  · funext other
    simp only [view]
    by_cases same : other = blockNo
    · subst same
      rw [if_pos ⟨start, allocates.below⟩, Function.update_self,
        allocates.zeroed]
    · rw [Function.update_of_ne same]
      by_cases isData : IsData sblock other
      · rw [if_pos isData, if_pos isData,
          allocates.others other (Or.inr isData.1) same]
      · rw [if_neg isData, if_neg isData]

/-- What `cache_free` does to the view. -/
theorem view_frees
    (geometry : Geometry sblock)
    {left right : Nat → BlockData}
    {bits : Nat → Bool}
    (bitmap : BlockBitmap.used sblock right = bits)
    (others :
      ∀ other, OutsideBitmap sblock other → right other = left other) :
    view sblock right = { view sblock left with used := bits } := by
  ext1
  · exact bitmap
  · apply entry_congr geometry
    intro other before
    exact others other (Or.inl before)
  · funext other
    simp only [view]
    by_cases isData : IsData sblock other
    · rw [if_pos isData, if_pos isData, others other (Or.inr isData.1)]
    · rw [if_neg isData, if_neg isData]

end Views

end FudanOS.Fs.InodeLayout
