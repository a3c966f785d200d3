import FudanOS.User.MkfsImage

/-!
# Holes in the image

When all files are in the image, the program rounds the size of the root
directory and writes the bitmap.  The size is rounded to the next block even if
it is a whole number of blocks, so the root directory then ends with a block
which it does not have.  And nothing checks the number of inodes: the first one
which is behind the inode blocks is in the bitmap block.
-/

namespace FudanOS.User.MkfsHoles

open FudanOS.Library
open FudanOS.Library.Programs
open FudanOS.Fs.Defines
open FudanOS.Fs.BlockBitmap
open FudanOS.Fs.InodeLayout
open FudanOS.Fs.BlockOwnership
open FudanOS.Fs.FileContents
open FudanOS.Fs.Directory
open FudanOS.User.Mkfs
open FudanOS.User.MkfsAppend
open FudanOS.User.MkfsImage

/-! ## The bitmap -/

theorem hasBit_or_mask
    (byte : UInt8)
    {bit : Nat}
    (below : bit < 8)
    (other : Nat) :
    hasBit (byte ||| mask bit) other =
      (hasBit byte other || decide (other = bit)) := by
  unfold hasBit
  rw [UInt8.toBitVec_or, mask_toBitVec below, BitVec.getLsbD_or,
    BitVec.getLsbD_twoPow]
  by_cases same : other = bit
  · simp [same, below]
  · simp [same, Ne.symm same]

/-- The bits of the blocks below `used` are set. -/
theorem hasBit_bitmapOf
    {used : Nat}
    (fits : used ≤ bitPerBlock)
    {blockNo : Nat}
    (inside : blockNo < bitPerBlock) :
    hasBit (byteAt (bitmapOf used) (blockNo / 8)) (blockNo % 8) =
      decide (blockNo < used) := by
  induction used with
  | zero =>
      have zero : byteAt (bitmapOf 0) (blockNo / 8) = 0 := by
        unfold byteAt
        split_ifs <;> rfl
      rw [zero]
      simp [hasBit]
  | succ used ih =>
      have before := ih (Nat.le_of_succ_le fits)
      have position : used / 8 < blockSize := by
        simp only [bitPerBlock, blockSize] at fits ⊢
        omega
      have added :
          bitmapOf (used + 1) =
            setByte (bitmapOf used) (used / 8)
              (byteAt (bitmapOf used) (used / 8) ||| mask (used % 8)) := by
        unfold bitmapOf
        rw [List.range_succ, List.foldl_append]
        rfl
      rw [added, byteAt_setByte _ position]
      by_cases sameByte : blockNo / 8 = used / 8
      · rw [if_pos sameByte,
          hasBit_or_mask _ (Nat.mod_lt used (by decide)), ← sameByte,
          before]
        rw [← Bool.decide_or]
        apply decide_eq_decide.mpr
        omega
      · rw [if_neg sameByte, before]
        apply decide_eq_decide.mpr
        omega

/-! ## The finished image -/

/-- The root inode with its rounded size. -/
def roundedRoot (held : Image) : InodeEntry :=
  let din := (imageView held).entry rootInodeNo
  { din with
    numBytes :=
      UInt32.ofNat ((din.numBytes.toNat / blockSize + 1) * blockSize) }

/-- The image with the rounded size and the bitmap. -/
def finish (held : Image) : Image :=
  let rounded := putEntry held rootInodeNo (roundedRoot held)
  { rounded with
    blocks :=
      Function.update rounded.blocks sb.bitmapStart.toNat
        (bitmapOf held.freeblock) }

section Finish

variable
    {accepts : Exit → Prop}
    {held : Image}
    {files : List InputFile}

/-- The program finishes the image which holds the files. -/
theorem ensures_main
    (few : files.length + 1 < inodeLimit)
    (enough : (∀ exit, accepts exit) ∨ Accepted files) :
    Ensures accepts (main files) start
      fun _ image =>
        ∃ held,
          Holds held (files.length + 1) (bytesOf files) ∧
            image = finish held := by
  unfold main
  rw [ensures_bind]
  refine ensures_makeRoot.mono ?_
  intro _ made holdsMade
  rw [ensures_bind]
  refine (ensures_addFiles holdsMade few enough).mono ?_
  intro _ held holds
  have root : rootInodeNo < inodeLimit := by
    decide
  have bitmap : sb.bitmapStart.toNat < fsSize := by
    decide
  have small : decide (held.freeblock < blockSize * 8) = true := by
    apply decide_eq_true
    exact Nat.lt_of_le_of_lt holds.room (by decide)
  unfold fixRoot
  rw [ensures_bind, ensures_bind]
  refine ensures_rinode holds.prepared.size root ?_
  refine ensures_winode holds.prepared.size root ?_
  rw [ensures_bind, ensures_get]
  unfold balloc
  rw [ensures_bind]
  refine ensures_assert (Or.inr small) ?_
  intro _
  exact ensures_wsect holds.prepared.size bitmap ⟨held, holds, rfl⟩

theorem entry_finish
    (held : Image)
    {inodeNo : Nat}
    (fits : inodeNo < inodeLimit) :
    (finish held).entry inodeNo =
      if inodeNo = rootInodeNo then roundedRoot held
      else (imageView held).entry inodeNo := by
  have root : rootInodeNo < inodeLimit := by
    decide
  have before := (toBlockNo_wide fits).2
  have outside :
      (finish held).blocks (toBlockNo wide inodeNo) =
        (putEntry held rootInodeNo (roundedRoot held)).blocks
          (toBlockNo wide inodeNo) :=
    Function.update_of_ne (Nat.ne_of_lt before) _ _
  change entryAt ((finish held).blocks (toBlockNo wide inodeNo))
    (inodeNo % inodePerBlock) = _
  rw [outside, entry_view _ fits, view_putEntry held root]
  unfold seen
  dsimp only
  by_cases same : inodeNo = rootInodeNo
  · rw [if_pos same, same, Function.update_self]
  · rw [if_neg same, Function.update_of_ne same]
    rfl

/-- The addresses are those of the inode before its size is rounded. -/
theorem addresses_finish
    (held : Image)
    {inodeNo : Nat}
    (fits : inodeNo < inodeLimit) :
    ((finish held).entry inodeNo).addrs =
        ((imageView held).entry inodeNo).addrs ∧
      ((finish held).entry inodeNo).indirect =
        ((imageView held).entry inodeNo).indirect := by
  rw [entry_finish held fits]
  split_ifs with same
  · rw [same]
    exact ⟨rfl, rfl⟩
  · exact ⟨rfl, rfl⟩

theorem data_finish
    {blockNo : Nat}
    (isData : IsData wide blockNo) :
    (finish held).blocks blockNo = (imageView held).data blockNo := by
  have root : rootInodeNo < inodeLimit := by
    decide
  have start : sb.bitmapStart.toNat < blockNo :=
    Nat.lt_of_lt_of_le (by decide) isData.1
  have inode := (toBlockNo_wide root).2.trans start
  unfold finish putEntry imageView view
  dsimp only
  rw [Function.update_of_ne (Nat.ne_of_gt start),
    Function.update_of_ne (Nat.ne_of_gt inode), if_pos isData]

/-- The address of a block is what the slot of the block stores. -/
theorem address_finish
    {count : Nat}
    {bytes : Nat → List UInt8}
    (holds : Holds held count bytes)
    {inodeNo : Nat}
    (positive : 0 < inodeNo)
    (below : inodeNo ≤ count)
    {index : Nat}
    {slot : Slot}
    (isSlot : slotOf index = some slot) :
    (finish held).address inodeNo index =
      stored (imageView held) inodeNo slot := by
  have fits : inodeNo < inodeLimit := below.trans_lt holds.few
  rcases addresses_finish held fits with ⟨addrs, indirect⟩
  unfold slotOf at isSlot
  unfold Image.address
  dsimp only
  by_cases direct : index < inodeNumDirect
  · rw [dif_pos direct] at isSlot ⊢
    cases isSlot
    rw [addrs]
    rfl
  · rw [dif_neg direct] at isSlot ⊢
    by_cases second : index - inodeNumDirect < inodeNumIndirect
    · rw [dif_pos second] at isSlot
      cases isSlot
      have inside : ¬ inodeMaxBlocks ≤ index := by
        simp only [inodeMaxBlocks, inodeNumDirect] at direct second ⊢
        omega
      rw [indirect]
      unfold stored
      dsimp only
      by_cases none : ((imageView held).entry inodeNo).indirect = 0
      · rw [if_pos (Or.inl none), if_pos none]
      · have isTable :
            IsData wide
              ((imageView held).entry inodeNo).indirect.toNat := by
          refine holds.owned.exact.inside (inodeNo, .indirect)
            (holds.allocated positive below) ?_
          exact fun zero => none ((toNat_eq_zero_iff _).mp zero)
        rw [if_neg (not_or.mpr ⟨none, inside⟩), if_neg none,
          data_finish isTable]
    · rw [dif_neg second] at isSlot
      cases isSlot

/-- The blocks below `freeblock` are marked. -/
theorem used_finish
    (room : held.freeblock ≤ fsSize)
    {blockNo : Nat}
    (below : blockNo < held.freeblock) :
    used sb (finish held).blocks blockNo = true := by
  have inside : blockNo < fsSize := below.trans_le room
  have group : blockNo / bitPerBlock = 0 :=
    Nat.div_eq_of_lt (inside.trans (by decide))
  have remainder : blockNo % bitPerBlock = blockNo :=
    Nat.mod_eq_of_lt (inside.trans (by decide))
  have bitmap :
      (finish held).blocks sb.bitmapStart.toNat =
        bitmapOf held.freeblock := by
    unfold finish
    dsimp only
    rw [Function.update_self]
  have isInside : blockNo < sb.numBlocks.toNat := inside
  unfold used
  rw [group, remainder, Nat.add_zero, bitmap, decide_eq_true isInside,
    Bool.true_and,
    hasBit_bitmapOf (room.trans (by decide)) (inside.trans (by decide))]
  exact decide_eq_true below

/-- A block which the inode has is there, and marked. -/
theorem address_of_hasBlock
    {count : Nat}
    {bytes : Nat → List UInt8}
    (holds : Holds held count bytes)
    {inodeNo : Nat}
    (positive : 0 < inodeNo)
    (below : inodeNo ≤ count)
    {index : Nat}
    (has : HasBlock (imageView held) inodeNo index) :
    (finish held).address inodeNo index ≠ 0 ∧
      used sb (finish held).blocks ((finish held).address inodeNo index) =
        true := by
  rcases has with ⟨slot, isSlot, present⟩
  rw [address_finish holds positive below isSlot]
  refine ⟨present, used_finish holds.room ?_⟩
  have keyLive :
      (fun key : Nat × Slot => Allocated wide (imageView held) key.1)
        (inodeNo, slot) :=
    holds.allocated positive below
  exact of_decide_eq_true
    (holds.owned.exact.used_of_stored keyLive present)

theorem index_lt_blockCount
    {index size : Nat} :
    index * blockSize < size ↔ index < blockCount size := by
  unfold blockCount
  simp only [blockSize]
  omega

/-- A block below the size of a file is below the greatest number. -/
theorem blockCount_le
    {size : Nat}
    (short : size ≤ inodeMaxBytes) :
    blockCount size ≤ inodeMaxBlocks := by
  unfold blockCount
  simp only [inodeMaxBytes, inodeMaxBlocks, inodeNumDirect,
    inodeNumIndirect, blockSize] at short ⊢
  omega

theorem size_roundedRoot
    (holds : Holds held (files.length + 1) (bytesOf files)) :
    (roundedRoot held).numBytes.toNat =
      (direntSize * (files.length + 2) / blockSize + 1) * blockSize := by
  have positive : 0 < rootInodeNo := Nat.one_pos
  have below : rootInodeNo ≤ files.length + 1 := Nat.le_add_left 1 _
  have size := holds.size positive below
  have isRoot : bytesOf files rootInodeNo = rootBytes files := rfl
  rw [isRoot, length_rootBytes] at size
  have few := holds.few
  unfold roundedRoot
  dsimp only
  rw [size]
  apply UInt32.toNat_ofNat_of_lt
  simp only [inodeLimit, nInodeBlocks, nInodes, inodePerBlock, blockSize,
    direntSize, fileNameMaxLength, UInt32.size] at few ⊢
  omega

/-- Whether the last block of the root directory is there. -/
theorem noHoles_finish_iff
    (holds : Holds held (files.length + 1) (bytesOf files)) :
    NoHoles (finish held) ↔ (files.length + 2) % 32 ≠ 0 := by
  have positive : 0 < rootInodeNo := Nat.one_pos
  have below : rootInodeNo ≤ files.length + 1 := Nat.le_add_left 1 _
  have root : rootInodeNo < inodeLimit := below.trans_lt holds.few
  have isRoot : bytesOf files rootInodeNo = rootBytes files := rfl
  have filled := holds.filled rootInodeNo positive below
  have short := holds.short rootInodeNo positive below
  rw [isRoot, length_rootBytes] at filled short
  have size := size_roundedRoot holds
  have number : (finish held).freeinode = files.length + 2 := holds.number
  constructor
  · intro noHoles whole
    have isEntry := entry_finish held root
    rw [if_pos rfl] at isEntry
    have few := holds.few
    have hole :=
      (noHoles rootInodeNo positive (by rw [number]; omega)
        (direntSize * (files.length + 2) / blockSize)
        (by rw [isEntry, size]; simp only [blockSize]; omega)).1
    have inside :
        direntSize * (files.length + 2) / blockSize < inodeMaxBlocks := by
      simp only [inodeLimit, nInodeBlocks, nInodes, inodePerBlock,
        blockSize, direntSize, fileNameMaxLength, inodeMaxBlocks,
        inodeNumDirect, inodeNumIndirect] at few ⊢
      omega
    rcases slotOf_isSome inside with ⟨slot, isSlot⟩
    rw [address_finish holds positive below isSlot] at hole
    have has := (filled.blocks _ inside).mp ⟨slot, isSlot, hole⟩
    unfold blockCount at has
    simp only [blockSize, direntSize, fileNameMaxLength] at has
    omega
  · intro partly inodeNo isPositive inUse index isBelow
    rw [number] at inUse
    have isLive : inodeNo ≤ files.length + 1 := Nat.le_of_lt_succ inUse
    have fits : inodeNo < inodeLimit := isLive.trans_lt holds.few
    apply address_of_hasBlock holds isPositive isLive
    rw [entry_finish held fits] at isBelow
    by_cases same : inodeNo = rootInodeNo
    · rw [if_pos same, size] at isBelow
      have inside : index < blockCount (direntSize * (files.length + 2)) := by
        unfold blockCount
        simp only [blockSize, direntSize, fileNameMaxLength] at isBelow ⊢
        omega
      rw [same]
      exact (filled.blocks index
        (inside.trans_le (blockCount_le short))).mpr inside
    · rw [if_neg same, holds.size isPositive isLive,
        index_lt_blockCount] at isBelow
      have isShort := holds.short inodeNo isPositive isLive
      exact ((holds.filled inodeNo isPositive isLive).blocks index
        (isBelow.trans_le (blockCount_le isShort))).mpr isBelow

end Finish

/-! ## Too many inodes -/

/-- The program only takes blocks, and no inodes. -/
def Keeps {Value : Type} (program : Program Image Exit Value) : Prop :=
  ∀ image,
    Ensures (fun _ => True) program image fun _ target =>
      image.freeblock ≤ target.freeblock ∧
        target.freeinode = image.freeinode

section Keeps

variable {Value Result : Type}

theorem keeps_pure (value : Value) :
    Keeps (pure value : Program Image Exit Value) := by
  intro image
  rw [ensures_pure]
  exact ⟨Nat.le_refl _, rfl⟩

theorem Keeps.bind
    {program : Program Image Exit Value}
    {next : Value → Program Image Exit Result}
    (first : Keeps program)
    (second : ∀ value, Keeps (next value)) :
    Keeps (program >>= next) := by
  intro image
  rw [ensures_bind]
  refine (first image).mono ?_
  rintro value middle ⟨more, same⟩
  refine (second value middle).mono ?_
  rintro result target ⟨evenMore, stillSame⟩
  exact ⟨more.trans evenMore, stillSame.trans same⟩

theorem keeps_ite
    {condition : Prop}
    [Decidable condition]
    {yes no : Program Image Exit Value}
    (whenTrue : Keeps yes)
    (whenFalse : Keeps no) :
    Keeps (if condition then yes else no) := by
  intro image
  exact ensures_ite (fun _ => whenTrue image) fun _ => whenFalse image

theorem keeps_assert (condition : Bool) : Keeps (Mkfs.assert condition) :=
  fun _ => ensures_assert (Or.inl trivial) fun _ => ⟨Nat.le_refl _, rfl⟩

theorem keeps_wsect (sec : Nat) (buf : BlockData) : Keeps (wsect sec buf) :=
  fun _ => ⟨Nat.le_refl _, rfl⟩

theorem keeps_rsect (sec : Nat) : Keeps (rsect sec) := by
  intro image
  unfold rsect
  rw [ensures_bind, ensures_get]
  refine ensures_ite ?_ ?_
  · intro _
    exact ⟨Nat.le_refl _, rfl⟩
  · intro _
    exact trivial

theorem keeps_nextBlock : Keeps nextBlock :=
  fun _ => ⟨Nat.le_succ _, rfl⟩

theorem keeps_winode (inum : Nat) (din : InodeEntry) :
    Keeps (winode inum din) :=
  (keeps_rsect _).bind fun _ => keeps_wsect _ _

theorem keeps_rinode (inum : Nat) : Keeps (rinode inum) :=
  (keeps_rsect _).bind fun _ => keeps_pure _

theorem keeps_findBlock (din : InodeEntry) (fbn : Nat) :
    Keeps (findBlock din fbn) := by
  unfold findBlock
  split_ifs
  · exact keeps_ite (keeps_nextBlock.bind fun _ => keeps_pure _)
      (keeps_pure _)
  · refine Keeps.bind ?_ fun indirect => Keeps.bind ?_ fun _ => keeps_pure _
    · exact keeps_ite (keeps_nextBlock.bind fun _ => keeps_pure _)
        (keeps_pure _)
    · refine (keeps_rsect _).bind fun _ => keeps_ite ?_ (keeps_pure _)
      exact keeps_nextBlock.bind fun _ =>
        (keeps_wsect _ _).bind fun _ => keeps_pure _

theorem keeps_appendLoop
    (fuel : Nat)
    (din : InodeEntry)
    (p : List UInt8)
    (off : Nat) :
    Keeps (appendLoop fuel din p off) := by
  induction fuel generalizing din p off with
  | zero => exact keeps_pure _
  | succ fuel ih =>
      unfold appendLoop
      refine keeps_ite ?_ (keeps_pure _)
      refine (keeps_assert _).bind fun _ => ?_
      refine (keeps_findBlock _ _).bind fun _ => ?_
      refine (keeps_rsect _).bind fun _ => ?_
      exact (keeps_wsect _ _).bind fun _ => ih _ _ _

theorem keeps_iappend (inum : Nat) (p : List UInt8) :
    Keeps (iappend inum p) :=
  (keeps_rinode _).bind fun _ =>
    (keeps_appendLoop _ _ _ _).bind fun _ => keeps_winode _ _

theorem keeps_appendFile
    (inum fuel : Nat)
    (data : List UInt8) :
    Keeps (appendFile inum fuel data) := by
  induction fuel generalizing data with
  | zero => exact keeps_pure _
  | succ fuel ih =>
      unfold appendFile
      exact keeps_ite ((keeps_iappend _ _).bind fun _ => ih _)
        (keeps_pure _)

end Keeps

/-- Each file takes an inode. -/
theorem ensures_addFile_counts
    (file : InputFile)
    (image : Image) :
    Ensures (fun _ => True) (addFile file) image
      fun _ target =>
        image.freeblock ≤ target.freeblock ∧
          target.freeinode = image.freeinode + 1 := by
  unfold addFile
  rw [ensures_bind]
  refine ensures_assert (Or.inl trivial) fun _ => ?_
  unfold ialloc
  rw [ensures_bind, ensures_bind, ensures_get, ensures_bind, ensures_set,
    ensures_bind]
  refine (keeps_winode _ _ _).mono ?_
  rintro _ made ⟨more, same⟩
  rw [ensures_pure]
  have rest :
      Keeps
        (iappend rootInodeNo
            (dirent image.freeinode
              (strncpy (entryName file.path) fileNameMaxLength)) >>=
          fun _ =>
            appendFile image.freeinode file.data.length file.data) :=
    (keeps_iappend _ _).bind fun _ => keeps_appendFile _ _ _
  refine (rest made).mono ?_
  rintro _ target ⟨evenMore, stillSame⟩
  exact ⟨more.trans evenMore, stillSame.trans same⟩

theorem ensures_addFiles_counts
    (files : List InputFile)
    (image : Image) :
    Ensures (fun _ => True)
      (files.foldlM (fun _ file => addFile file) () :
        Program Image Exit Unit)
      image
      fun _ target =>
        image.freeblock ≤ target.freeblock ∧
          target.freeinode = image.freeinode + files.length := by
  induction files generalizing image with
  | nil => exact ⟨Nat.le_refl _, rfl⟩
  | cons file rest ih =>
      rw [List.foldlM_cons, ensures_bind]
      refine (ensures_addFile_counts file image).mono ?_
      rintro _ middle ⟨more, next⟩
      refine (ih middle).mono ?_
      rintro _ target ⟨evenMore, count⟩
      refine ⟨more.trans evenMore, ?_⟩
      rw [count, next, List.length_cons]
      omega

/-- The image when an inode is behind the inode blocks. -/
structure Overflowed (image : Image) : Prop where
  inodes : inodeLimit < image.freeinode
  blocks : 96 ≤ image.freeblock
  small : image.freeblock < bitPerBlock
  bitmap :
    image.blocks sb.bitmapStart.toNat = bitmapOf image.freeblock

/-- The root directory alone takes its blocks. -/
theorem rootBlocks_le_cost (files : List InputFile) :
    nMeta +
        blocksFor (blockCount (direntSize * (files.length + 2))) ≤
      cost (files.length + 1) (bytesOf files) := by
  have member : 1 ∈ Finset.Icc 1 (files.length + 1) :=
    Finset.mem_Icc.mpr ⟨Nat.le_refl 1, Nat.le_add_left 1 _⟩
  have isRoot : bytesOf files 1 = rootBytes files := rfl
  have single :=
    Finset.single_le_sum
      (f := fun inodeNo =>
        blocksFor (blockCount (bytesOf files inodeNo).length))
      (fun _ _ => Nat.zero_le _) member
  rw [isRoot, length_rootBytes] at single
  unfold cost
  exact Nat.add_le_add_left single nMeta

theorem ensures_balloc
    (image : Image)
    (used : Nat) :
    Ensures (fun _ => True) (balloc used) image
      fun _ target =>
        used < bitPerBlock ∧ target.freeblock = image.freeblock ∧
          target.freeinode = image.freeinode ∧
          target.blocks sb.bitmapStart.toNat = bitmapOf used := by
  unfold balloc
  rw [ensures_bind]
  refine ensures_assert (Or.inl trivial) ?_
  intro checked
  have same : sector sb.bitmapStart.toNat = sb.bitmapStart.toNat := by
    decide
  unfold wsect
  rw [ensures_modify, same]
  refine ⟨of_decide_eq_true checked, rfl, rfl, ?_⟩
  dsimp only
  rw [Function.update_self]

theorem ensures_main_many
    {files : List InputFile}
    (many : inodeLimit ≤ files.length + 1) :
    Ensures (fun _ => True) (main files) start
      fun _ image => Overflowed image := by
  have length : (files.take 206).length = 206 := by
    rw [List.length_take]
    simp only [inodeLimit, nInodeBlocks, nInodes, inodePerBlock, blockSize]
      at many
    omega
  have few : (files.take 206).length + 1 < inodeLimit := by
    rw [length]
    decide
  have least := rootBlocks_le_cost (files.take 206)
  rw [length] at least
  unfold main
  rw [ensures_bind]
  refine ensures_makeRoot.mono ?_
  intro _ made holdsMade
  rw [ensures_bind, ← List.take_append_drop 206 files,
    List.foldlM_append, ensures_bind]
  refine (ensures_addFiles holdsMade few (Or.inl fun _ => trivial)).mono ?_
  intro _ middle holds
  have used := holds.used
  have number := holds.number
  rw [length] at used number
  refine (ensures_addFiles_counts (files.drop 206) middle).mono ?_
  rintro _ full ⟨more, count⟩
  rw [ensures_bind]
  have fixes : Keeps fixRoot :=
    (keeps_rinode _).bind fun _ => keeps_winode _ _
  refine (fixes full).mono ?_
  rintro _ fixed ⟨evenMore, same⟩
  rw [ensures_bind, ensures_get]
  refine (ensures_balloc fixed fixed.freeblock).mono ?_
  rintro _ image ⟨small, blocks, inodes, bitmap⟩
  have value : nMeta + blocksFor (blockCount (direntSize * (206 + 2))) = 99 :=
    rfl
  rw [value] at least
  refine ⟨?_, ?_, ?_, ?_⟩
  · rw [inodes, same, count, number, List.length_drop]
    simp only [inodeLimit, nInodeBlocks, nInodes, inodePerBlock, blockSize]
      at many ⊢
    omega
  · rw [blocks]
    omega
  · rw [blocks]
    exact small
  · rw [blocks]
    exact bitmap

/-- All bits of a byte are set. -/
theorem eq_of_hasBit
    {byte : UInt8}
    (set : ∀ bit < 8, hasBit byte bit = true) :
    byte = 255 := by
  apply UInt8.toBitVec_inj.mp
  apply BitVec.eq_of_getLsbD_eq
  intro bit inside
  have isSet := set bit inside
  unfold hasBit at isSet
  rw [isSet]
  have ones : ∀ bit < 8, (255 : UInt8).toBitVec.getLsbD bit = true := by
    decide
  exact (ones bit inside).symm

/-- The inode in the bitmap block seems to have `2 ^ 32 - 1` bytes. -/
theorem Overflowed.not_noHoles
    {image : Image}
    (overflowed : Overflowed image) :
    ¬ NoHoles image := by
  have block : toBlockNo sb inodeLimit = sb.bitmapStart.toNat := by
    decide
  have slot : inodeLimit % inodePerBlock = 0 := by
    decide
  have ones :
      ∀ index < 4,
        byteAt (bitmapOf image.freeblock) (8 + index) =
          LittleEndian.byte (0xFFFFFFFF : UInt32).toNat index := by
    intro index below
    have value :
        ∀ index < 4,
          LittleEndian.byte (0xFFFFFFFF : UInt32).toNat index = 255 := by
      decide
    rw [value index below]
    apply eq_of_hasBit
    intro bit inside
    have bytes : (8 * (8 + index) + bit) / 8 = 8 + index := by
      omega
    have bits : (8 * (8 + index) + bit) % 8 = bit := by
      omega
    have number : 8 * (8 + index) + bit < bitPerBlock := by
      simp only [bitPerBlock, blockSize]
      omega
    have isSet :=
      hasBit_bitmapOf (Nat.le_of_lt overflowed.small) number
    rw [bytes, bits] at isSet
    rw [isSet]
    have enough := overflowed.blocks
    apply decide_eq_true
    omega
  have size : (image.entry inodeLimit).numBytes = 0xFFFFFFFF := by
    unfold Image.entry
    rw [block, slot, overflowed.bitmap]
    apply InodeEntry.field32_of_bytes
    intro index below
    exact ones index below
  have hole : image.address inodeLimit inodeMaxBlocks = 0 := by
    unfold Image.address
    dsimp only
    rw [dif_neg (by decide), if_pos (Or.inr (Nat.le_refl _))]
  intro noHoles
  have present :=
    noHoles inodeLimit (by decide) overflowed.inodes inodeMaxBlocks
      (by rw [size]; decide)
  exact present.1 hole

/-! ## The claim about the image -/

theorem run_of_mkfs
    {files : List InputFile}
    {image : Image}
    (made : mkfs files = .ok image) :
    (main files).run start = .ok ((), image) := by
  unfold mkfs at made
  cases returned : (main files).run start with
  | error exit =>
      rw [returned] at made
      cases made
  | ok result =>
      rw [returned] at made
      cases made
      rfl

/--
An image has no holes exactly if the inodes fit in the inode blocks and the
entries of the root directory do not fill its last block.
-/
theorem no_holes_iff
    {files : List InputFile}
    {image : Image}
    (made : mkfs files = .ok image) :
    NoHoles image ↔
      files.length ≤ 206 ∧ (files.length + 2) % 32 ≠ 0 := by
  have returned := run_of_mkfs made
  rcases Nat.lt_or_ge (files.length + 1) inodeLimit with few | many
  · have ensures :
        Ensures (fun _ => True) (main files) start
          fun _ image =>
            ∃ held,
              Holds held (files.length + 1) (bytesOf files) ∧
                image = finish held :=
      ensures_main few (Or.inl fun _ => trivial)
    rcases ensures.of_run returned with ⟨held, holds, rfl⟩
    rw [noHoles_finish_iff holds]
    have bound : files.length ≤ 206 := by
      simp only [inodeLimit, nInodeBlocks, nInodes, inodePerBlock,
        blockSize] at few
      omega
    simp [bound]
  · have overflowed := (ensures_main_many many).of_run returned
    have bound : ¬ files.length ≤ 206 := by
      simp only [inodeLimit, nInodeBlocks, nInodes, inodePerBlock,
        blockSize] at many
      omega
    simp [bound, overflowed.not_noHoles]

/-- The program accepts files which fit. -/
theorem mkfs_of_accepted
    {files : List InputFile}
    (accepted : Accepted files) :
    ∃ image held,
      mkfs files = .ok image ∧
        Holds held (files.length + 1) (bytesOf files) ∧
        image = finish held := by
  have ensures :
      Ensures (fun _ => False) (main files) start
        fun _ image =>
          ∃ held,
            Holds held (files.length + 1) (bytesOf files) ∧
              image = finish held :=
    ensures_main accepted.few (Or.inr accepted)
  rcases ensures.returns with ⟨_, image, returned, held, holds, isImage⟩
  refine ⟨image, held, ?_, holds, isImage⟩
  unfold mkfs
  rw [returned]
  rfl

/-- Empty files with names of one letter -/
def emptyFiles (count : Nat) : List InputFile :=
  (List.range count).map fun index =>
    { path := [UInt8.ofNat (97 + index)], data := [] }

theorem accepted_emptyFiles
    (count : Nat)
    (few : count ≤ 206) :
    Accepted (emptyFiles count) := by
  have length : (emptyFiles count).length = count := by
    unfold emptyFiles
    rw [List.length_map, List.length_range]
  have empty :
      ∀ index, bytesOf (emptyFiles count) (index + 2) = [] := by
    intro index
    unfold bytesOf emptyFiles
    dsimp only
    rw [List.getElem?_map]
    cases (List.range count)[index]? <;> rfl
  have root :
      (bytesOf (emptyFiles count) 1).length = 16 * (count + 2) := by
    have size := length_rootBytes (emptyFiles count)
    rw [length] at size
    exact size
  refine ⟨?_, ?_, ?_⟩
  · rw [length]
    simp only [inodeLimit, nInodeBlocks, nInodes, inodePerBlock, blockSize]
    omega
  · intro inodeNo positive _
    match inodeNo with
    | 1 =>
        rw [root]
        simp only [inodeMaxBytes, inodeMaxBlocks, inodeNumDirect,
          inodeNumIndirect, blockSize]
        omega
    | index + 2 =>
        rw [empty]
        exact Nat.zero_le _
  · rw [length]
    have member : 1 ∈ Finset.Icc 1 (count + 1) :=
      Finset.mem_Icc.mpr ⟨Nat.le_refl 1, Nat.le_add_left 1 _⟩
    unfold cost
    rw [Finset.sum_eq_single_of_mem 1 member, root]
    · unfold blocksFor blockCount
      simp only [blockSize, inodeNumDirect, nMeta, numLogBlocks, logMaxSize,
        nInodeBlocks, nInodes, inodePerBlock, nBitmap, fsSize]
      split_ifs <;> omega
    · intro inodeNo inside different
      match inodeNo with
      | 0 => exact absurd (Finset.mem_Icc.mp inside).1 (by decide)
      | 1 => exact absurd rfl different
      | index + 2 =>
          rw [empty]
          rfl

theorem no_holes_iff_two_files :
    ∃ image,
      mkfs (emptyFiles 2) = .ok image ∧ NoHoles image := by
  rcases mkfs_of_accepted (accepted_emptyFiles 2 (by decide)) with
    ⟨image, _, made, _⟩
  exact ⟨image, made, (no_holes_iff made).mpr (by decide)⟩

/-- Thirty files and two more entries fill the first block of the root. -/
theorem root_has_hole :
    ∃ image,
      mkfs (emptyFiles 30) = .ok image ∧ image.address 1 1 = 0 ∧
        512 < (image.entry 1).numBytes.toNat ∧ ¬ NoHoles image := by
  have length : (emptyFiles 30).length = 30 := rfl
  rcases mkfs_of_accepted (accepted_emptyFiles 30 (by decide)) with
    ⟨image, held, made, holds, rfl⟩
  have root : 1 < inodeLimit := by
    decide
  have size := size_roundedRoot holds
  have isEntry := entry_finish held root
  rw [if_pos rfl] at isEntry
  have filled := holds.filled 1 Nat.one_pos (Nat.le_add_left 1 _)
  have noBlock : ¬ HasBlock (imageView held) 1 1 := by
    rw [filled.blocks 1 (by decide)]
    have isRoot :
        bytesOf (emptyFiles 30) 1 = rootBytes (emptyFiles 30) :=
      rfl
    rw [isRoot, length_rootBytes, length]
    decide
  refine ⟨finish held, made, ?_, ?_, ?_⟩
  · have isSlot : slotOf 1 = some (.direct 1) := rfl
    rw [address_finish holds Nat.one_pos (Nat.le_add_left 1 _) isSlot]
    by_contra present
    exact noBlock ⟨_, isSlot, present⟩
  · rw [isEntry, size, length]
    decide
  · intro noHoles
    exact (noHoles_finish_iff holds).mp noHoles rfl

end FudanOS.User.MkfsHoles
