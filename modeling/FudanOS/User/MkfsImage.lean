import FudanOS.User.MkfsAppend
import FudanOS.Library.Runs
import Mathlib.Algebra.BigOperators.Intervals
import Mathlib.Algebra.Order.BigOperators.Group.Finset

/-!
# The files in the image

While the inodes fit in the inode blocks, the image holds the files which were
appended so far: inode 1 is the root directory, and the input files follow in
the order of the arguments.  The invariant also says how many blocks are used,
so it tells when the program accepts its input.
-/

namespace FudanOS.User.MkfsImage

open FudanOS.Library
open FudanOS.Library.Programs
open FudanOS.Library.Runs
open FudanOS.Fs.Defines
open FudanOS.Fs.BlockBitmap
open FudanOS.Fs.InodeLayout
open FudanOS.Fs.BlockOwnership
open FudanOS.Fs.FileContents
open FudanOS.Fs.FileSpecs
open FudanOS.Fs.Directory
open FudanOS.User.Mkfs
open FudanOS.User.MkfsAppend

/-- The inodes which fit in the inode blocks, with number 0. -/
abbrev inodeLimit : Nat := nInodeBlocks * inodePerBlock

def inodeType (inodeNo : Nat) : UInt16 :=
  if inodeNo = rootInodeNo then inodeDirectory else inodeRegular

/-- The blocks which files with these bytes take, with the metadata. -/
def cost (count : Nat) (bytes : Nat → List UInt8) : Nat :=
  nMeta +
    ∑ inodeNo ∈ Finset.Icc 1 count,
      blocksFor (blockCount (bytes inodeNo).length)

/-- The blocks before the inodes, which are written once. -/
def lowBlock (blockNo : Nat) : BlockData :=
  if blockNo = 1 then patch (fun _ => 0) 0 28 sbBytes else fun _ => 0

/-- The image holds the inodes from 1 to `count` with their bytes. -/
structure Holds
    (image : Image)
    (count : Nat)
    (bytes : Nat → List UInt8) : Prop where
  prepared : Prepared image
  room : image.freeblock ≤ fsSize
  owned : Owned wide (imageView image)
  number : image.freeinode = count + 1
  few : count < inodeLimit
  live :
    ∀ inodeNo, 0 < inodeNo → inodeNo ≤ count →
      ((imageView image).entry inodeNo).type = inodeType inodeNo
  dead :
    ∀ inodeNo, count < inodeNo → inodeNo < inodeLimit →
      ((imageView image).entry inodeNo).type = inodeInvalid
  contents :
    ∀ inodeNo, 0 < inodeNo → inodeNo ≤ count →
      contents (imageView image) inodeNo = bytes inodeNo
  filled :
    ∀ inodeNo, 0 < inodeNo → inodeNo ≤ count →
      FilledTo (imageView image) inodeNo
        (blockCount (bytes inodeNo).length)
  short :
    ∀ inodeNo, 0 < inodeNo → inodeNo ≤ count →
      (bytes inodeNo).length ≤ inodeMaxBytes
  used : image.freeblock = cost count bytes
  low : ∀ blockNo < sb.inodeStart.toNat, image.blocks blockNo = lowBlock blockNo

theorem inodeType_ne (inodeNo : Nat) : inodeType inodeNo ≠ inodeInvalid := by
  unfold inodeType
  split_ifs
  · decide
  · decide

section Inodes

variable
    {accepts : Exit → Prop}
    {image : Image}
    {count inum : Nat}
    {bytes : Nat → List UInt8}

theorem Holds.allocated
    (holds : Holds image count bytes)
    (positive : 0 < inum)
    (below : inum ≤ count) :
    Allocated wide (imageView image) inum := by
  refine ⟨positive, below.trans_lt holds.few, ?_⟩
  rw [holds.live inum positive below]
  exact inodeType_ne inum

theorem Holds.size
    (holds : Holds image count bytes)
    (positive : 0 < inum)
    (below : inum ≤ count) :
    ((imageView image).entry inum).numBytes.toNat =
      (bytes inum).length := by
  rw [← holds.contents inum positive below, length_contents]
  rfl

theorem iblock_eq (inum : Nat) : iblock inum = toBlockNo wide inum :=
  Nat.add_comm _ _

theorem toBlockNo_wide
    (fits : inum < inodeLimit) :
    sb.inodeStart.toNat ≤ toBlockNo wide inum ∧
      toBlockNo wide inum < sb.bitmapStart.toNat :=
  toBlockNo_bounds geometry_wide fits

theorem toBlockNo_lt
    (fits : inum < inodeLimit) :
    toBlockNo wide inum < fsSize :=
  (toBlockNo_wide fits).2.trans (by decide)

theorem entry_view
    (image : Image)
    (fits : inum < inodeLimit) :
    entryAt (image.blocks (toBlockNo wide inum)) (inum % inodePerBlock) =
      (imageView image).entry inum := by
  have below : inum < wide.numInodes.toNat := fits
  unfold imageView view
  dsimp only
  rw [if_pos below]

theorem ensures_rinode
    {post : InodeEntry → Image → Prop}
    (size : image.size = fsSize)
    (fits : inum < inodeLimit)
    (continues : post ((imageView image).entry inum) image) :
    Ensures accepts (rinode inum) image post := by
  unfold rinode
  rw [ensures_bind, iblock_eq]
  refine ensures_rsect size (toBlockNo_lt fits) ?_
  rw [ensures_pure, entry_view image fits]
  exact continues

/-- The image with another entry of an inode. -/
def putEntry (image : Image) (inum : Nat) (entry : InodeEntry) : Image :=
  { image with
    blocks :=
      Function.update image.blocks (toBlockNo wide inum)
        (setEntry (image.blocks (toBlockNo wide inum))
          (inum % inodePerBlock) entry) }

theorem ensures_winode
    {entry : InodeEntry}
    {post : Unit → Image → Prop}
    (size : image.size = fsSize)
    (fits : inum < inodeLimit)
    (continues : post () (putEntry image inum entry)) :
    Ensures accepts (winode inum entry) image post := by
  unfold winode
  rw [ensures_bind, iblock_eq]
  refine ensures_rsect size (toBlockNo_lt fits) ?_
  exact ensures_wsect size (toBlockNo_lt fits) continues

theorem view_putEntry
    (image : Image)
    (fits : inum < inodeLimit)
    (entry : InodeEntry) :
    imageView (putEntry image inum entry) = seen image inum entry := by
  unfold imageView putEntry seen
  dsimp only
  rw [view_setEntry geometry_wide _ fits]

/-- An entry is not in the blocks behind it. -/
theorem prepared_putEntry
    (prepared : Prepared image)
    (fits : inum < inodeLimit)
    (entry : InodeEntry) :
    Prepared (putEntry image inum entry) := by
  have before : sb.bitmapStart.toNat ≤ nMeta := by
    decide
  apply prepared_write prepared
  exact (toBlockNo_wide fits).2.trans_le (before.trans prepared.data)

theorem low_putEntry
    (low :
      ∀ blockNo < sb.inodeStart.toNat,
        image.blocks blockNo = lowBlock blockNo)
    (fits : inum < inodeLimit)
    (entry : InodeEntry)
    {blockNo : Nat}
    (below : blockNo < sb.inodeStart.toNat) :
    (putEntry image inum entry).blocks blockNo = lowBlock blockNo := by
  have start := (toBlockNo_wide fits).1
  unfold putEntry
  dsimp only
  rw [Function.update_of_ne (Nat.ne_of_lt (below.trans_le start))]
  exact low blockNo below

/-- The other inodes keep their blocks. -/
theorem FilledTo.of_apart
    {start finish : View}
    {other number : Nat}
    (apart : Apart wide inum start finish)
    (different : other ≠ inum)
    (allocated : Allocated wide start other)
    (filled : FilledTo start other number) :
    FilledTo finish other number := by
  refine ⟨?_, ?_⟩
  · intro index inside
    rw [← filled.blocks index inside]
    unfold HasBlock
    simp only [apart.stored_eq different allocated]
  · rw [apart.entry other different]
    exact filled.indirect

/-- The cost of one file is replaced. -/
theorem cost_update
    (bytes : Nat → List UInt8)
    (positive : 0 < inum)
    (below : inum ≤ count)
    (value : List UInt8) :
    cost count (Function.update bytes inum value) +
        blocksFor (blockCount (bytes inum).length) =
      cost count bytes + blocksFor (blockCount value.length) := by
  have member : inum ∈ Finset.Icc 1 count :=
    Finset.mem_Icc.mpr ⟨positive, below⟩
  have moved :=
    sum_update_add_of_mem
      (fun file : List UInt8 => blocksFor (blockCount file.length)) bytes
      member value
  unfold cost
  omega

/-- The bytes are appended to those of the file. -/
theorem contents_appended
    {start finish : View}
    {off : Nat}
    {p : List UInt8}
    (before : fileSize start inum = off)
    (after : fileSize finish inum = off + p.length)
    (written :
      ∀ position,
        fileByte finish inum position =
          if off ≤ position ∧ position < off + p.length then
            p.getD (position - off) 0
          else
            fileByte start inum position) :
    contents finish inum = contents start inum ++ p := by
  unfold contents
  rw [after, before, List.range_add, List.map_append]
  congr 1
  · apply List.map_congr_left
    intro position inside
    have small := List.mem_range.mp inside
    rw [written, if_neg fun both => Nat.not_le.mpr small both.1]
  · apply List.ext_getElem
    · simp
    · intro index _ inside
      have within : off ≤ off + index ∧ off + index < off + p.length := by
        omega
      simp [written, within, inside]

/-- The image after `iappend` has put the inode back. -/
theorem Appended.holds
    {off : Nat}
    {p : List UInt8}
    {last : InodeEntry × Nat}
    {target : Image}
    (holds : Holds image count bytes)
    (positive : 0 < inum)
    (below : inum ≤ count)
    (isOff : off = (bytes inum).length)
    (appended :
      Appended image inum ((imageView image).entry inum) off p last
        target) :
    Holds
      (putEntry target inum
        { last.1 with numBytes := UInt32.ofNat last.2 })
      count (Function.update bytes inum (bytes inum ++ p)) := by
  have fits : inum < inodeLimit := below.trans_lt holds.few
  have rewrites := appended.rewrites
  rw [seen_entry] at rewrites
  have short : off + p.length ≤ inodeMaxBytes := by
    by_cases some : 0 < p.length
    · exact appended.small some
    · have before := holds.short inum positive below
      omega
  have number :
      (UInt32.ofNat last.2).toNat = (bytes inum ++ p).length := by
    rw [appended.offset, List.length_append, isOff]
    apply UInt32.toNat_ofNat_of_lt
    rw [← isOff]
    exact Nat.lt_of_le_of_lt short (by decide)
  generalize isEntry :
    { last.1 with numBytes := UInt32.ofNat last.2 } = entry
  have sees :
      imageView (putEntry target inum entry) =
        withEntry (seen target inum last.1) inum entry := by
    rw [view_putEntry target fits, withEntry_seen]
  have here : (seen target inum last.1).entry inum = last.1 :=
    seen_self target inum last.1
  have addrs : entry.addrs =
      ((seen target inum last.1).entry inum).addrs := by
    rw [here, ← isEntry]
  have indirect : entry.indirect =
      ((seen target inum last.1).entry inum).indirect := by
    rw [here, ← isEntry]
  have type : entry.type = inodeType inum := by
    have fields := rewrites.fields.type
    rw [here, holds.live inum positive below] at fields
    rw [← isEntry]
    exact fields
  have apart :
      Apart wide inum (imageView image)
        (imageView (putEntry target inum entry)) := by
    rw [sees]
    exact rewrites.apart.trans Apart.withEntry
  have newEntry :
      (imageView (putEntry target inum entry)).entry inum = entry := by
    rw [sees]
    exact Function.update_self _ _ _
  have newSize :
      fileSize (imageView (putEntry target inum entry)) inum =
        (bytes inum ++ p).length := by
    unfold fileSize
    rw [newEntry, ← number, ← isEntry]
  have oldSize : fileSize (imageView image) inum = off := by
    rw [isOff]
    exact holds.size positive below
  have length : off + p.length = (bytes inum ++ p).length := by
    rw [List.length_append, isOff]
  refine ⟨?_, appended.memory.room, ?_, ?_, holds.few, ?_, ?_, ?_, ?_, ?_,
    ?_, ?_⟩
  · exact prepared_putEntry appended.memory.prepared fits entry
  · rw [sees]
    refine owned_withEntry appended.memory.owned addrs indirect ?_
    rw [type]
    have allocated := appended.memory.allocated.2.2
    exact ⟨fun zero => absurd zero (inodeType_ne inum),
      fun zero => absurd zero allocated⟩
  · exact appended.inodes.trans holds.number
  · intro other otherPositive otherBelow
    by_cases same : other = inum
    · rw [same, newEntry, type]
    · rw [apart.entry other same]
      exact holds.live other otherPositive otherBelow
  · intro other above inside
    have different : other ≠ inum := by
      rintro rfl
      omega
    rw [apart.entry other different]
    exact holds.dead other above inside
  · intro other otherPositive otherBelow
    by_cases same : other = inum
    · rw [same, Function.update_self,
        ← holds.contents inum positive below]
      refine contents_appended oldSize (newSize.trans length.symm) ?_
      intro position
      rw [sees, fileByte_withEntry addrs indirect]
      exact rewrites.bytes position
    · rw [Function.update_of_ne same,
        apart.contents_eq same (holds.allocated otherPositive otherBelow)]
      exact holds.contents other otherPositive otherBelow
  · intro other otherPositive otherBelow
    by_cases same : other = inum
    · rw [same, Function.update_self, ← length]
      have filled := appended.memory.filled
      have stores :
          ∀ place,
            stored (imageView (putEntry target inum entry)) inum place =
              stored (seen target inum last.1) inum place := by
        intro place
        rw [sees]
        cases place <;> simp [stored, withEntry, addrs, indirect]
      refine ⟨?_, ?_⟩
      · intro index inside
        rw [← filled.blocks index inside]
        unfold HasBlock
        simp only [stores]
      · rw [newEntry, indirect]
        exact filled.indirect
    · rw [Function.update_of_ne same]
      exact FilledTo.of_apart apart same
        (holds.allocated otherPositive otherBelow)
        (holds.filled other otherPositive otherBelow)
  · intro other otherPositive otherBelow
    by_cases same : other = inum
    · rw [same, Function.update_self, ← length]
      exact short
    · rw [Function.update_of_ne same]
      exact holds.short other otherPositive otherBelow
  · have moved := cost_update bytes positive below (bytes inum ++ p)
    have paid := appended.cost
    have used := holds.used
    rw [isOff] at paid
    rw [List.length_append] at moved
    change target.freeblock = _
    omega
  · intro blockNo before
    refine low_putEntry ?_ fits entry before
    intro blockNo before
    have lower : sb.inodeStart.toNat ≤ nMeta := by
      decide
    rw [appended.kept blockNo (before.trans_le lower)]
    exact holds.low blockNo before

/-- `iappend` appends the bytes to the file, if they fit. -/
theorem ensures_iappend
    {p : List UInt8}
    (holds : Holds image count bytes)
    (positive : 0 < inum)
    (below : inum ≤ count)
    (enough :
      (∀ exit, accepts exit) ∨
        (bytes inum).length + p.length ≤ inodeMaxBytes ∧
          cost count (Function.update bytes inum (bytes inum ++ p)) ≤
            fsSize) :
    Ensures accepts (iappend inum p) image
      fun _ target =>
        Holds target count
          (Function.update bytes inum (bytes inum ++ p)) := by
  have fits : inum < inodeLimit := below.trans_lt holds.few
  have size := holds.size positive below
  unfold iappend
  rw [ensures_bind]
  refine ensures_rinode holds.prepared.size fits ?_
  rw [ensures_bind, size]
  have memory :
      InMemory image inum ((imageView image).entry inum)
        (bytes inum).length := by
    refine ⟨holds.prepared, holds.room, ?_, ?_, ?_⟩
    · rw [seen_entry]
      exact holds.owned
    · rw [seen_entry]
      exact holds.allocated positive below
    · rw [seen_entry]
      exact holds.filled inum positive below
  refine (ensures_appendLoop (Nat.le_refl _) memory ?_).mono ?_
  · refine enough.imp_right ?_
    rintro ⟨small, capacity⟩
    refine ⟨small, ?_⟩
    have moved := cost_update bytes positive below (bytes inum ++ p)
    have used := holds.used
    rw [List.length_append] at moved
    omega
  · intro last target appended
    refine ensures_winode appended.memory.prepared.size fits ?_
    exact Appended.holds holds positive below rfl appended

theorem cost_succ
    (count : Nat)
    (bytes : Nat → List UInt8) :
    cost (count + 1) bytes =
      cost count bytes +
        blocksFor (blockCount (bytes (count + 1)).length) := by
  unfold cost
  rw [Finset.sum_Icc_succ_top (Nat.le_add_left 1 count)]
  exact (Nat.add_assoc _ _ _).symm

theorem cost_one (bytes : Nat → List UInt8) :
    cost 1 bytes = nMeta + blocksFor (blockCount (bytes 1).length) := by
  unfold cost
  rw [Finset.Icc_self, Finset.sum_singleton]

/-- The inode with the next number is made, with no bytes. -/
theorem ensures_ialloc
    (holds : Holds image count bytes)
    (few : count + 1 < inodeLimit)
    (empty : bytes (count + 1) = []) :
    Ensures accepts (ialloc (inodeType (count + 1))) image
      fun inum target => inum = count + 1 ∧ Holds target (count + 1) bytes := by
  generalize isEntry :
    { InodeEntry.zero with
      type := inodeType (count + 1)
      numLinks := 1 } = entry
  have bare : Bare entry := by
    rw [← isEntry]
    exact ⟨fun _ => rfl, rfl⟩
  have type : entry.type = inodeType (count + 1) := by
    rw [← isEntry]
  unfold ialloc
  rw [ensures_bind, ensures_get, ensures_bind, ensures_set, ensures_bind,
    holds.number, isEntry]
  generalize isImage :
    { image with freeinode := count + 1 + 1 } = counted
  have prepared : Prepared counted := by
    rw [← isImage]
    exact ⟨holds.prepared.size, holds.prepared.data, holds.prepared.blank⟩
  have sameView : imageView counted = imageView image := by
    rw [← isImage]
    rfl
  refine ensures_winode prepared.size few ?_
  rw [ensures_pure]
  refine ⟨rfl, ?_⟩
  have sees :
      imageView (putEntry counted (count + 1) entry) =
        withEntry (imageView image) (count + 1) entry := by
    rw [view_putEntry counted few, ← sameView, ← seen_entry counted,
      withEntry_seen]
  have apart :
      Apart wide (count + 1) (imageView image)
        (imageView (putEntry counted (count + 1) entry)) := by
    rw [sees]
    exact Apart.withEntry
  have newEntry :
      (imageView (putEntry counted (count + 1) entry)).entry (count + 1) =
        entry := by
    rw [sees]
    exact Function.update_self _ _ _
  have free : ¬ Allocated wide (imageView image) (count + 1) := by
    intro allocated
    exact allocated.2.2
      (holds.dead (count + 1) (Nat.lt_succ_self count) few)
  have old : ∀ other, other ≤ count + 1 → other ≠ count + 1 →
      other ≤ count := by
    omega
  refine ⟨prepared_putEntry prepared few entry, ?_, ?_, ?_, few, ?_, ?_, ?_,
    ?_, ?_, ?_, ?_⟩
  · rw [← isImage]
    exact holds.room
  · rw [sees]
    exact owned_withEntry_fresh holds.owned bare free
  · rw [← isImage]
    rfl
  · intro other positive below
    by_cases same : other = count + 1
    · rw [same, newEntry, type]
    · rw [apart.entry other same]
      exact holds.live other positive (old other below same)
  · intro other above inside
    have different : other ≠ count + 1 := Nat.ne_of_gt above
    rw [apart.entry other different]
    exact holds.dead other (Nat.lt_of_succ_lt above) inside
  · intro other positive below
    by_cases same : other = count + 1
    · rw [same, empty, ← List.length_eq_zero_iff, length_contents]
      unfold fileSize
      rw [newEntry, ← isEntry]
      rfl
    · rw [apart.contents_eq same
        (holds.allocated positive (old other below same))]
      exact holds.contents other positive (old other below same)
  · intro other positive below
    by_cases same : other = count + 1
    · rw [same, empty]
      refine ⟨?_, ?_⟩
      · intro index _
        constructor
        · rintro ⟨slot, _, present⟩
          rw [sees] at present
          exact absurd (stored_withEntry_bare bare slot) present
        · intro impossible
          exact absurd impossible (Nat.not_lt_zero index)
      · rw [newEntry, bare.indirect]
        exact ⟨fun present => absurd rfl present,
          fun impossible => absurd impossible (by decide)⟩
    · exact FilledTo.of_apart apart same
        (holds.allocated positive (old other below same))
        (holds.filled other positive (old other below same))
  · intro other positive below
    by_cases same : other = count + 1
    · rw [same, empty]
      exact Nat.zero_le _
    · exact holds.short other positive (old other below same)
  · have freeblock :
        (putEntry counted (count + 1) entry).freeblock =
          image.freeblock := by
      rw [← isImage]
      rfl
    rw [freeblock, holds.used, cost_succ, empty]
    rfl
  · intro blockNo before
    refine low_putEntry ?_ few entry before
    intro blockNo before
    rw [← isImage]
    exact holds.low blockNo before

end Inodes

/-! ## The input files -/

/-- The entry of the root directory for an input file. -/
def fileEntry (file : InputFile) (inodeNo : Nat) : List UInt8 :=
  dirent inodeNo (strncpy (entryName file.path) fileNameMaxLength)

/-- The bytes of the root directory. -/
def rootBytes (files : List InputFile) : List UInt8 :=
  dirent rootInodeNo (strncpy [dot] fileNameMaxLength) ++
    dirent rootInodeNo (strncpy [dot, dot] fileNameMaxLength) ++
    (files.zipIdx 2).flatMap fun file => fileEntry file.1 file.2

/-- The bytes of the inodes when the files have been added. -/
def bytesOf (files : List InputFile) : Nat → List UInt8
  | 0 => []
  | 1 => rootBytes files
  | index + 2 => (files[index]?.map InputFile.data).getD []

/-- The files fit in the inodes and in the image. -/
structure Accepted (files : List InputFile) : Prop where
  few : files.length + 1 < inodeLimit
  short :
    ∀ inodeNo, 0 < inodeNo → inodeNo ≤ files.length + 1 →
      (bytesOf files inodeNo).length ≤ inodeMaxBytes
  fits : cost (files.length + 1) (bytesOf files) ≤ fsSize

section Files

variable
    {accepts : Exit → Prop}
    {image : Image}
    {files : List InputFile}
    {file : InputFile}

theorem length_dirent
    (inodeNo : Nat)
    (name : List UInt8) :
    (dirent inodeNo (strncpy name fileNameMaxLength)).length =
      direntSize := by
  have bound :
      ((name.takeWhile (· != 0)).take fileNameMaxLength).length ≤
        fileNameMaxLength :=
    List.length_take_le _ _
  unfold dirent strncpy
  simp only [List.length_cons, List.length_append, List.length_replicate]
  simp only [direntSize]
  omega

theorem rootBytes_append
    (files : List InputFile)
    (file : InputFile) :
    rootBytes (files ++ [file]) =
      rootBytes files ++ fileEntry file (files.length + 2) := by
  unfold rootBytes
  rw [List.zipIdx_append, List.flatMap_append]
  simp [Nat.add_comm]

theorem length_rootBytes (files : List InputFile) :
    (rootBytes files).length = direntSize * (files.length + 2) := by
  induction files using List.reverseRecOn with
  | nil => rfl
  | append_singleton files file ih =>
      rw [rootBytes_append, List.length_append, ih, fileEntry,
        length_dirent, List.length_append]
      simp only [List.length_singleton]
      ring

/-- What the two calls for a file leave in the inodes. -/
theorem bytesOf_append
    (files : List InputFile)
    (file : InputFile) :
    bytesOf (files ++ [file]) =
      Function.update
        (Function.update (bytesOf files) 1
          (bytesOf files 1 ++ fileEntry file (files.length + 2)))
        (files.length + 2) file.data := by
  funext inodeNo
  match inodeNo with
  | 0 =>
      rw [Function.update_of_ne (by omega), Function.update_of_ne (by decide)]
      rfl
  | 1 =>
      rw [Function.update_of_ne (by omega), Function.update_self]
      exact rootBytes_append files file
  | index + 2 =>
      by_cases last : index = files.length
      · rw [last, Function.update_self]
        simp [bytesOf]
      · rw [Function.update_of_ne (by omega),
          Function.update_of_ne (by omega)]
        unfold bytesOf
        dsimp only
        rcases Nat.lt_or_ge index files.length with inside | beyond
        · rw [List.getElem?_append_left inside]
        · rw [List.getElem?_eq_none beyond, List.getElem?_eq_none]
          simp only [List.length_append, List.length_singleton]
          omega

theorem bytesOf_beyond (files : List InputFile) :
    bytesOf files (files.length + 2) = [] := by
  simp [bytesOf]

theorem blockCount_mono
    {left right : Nat}
    (le : left ≤ right) :
    blockCount left ≤ blockCount right := by
  unfold blockCount
  simp only [blockSize]
  omega

/-- More bytes in a file take more blocks. -/
theorem cost_update_mono
    {count inum : Nat}
    (bytes : Nat → List UInt8)
    (positive : 0 < inum)
    (below : inum ≤ count)
    {left right : List UInt8}
    (le : left.length ≤ right.length) :
    cost count (Function.update bytes inum left) ≤
      cost count (Function.update bytes inum right) := by
  have first := cost_update bytes positive below left
  have second := cost_update bytes positive below right
  have more := blocksFor_mono (blockCount_mono le)
  omega

/-- A file is appended block by block. -/
theorem ensures_appendFile
    {count inum fuel : Nat}
    {bytes : Nat → List UInt8}
    {data : List UInt8}
    (bounded : data.length ≤ fuel)
    (holds : Holds image count bytes)
    (positive : 0 < inum)
    (below : inum ≤ count)
    (enough :
      (∀ exit, accepts exit) ∨
        (bytes inum).length + data.length ≤ inodeMaxBytes ∧
          cost count (Function.update bytes inum (bytes inum ++ data)) ≤
            fsSize) :
    Ensures accepts (appendFile inum fuel data) image
      fun _ target =>
        Holds target count
          (Function.update bytes inum (bytes inum ++ data)) := by
  have done :
      data.length = 0 →
        Holds image count
          (Function.update bytes inum (bytes inum ++ data)) := by
    intro empty
    rw [List.length_eq_zero_iff] at empty
    rw [empty, List.append_nil, Function.update_eq_self]
    exact holds
  induction fuel generalizing image bytes data with
  | zero =>
      rw [appendFile, ensures_pure]
      exact done (Nat.le_zero.mp bounded)
  | succ fuel ih =>
      unfold appendFile
      refine ensures_ite ?_ ?_
      · intro some
        have chunk : (data.take blockSize).length ≤ data.length :=
          List.length_take_le' _ _
        have whole :
            Function.update
                (Function.update bytes inum
                  (bytes inum ++ data.take blockSize))
                inum
                (bytes inum ++ data.take blockSize ++
                  data.drop blockSize) =
              Function.update bytes inum (bytes inum ++ data) := by
          rw [Function.update_idem, List.append_assoc,
            List.take_append_drop]
        rw [ensures_bind]
        refine (ensures_iappend holds positive below ?_).mono ?_
        · refine enough.imp_right ?_
          rintro ⟨small, capacity⟩
          refine ⟨by omega, ?_⟩
          refine (cost_update_mono bytes positive below ?_).trans capacity
          rw [List.length_append, List.length_append]
          omega
        · intro _ middle holdsMiddle
          refine (ih ?_ holdsMiddle ?_ ?_).mono ?_
          · rw [List.length_drop]
            simp only [blockSize]
            omega
          · refine enough.imp_right ?_
            rintro ⟨small, capacity⟩
            rw [Function.update_self, whole]
            refine ⟨?_, capacity⟩
            rw [List.length_append, List.length_take, List.length_drop]
            omega
          · intro empty
            rw [List.length_eq_zero_iff] at empty
            rw [empty, List.append_nil, Function.update_eq_self]
            exact holdsMiddle
          · intro _ target holdsTarget
            rw [Function.update_self, whole] at holdsTarget
            exact holdsTarget
      · intro empty
        rw [ensures_pure]
        exact done (Nat.eq_zero_of_not_pos empty)

/-- The name behind the last `'/'` has no `'/'`. -/
theorem slash_notMem_baseName (path : List UInt8) :
    slash ∉ baseName path := by
  have suffix :
      ∃ length : Nat,
        path.foldl
            (fun j character =>
              (if character = slash then -1 else j) + 1)
            (0 : Int) =
          length ∧
          length ≤ path.length ∧
          slash ∉ path.drop (path.length - length) := by
    induction path using List.reverseRecOn with
    | nil => exact ⟨0, rfl, Nat.le_refl _, List.not_mem_nil⟩
    | append_singleton path character ih =>
        rcases ih with ⟨length, computed, within, absent⟩
        rw [List.foldl_append, computed]
        simp only [List.foldl_cons, List.foldl_nil]
        by_cases isSlash : character = slash
        · refine ⟨0, ?_, Nat.zero_le _, ?_⟩
          · rw [if_pos isSlash]
            rfl
          · simp
        · refine ⟨length + 1, ?_, ?_, ?_⟩
          · rw [if_neg isSlash]
            rfl
          · rw [List.length_append]
            exact Nat.succ_le_succ within
          · have start :
                (path ++ [character]).length - (length + 1) =
                  path.length - length := by
              rw [List.length_append, List.length_singleton]
              omega
            rw [start, List.drop_append_of_le_length (by omega),
              List.mem_append, List.mem_singleton]
            rintro (member | rfl)
            · exact absent member
            · exact isSlash rfl
  rcases suffix with ⟨length, computed, _, absent⟩
  unfold baseName
  rw [computed]
  exact absent

theorem inodeType_file (index : Nat) :
    inodeType (index + 2) = inodeRegular := by
  apply if_neg
  simp only [rootInodeNo]
  omega

/-- A file is added behind the others. -/
theorem ensures_addFile
    (holds : Holds image (files.length + 1) (bytesOf files))
    (few : files.length + 2 < inodeLimit)
    (enough : (∀ exit, accepts exit) ∨ Accepted (files ++ [file])) :
    Ensures accepts (addFile file) image
      fun _ target =>
        Holds target (files.length + 2) (bytesOf (files ++ [file])) := by
  have known : (!(baseName file.path).contains slash) = true := by
    rw [Bool.not_eq_true', List.contains_eq_mem, decide_eq_false_iff_not]
    exact slash_notMem_baseName file.path
  generalize isRoot :
    Function.update (bytesOf files) 1
      (bytesOf files 1 ++ fileEntry file (files.length + 2)) = withRoot
  have empty : withRoot (files.length + 2) = [] := by
    rw [← isRoot, Function.update_of_ne (by omega)]
    exact bytesOf_beyond files
  have whole :
      bytesOf (files ++ [file]) =
        Function.update withRoot (files.length + 2)
          (withRoot (files.length + 2) ++ file.data) := by
    rw [empty, ← isRoot, List.nil_append]
    exact bytesOf_append files file
  unfold addFile
  rw [ensures_bind]
  refine ensures_assert (Or.inr known) ?_
  intro _
  rw [ensures_bind, ← inodeType_file files.length]
  refine (ensures_ialloc holds few (bytesOf_beyond files)).mono ?_
  rintro _ made ⟨rfl, holdsMade⟩
  rw [ensures_bind]
  refine (ensures_iappend holdsMade Nat.one_pos
    (Nat.le_add_left 1 (files.length + 1)) ?_).mono ?_
  · refine enough.imp_right ?_
    intro accepted
    have length : (files ++ [file]).length + 1 = files.length + 2 := by
      rw [List.length_append]
      rfl
    constructor
    · have short := accepted.short 1 Nat.one_pos (Nat.le_add_left 1 _)
      rw [bytesOf_append, Function.update_of_ne (by omega),
        Function.update_self, List.length_append] at short
      exact short
    · have fits := accepted.fits
      rw [length, whole, empty] at fits
      change cost (files.length + 2)
        (Function.update (bytesOf files) 1
          (bytesOf files 1 ++ fileEntry file (files.length + 2))) ≤ fsSize
      rw [isRoot]
      refine le_trans ?_ fits
      have same :
          Function.update withRoot (files.length + 2) [] = withRoot := by
        rw [← empty, Function.update_eq_self]
      nth_rewrite 1 [← same]
      exact cost_update_mono withRoot (Nat.succ_pos _) (Nat.le_refl _)
        (Nat.zero_le _)
  · intro _ middle holdsMiddle
    change Holds middle (files.length + 2)
      (Function.update (bytesOf files) 1
        (bytesOf files 1 ++ fileEntry file (files.length + 2)))
      at holdsMiddle
    rw [isRoot] at holdsMiddle
    refine (ensures_appendFile (Nat.le_refl _) holdsMiddle
      (Nat.succ_pos _) (Nat.le_refl _) ?_).mono ?_
    · refine enough.imp_right ?_
      intro accepted
      have length : (files ++ [file]).length + 1 = files.length + 2 := by
        rw [List.length_append]
        rfl
      constructor
      · have short :=
          accepted.short (files.length + 2) (Nat.succ_pos _)
            (Nat.le_of_eq length.symm)
        rw [whole, Function.update_self, List.length_append] at short
        exact short
      · have fits := accepted.fits
        rw [length, whole] at fits
        exact fits
    · intro _ target holdsTarget
      rw [whole]
      exact holdsTarget

/-- Fewer files have fewer bytes in each inode. -/
theorem length_bytesOf_append
    (files rest : List InputFile)
    (inodeNo : Nat) :
    (bytesOf files inodeNo).length ≤
      (bytesOf (files ++ rest) inodeNo).length := by
  match inodeNo with
  | 0 => exact Nat.le_refl _
  | 1 =>
      change (rootBytes files).length ≤ (rootBytes (files ++ rest)).length
      rw [length_rootBytes, length_rootBytes, List.length_append]
      apply Nat.mul_le_mul_left
      omega
  | index + 2 =>
      unfold bytesOf
      dsimp only
      rcases Nat.lt_or_ge index files.length with inside | beyond
      · rw [List.getElem?_append_left inside]
      · rw [List.getElem?_eq_none beyond]
        exact Nat.zero_le _

theorem Accepted.of_append
    {rest : List InputFile}
    (accepted : Accepted (files ++ rest)) :
    Accepted files := by
  have length : (files ++ rest).length = files.length + rest.length :=
    List.length_append
  refine ⟨?_, ?_, ?_⟩
  · have few := accepted.few
    omega
  · intro inodeNo positive below
    refine (length_bytesOf_append files rest inodeNo).trans ?_
    apply accepted.short inodeNo positive
    omega
  · refine le_trans ?_ accepted.fits
    unfold cost
    apply Nat.add_le_add_left
    refine (Finset.sum_le_sum ?_).trans
      (Finset.sum_le_sum_of_subset ?_)
    · intro inodeNo _
      exact blocksFor_mono
        (blockCount_mono (length_bytesOf_append files rest inodeNo))
    · apply Finset.Icc_subset_Icc_right
      omega

/-- All files are added, one after the other. -/
theorem ensures_addFiles
    (holds : Holds image 1 (bytesOf []))
    (few : files.length + 1 < inodeLimit)
    (enough : (∀ exit, accepts exit) ∨ Accepted files) :
    Ensures accepts (files.foldlM (fun _ file => addFile file) ()) image
      fun _ target =>
        Holds target (files.length + 1) (bytesOf files) := by
  refine
    (ensures_foldlM
      (fun rest (_ : Unit) state =>
        ∃ done,
          done ++ rest = files ∧
            Holds state (done.length + 1) (bytesOf done))
      ?_ ⟨[], rfl, holds⟩).mono ?_
  · rintro file rest _ state ⟨done, isDone, holdsState⟩
    have split : done ++ [file] ++ rest = files := by
      rw [← isDone, List.append_assoc]
      rfl
    refine (ensures_addFile holdsState ?_ ?_).mono ?_
    · rw [← isDone, List.length_append, List.length_cons] at few
      omega
    · refine enough.imp_right ?_
      intro accepted
      rw [← split] at accepted
      exact accepted.of_append
    · intro _ target holdsTarget
      refine ⟨done ++ [file], split, ?_⟩
      rw [List.length_append]
      exact holdsTarget
  · rintro _ target ⟨done, isDone, holdsTarget⟩
    rw [List.append_nil] at isDone
    rw [← isDone]
    exact holdsTarget

/-! ## The root directory -/

/-- An image of zeros holds no files. -/
theorem holds_nothing
    (blocks : image.blocks = Function.update (fun _ _ => 0) 1 (lowBlock 1))
    (size : image.size = fsSize)
    (freeinode : image.freeinode = 1)
    (freeblock : image.freeblock = nMeta) :
    Holds image 0 (fun _ => []) := by
  have zero :
      ∀ blockNo, blockNo ≠ 1 → image.blocks blockNo = fun _ => 0 := by
    intro blockNo different
    rw [blocks, Function.update_of_ne different]
  have invalid :
      ∀ inodeNo < inodeLimit,
        ((imageView image).entry inodeNo).type = inodeInvalid := by
    intro inodeNo fits
    have start := (toBlockNo_wide fits).1
    have different : toBlockNo wide inodeNo ≠ 1 := by
      have low : 1 < sb.inodeStart.toNat := by
        decide
      omega
    rw [← entry_view image fits, zero _ different]
    apply InodeEntry.field16_of_bytes
    intro index _
    have byte :
        ∀ position, byteAt (fun _ => 0) position = 0 := by
      intro position
      unfold byteAt
      split_ifs <;> rfl
    rw [byte]
    simp [LittleEndian.byte]
  have none : ∀ inodeNo, ¬ Allocated wide (imageView image) inodeNo :=
    fun inodeNo allocated =>
      allocated.2.2 (invalid inodeNo allocated.2.1)
  refine ⟨⟨size, ?_, ?_⟩, ?_, ⟨⟨by decide, ?_, ?_, ?_⟩, ?_⟩, freeinode,
    by decide, ?_, ?_, ?_, ?_, ?_, ?_, ?_⟩
  · rw [freeblock]
  · intro blockNo above _
    apply zero
    rintro rfl
    rw [freeblock] at above
    exact absurd above (by decide)
  · rw [freeblock]
    decide
  · intro left _ live
    exact absurd live (none left.1)
  · intro key live
    exact absurd live (none key.1)
  · intro blockNo isData
    constructor
    · intro marked
      have below : blockNo < image.freeblock := of_decide_eq_true marked
      rw [freeblock] at below
      exact absurd below (Nat.not_lt.mpr isData.1)
    · rintro ⟨key, live, _⟩
      exact absurd live (none key.1)
  · intro blockNo before
    apply decide_eq_true
    rw [freeblock]
    exact before
  · intro inodeNo positive below
    omega
  · intro inodeNo _ fits
    exact invalid inodeNo fits
  · intro inodeNo positive below
    omega
  · intro inodeNo positive below
    omega
  · intro inodeNo positive below
    omega
  · rw [freeblock]
    rfl
  · intro blockNo _
    by_cases same : blockNo = 1
    · rw [same, blocks, Function.update_self]
    · rw [zero blockNo same]
      exact (if_neg same).symm

/-- The loop which fills the image with zeros -/
theorem ensures_zeros
    {number : Nat}
    (small : number < 2 ^ 23) :
    Ensures accepts
      ((List.range number).foldlM (fun _ i => wsect i fun _ => 0) () :
        Program Image Exit Unit)
      start
      fun _ target =>
        target =
          { blocks := fun _ _ => 0
            size := number
            freeinode := 1
            freeblock := nMeta } := by
  refine
    (ensures_foldlM
      (fun rest (_ : Unit) state =>
        rest = List.range' state.size (number - state.size) ∧
          state.size ≤ number ∧
          state =
            { blocks := fun _ _ => 0
              size := state.size
              freeinode := 1
              freeblock := nMeta })
      ?_ ⟨?_, ?_, ?_⟩).mono ?_
  · rintro item rest _ state ⟨isRest, bounded, isState⟩
    have more : state.size < number := by
      by_contra full
      rw [Nat.sub_eq_zero_of_le (Nat.le_of_not_lt full)] at isRest
      exact absurd isRest (List.cons_ne_nil item rest)
    have count : number - state.size = number - (state.size + 1) + 1 := by
      omega
    rw [count, List.range'_succ, List.cons.injEq] at isRest
    rcases isRest with ⟨rfl, isRest⟩
    have same : sector state.size = state.size :=
      sector_of_lt (more.trans small)
    have grown : max state.size (state.size + 1) = state.size + 1 :=
      Nat.max_eq_right (Nat.le_succ _)
    unfold wsect
    rw [ensures_modify, same, grown]
    refine ⟨isRest, more, ?_⟩
    rw [isState]
    simp only [Function.update_eq_self]
  · have empty : start.size = 0 := rfl
    rw [List.range_eq_range', empty, Nat.sub_zero]
  · exact Nat.zero_le _
  · rfl
  · rintro _ target ⟨isRest, bounded, isTarget⟩
    have full : number - target.size = 0 := by
      by_contra more
      rcases Nat.exists_eq_succ_of_ne_zero more with ⟨count, isCount⟩
      rw [isCount, List.range'_succ] at isRest
      exact absurd isRest.symm (List.cons_ne_nil _ _)
    have size : target.size = number := by
      omega
    rw [isTarget, size]

theorem ensures_wipe :
    Ensures accepts wipe start
      fun _ target =>
        target =
          { blocks := fun _ _ => 0
            size := fsSize
            freeinode := 1
            freeblock := nMeta } := by
  -- The number of blocks is hidden, or Lean would run the whole loop.
  rcases (⟨fsSize, rfl⟩ : ∃ number, number = fsSize) with
    ⟨number, isNumber⟩
  have small : number < 2 ^ 23 := by
    rw [isNumber]
    decide
  unfold wipe
  rw [← isNumber]
  exact ensures_zeros small

/-- The image has the root directory with its first two entries. -/
theorem ensures_makeRoot :
    Ensures accepts makeRoot start
      fun _ target => Holds target 1 (bytesOf []) := by
  unfold makeRoot
  rw [ensures_bind]
  refine ensures_wipe.mono ?_
  intro _ zeros isZeros
  have size : zeros.size = fsSize := by
    rw [isZeros]
  rw [ensures_bind]
  refine ensures_wsect size (by decide) ?_
  rw [ensures_bind]
  have nothing :
      Holds
        { zeros with
          blocks :=
            Function.update zeros.blocks 1
              (patch (fun _ => 0) 0 28 sbBytes) }
        0 (fun _ => []) := by
    refine holds_nothing ?_ size ?_ ?_
    · rw [isZeros]
      rfl
    · rw [isZeros]
    · rw [isZeros]
  have isDirectory : inodeType (0 + 1) = inodeDirectory := if_pos rfl
  rw [← isDirectory]
  refine (ensures_ialloc nothing (by decide) rfl).mono ?_
  rintro _ made ⟨rfl, holdsMade⟩
  rw [ensures_bind]
  refine ensures_assert (Or.inr rfl) ?_
  intro _
  rw [ensures_bind]
  refine (ensures_iappend holdsMade Nat.one_pos (Nat.le_refl 1) ?_).mono ?_
  · refine Or.inr ⟨by decide, ?_⟩
    rw [cost_one, Function.update_self]
    decide
  · intro _ middle holdsMiddle
    refine (ensures_iappend holdsMiddle Nat.one_pos (Nat.le_refl 1)
      ?_).mono ?_
    · rw [Function.update_idem]
      refine Or.inr ⟨?_, ?_⟩
      · rw [Function.update_self]
        decide
      · rw [cost_one, Function.update_self, Function.update_self]
        decide
    · intro _ target holdsTarget
      have same :
          Function.update
              (Function.update (fun _ => []) (0 + 1)
                ([] ++
                  dirent (0 + 1) (strncpy [dot] fileNameMaxLength)))
              (0 + 1)
              (Function.update (fun _ => []) (0 + 1)
                  ([] ++
                    dirent (0 + 1) (strncpy [dot] fileNameMaxLength))
                  (0 + 1) ++
                dirent (0 + 1) (strncpy [dot, dot] fileNameMaxLength)) =
            bytesOf [] := by
        rw [Function.update_idem, Function.update_self]
        funext inodeNo
        match inodeNo with
        | 0 => rfl
        | 1 =>
            rw [Function.update_self]
            rfl
        | index + 2 =>
            rw [Function.update_of_ne (by omega)]
            rfl
      rw [← same]
      exact holdsTarget

end Files

end FudanOS.User.MkfsImage
