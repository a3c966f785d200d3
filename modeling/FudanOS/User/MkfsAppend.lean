import FudanOS.User.Mkfs

/-!
# What `iappend` does to the image

While `iappend` runs, the inode is in `din` and not yet on the disk, and the
bitmap is written at the end of the program only.  So the image is seen as the
inode layer of the kernel would see it with `din` in the place of the inode,
and with the blocks below `freeblock` as the used ones.  Then `iappend`
attaches blocks and rewrites bytes just as `inode_write` does.

The table of inodes is seen with all the inodes which fit in the inode blocks,
more than `sb.num_inodes`.
-/

namespace FudanOS.User.MkfsAppend

open FudanOS.Library
open FudanOS.Library.Programs
open FudanOS.Fs.Defines
open FudanOS.Fs.BlockBitmap
open FudanOS.Fs.InodeLayout
open FudanOS.Fs.BlockOwnership
open FudanOS.Fs.FileContents
open FudanOS.Fs.FileSpecs
open FudanOS.Fs.Directory
open FudanOS.User.Mkfs

/-- The superblock with all inodes which fit in the inode blocks. -/
def wide : SuperBlock :=
  { sb with numInodes := UInt32.ofNat (nInodeBlocks * inodePerBlock) }

theorem geometry_wide : Geometry wide := by
  refine ⟨by decide, by decide, ?_, by decide, ?_⟩
  · intro inodeNo below
    have bound : inodeNo < 208 := below
    change 65 + inodeNo / 8 < 91
    omega
  · intro blockNo below
    have bound : blockNo < 1000 := below
    change 91 + blockNo / 4096 < 92
    omega

theorem isData_iff (blockNo : Nat) :
    IsData wide blockNo ↔ nMeta ≤ blockNo ∧ blockNo < fsSize :=
  Iff.rfl

/-- The image with an inode which is in memory. -/
def seen (image : Image) (inum : Nat) (din : InodeEntry) : View where
  used := fun blockNo => decide (blockNo < image.freeblock)
  entry := Function.update (view wide image.blocks).entry inum din
  data := (view wide image.blocks).data

/-- The image as the kernel will see it. -/
def imageView (image : Image) : View :=
  { view wide image.blocks with
    used := fun blockNo => decide (blockNo < image.freeblock) }

theorem seen_entry (image : Image) (inum : Nat) :
    seen image inum ((imageView image).entry inum) = imageView image := by
  unfold seen imageView
  rw [Function.update_eq_self]

theorem withEntry_seen
    (image : Image)
    (inum : Nat)
    (din entry : InodeEntry) :
    withEntry (seen image inum din) inum entry = seen image inum entry := by
  unfold seen withEntry
  rw [Function.update_idem]

/-- The part of the image behind the used blocks. -/
structure Prepared (image : Image) : Prop where
  size : image.size = fsSize
  data : nMeta ≤ image.freeblock
  blank :
    ∀ blockNo, image.freeblock ≤ blockNo → blockNo < fsSize →
      image.blocks blockNo = fun _ => 0

/-- The first blocks of an inode are there, and no others. -/
structure FilledTo (view : View) (inum count : Nat) : Prop where
  blocks :
    ∀ index < inodeMaxBlocks, HasBlock view inum index ↔ index < count
  indirect :
    (view.entry inum).indirect ≠ 0 ↔ inodeNumDirect < count

/-- The blocks which a file with so many blocks of data takes. -/
def blocksFor (count : Nat) : Nat :=
  count + if inodeNumDirect < count then 1 else 0

/-- The indirect blocks which an inode has. -/
def tables (din : InodeEntry) : Nat :=
  if din.indirect = 0 then 0 else 1

section Sectors

variable
    {accepts : Exit → Prop}
    {image : Image}

theorem sector_of_lt
    {sec : Nat}
    (small : sec < 2 ^ 23) :
    sector sec = sec := by
  unfold sector blockSize
  omega

theorem ensures_rsect
    {sec : Nat}
    {post : BlockData → Image → Prop}
    (size : image.size = fsSize)
    (inside : sec < fsSize)
    (continues : post (image.blocks sec) image) :
    Ensures accepts (rsect sec) image post := by
  have small : sec < 2 ^ 23 := inside.trans (by decide)
  unfold rsect
  simp only [ensures_bind, ensures_get, sector_of_lt small, size,
    if_pos inside]
  exact continues

/-- A sector behind the end of the image cannot be read. -/
theorem ensures_rsect_end
    {post : BlockData → Image → Prop}
    (size : image.size = fsSize)
    (accepted : accepts .io) :
    Ensures accepts (rsect fsSize) image post := by
  have same : sector fsSize = fsSize := by
    decide
  unfold rsect
  simp only [ensures_bind, ensures_get, same, size, if_neg (Nat.lt_irrefl _)]
  exact accepted

theorem ensures_wsect
    {sec : Nat}
    {buf : BlockData}
    {post : Unit → Image → Prop}
    (size : image.size = fsSize)
    (inside : sec < fsSize)
    (continues :
      post ()
        { image with
          blocks := Function.update image.blocks sec buf }) :
    Ensures accepts (wsect sec buf) image post := by
  have small : sec < 2 ^ 23 := inside.trans (by decide)
  have same : max fsSize (sec + 1) = fsSize := Nat.max_eq_left inside
  unfold wsect
  rw [ensures_modify]
  simp only [sector_of_lt small, size, same]
  rw [← size]
  exact continues

@[simp]
theorem ensures_nextBlock
    {post : Nat → Image → Prop} :
    Ensures accepts nextBlock image post ↔
      post image.freeblock
        { image with freeblock := image.freeblock + 1 } := by
  rfl

end Sectors

/-! ## A new block -/

section Attach

variable
    {image : Image}
    {inum : Nat}
    {din : InodeEntry}

theorem used_succ (freeblock : Nat) :
    Function.update (fun blockNo => decide (blockNo < freeblock)) freeblock
        true =
      fun blockNo => decide (blockNo < freeblock + 1) := by
  funext blockNo
  by_cases same : blockNo = freeblock
  · rw [same, Function.update_self]
    exact (decide_eq_true (Nat.lt_succ_self freeblock)).symm
  · rw [Function.update_of_ne same]
    apply decide_eq_decide.mpr
    omega

theorem Prepared.freeblock_ne_zero
    (prepared : Prepared image) :
    image.freeblock ≠ 0 := by
  have positive : 0 < nMeta := by
    decide
  exact Nat.ne_of_gt (positive.trans_le prepared.data)

theorem Prepared.isData
    (prepared : Prepared image)
    (below : image.freeblock < fsSize) :
    IsData wide image.freeblock :=
  (isData_iff _).mpr ⟨prepared.data, below⟩

/-- The next block has no bytes yet. -/
theorem Prepared.data_blank
    (prepared : Prepared image)
    (below : image.freeblock < fsSize) :
    Function.update (view wide image.blocks).data image.freeblock
        (fun _ => 0) =
      (view wide image.blocks).data := by
  rw [Function.update_eq_self_iff]
  unfold view
  dsimp only
  rw [if_pos (prepared.isData below)]
  exact (prepared.blank _ (Nat.le_refl _) below).symm

theorem attach_direct
    (prepared : Prepared image)
    (below : image.freeblock < fsSize)
    (inum : Nat)
    (din : InodeEntry)
    (index : Fin inodeNumDirect) :
    attach (seen image inum din) inum (.direct index) image.freeblock =
      seen { image with freeblock := image.freeblock + 1 } inum
        { din with
          addrs :=
            Function.update din.addrs index
              (UInt32.ofNat image.freeblock) } := by
  unfold attach seen
  dsimp only
  rw [used_succ, prepared.data_blank below, Function.update_idem,
    Function.update_self]

theorem attach_indirect
    (prepared : Prepared image)
    (below : image.freeblock < fsSize)
    (inum : Nat)
    (din : InodeEntry) :
    attach (seen image inum din) inum .indirect image.freeblock =
      seen { image with freeblock := image.freeblock + 1 } inum
        { din with indirect := UInt32.ofNat image.freeblock } := by
  unfold attach seen
  dsimp only
  rw [used_succ, prepared.data_blank below, Function.update_idem,
    Function.update_self]

theorem attach_second
    (prepared : Prepared image)
    (below : image.freeblock < fsSize)
    (inum : Nat)
    (table : IsData wide din.indirect.toNat)
    (index : Fin inodeNumIndirect) :
    attach (seen image inum din) inum (.second index) image.freeblock =
      seen
        { image with
          blocks :=
            Function.update image.blocks din.indirect.toNat
              (setAddr (image.blocks din.indirect.toNat) index
                (UInt32.ofNat image.freeblock))
          freeblock := image.freeblock + 1 }
        inum din := by
  have here :
      (view wide image.blocks).data din.indirect.toNat =
        image.blocks din.indirect.toNat := by
    unfold view
    dsimp only
    rw [if_pos table]
  unfold attach seen
  dsimp only
  rw [used_succ, prepared.data_blank below, Function.update_self,
    view_setData geometry_wide _ table, here]

/-- The next block is in no slot. -/
theorem unused_freeblock :
    (seen image inum din).used image.freeblock = false :=
  decide_eq_false (Nat.lt_irrefl _)

theorem prepared_next
    (prepared : Prepared image) :
    Prepared { image with freeblock := image.freeblock + 1 } := by
  refine ⟨prepared.size, ?_, ?_⟩
  · exact Nat.le_succ_of_le prepared.data
  · intro blockNo above inside
    exact prepared.blank blockNo (Nat.le_of_succ_le above) inside

/-- A block in use is written. -/
theorem prepared_write
    (prepared : Prepared image)
    {blockNo : Nat}
    (below : blockNo < image.freeblock)
    (data : BlockData) :
    Prepared
      { image with blocks := Function.update image.blocks blockNo data } := by
  refine ⟨prepared.size, prepared.data, ?_⟩
  intro other above inside
  dsimp only at above ⊢
  rw [Function.update_of_ne]
  · exact prepared.blank other above inside
  · rintro rfl
    exact absurd below (Nat.not_lt.mpr above)

end Attach

/-! ## Which blocks an inode has -/

section Blocks

variable
    {start : View}
    {inum fresh : Nat}
    (owned : Owned wide start)
    (allocated : Allocated wide start inum)
    (isData : IsData wide fresh)
    (free : start.used fresh = false)

include owned allocated isData free

theorem hasBlock_attach
    {slot : Slot}
    {fbn : Nat}
    (ready : Ready start inum slot)
    (empty : stored start inum slot = 0)
    (isSlot : slotOf fbn = some slot)
    (index : Nat) :
    HasBlock (attach start inum slot fresh) inum index ↔
      index = fbn ∨ HasBlock start inum index := by
  have stores :=
    stored_attach owned allocated isData free ready empty allocated
  have positive : fresh ≠ 0 := by
    rintro rfl
    exact absurd isData.1 (by decide)
  constructor
  · rintro ⟨place, isPlace, present⟩
    rw [stores] at present
    by_cases same : place = slot
    · subst same
      exact Or.inl (slotOf_inj isPlace isSlot)
    · rw [if_neg fun both => same both.2] at present
      exact Or.inr ⟨place, isPlace, present⟩
  · rintro (rfl | ⟨place, isPlace, present⟩)
    · refine ⟨slot, isSlot, ?_⟩
      rw [stores, if_pos ⟨rfl, rfl⟩]
      exact positive
    · refine ⟨place, isPlace, ?_⟩
      rw [stores]
      split_ifs
      · exact positive
      · exact present

theorem hasBlock_attach_indirect
    (empty : stored start inum .indirect = 0)
    (index : Nat) :
    HasBlock (attach start inum .indirect fresh) inum index ↔
      HasBlock start inum index := by
  have ready : Ready start inum .indirect := trivial
  have stores :=
    stored_attach owned allocated isData free ready empty allocated
  constructor
  · rintro ⟨place, isPlace, present⟩
    have different : place ≠ .indirect := by
      rintro rfl
      exact slotOf_ne_indirect isPlace
    rw [stores, if_neg fun both => different both.2] at present
    exact ⟨place, isPlace, present⟩
  · rintro ⟨place, isPlace, present⟩
    have different : place ≠ .indirect := by
      rintro rfl
      exact slotOf_ne_indirect isPlace
    refine ⟨place, isPlace, ?_⟩
    rw [stores, if_neg fun both => different both.2]
    exact present

end Blocks

/-! ## Finding a block -/

/-- What `iappend` has when it has found or made the block of a slot. -/
structure Found
    (image : Image)
    (inum : Nat)
    (din : InodeEntry)
    (fbn count : Nat)
    (target : Image)
    (found : InodeEntry × Nat) : Prop where
  prepared : Prepared target
  room : target.freeblock ≤ fsSize
  inodes : target.freeinode = image.freeinode
  kept : ∀ blockNo < nMeta, target.blocks blockNo = image.blocks blockNo
  extended :
    Extends wide inum (seen image inum din) (seen target inum found.1)
  block :
    ∃ slot,
      slotOf fbn = some slot ∧
        found.2 = stored (seen target inum found.1) inum slot
  present : found.2 ≠ 0
  filled : FilledTo (seen target inum found.1) inum (fbn + 1)
  cost :
    target.freeblock + (count + tables din) =
      image.freeblock + blocksFor (fbn + 1)

/-- There was no block left, and the next `rsect` is going to fail. -/
structure Overrun
    (accepts : Exit → Prop)
    (target : Image)
    (blockNo : Nat) : Prop where
  accepted : accepts .io
  size : target.size = fsSize
  block : blockNo = fsSize

/-- An inode in memory, before `iappend` looks for one of its next blocks. -/
structure Appending
    (accepts : Exit → Prop)
    (image : Image)
    (inum : Nat)
    (din : InodeEntry)
    (fbn count : Nat) : Prop where
  prepared : Prepared image
  room : image.freeblock ≤ fsSize
  owned : Owned wide (seen image inum din)
  allocated : Allocated wide (seen image inum din) inum
  blocks :
    ∀ index < inodeMaxBlocks,
      HasBlock (seen image inum din) inum index ↔ index < count
  inside : fbn < inodeMaxBlocks
  near : fbn = count ∨ fbn + 1 = count
  enough :
    accepts .io ∨
      image.freeblock + blocksFor (fbn + 1) ≤
        fsSize + (count + tables din)

section Find

variable
    {accepts : Exit → Prop}
    {image : Image}
    {inum fbn count : Nat}
    {din : InodeEntry}

theorem seen_self (image : Image) (inum : Nat) (din : InodeEntry) :
    (seen image inum din).entry inum = din :=
  Function.update_self _ _ _

theorem toNat_freeblock
    (room : image.freeblock ≤ fsSize) :
    (UInt32.ofNat image.freeblock).toNat = image.freeblock := by
  apply UInt32.toNat_ofNat_of_lt
  exact Nat.lt_of_le_of_lt room (by decide)

theorem blocksFor_of_indirect
    {number : Nat}
    (indirect : din.indirect ≠ 0 ↔ inodeNumDirect < number) :
    blocksFor number = number + tables din := by
  unfold blocksFor tables
  by_cases zero : din.indirect = 0
  · rw [if_pos zero, if_neg fun many => indirect.mpr many zero]
  · rw [if_neg zero, if_pos (indirect.mp zero)]

/-- The block is already there. -/
theorem Appending.found
    (appending : Appending accepts image inum din fbn count)
    {slot : Slot}
    (isSlot : slotOf fbn = some slot)
    (present : stored (seen image inum din) inum slot ≠ 0)
    (indirect : din.indirect ≠ 0 ↔ inodeNumDirect < fbn + 1) :
    Found image inum din fbn count image
      (din, stored (seen image inum din) inum slot) := by
  have below : fbn < count :=
    (appending.blocks fbn appending.inside).mp
      ⟨slot, isSlot, present⟩
  have same : fbn + 1 = count :=
    appending.near.resolve_left (Nat.ne_of_lt below)
  refine ⟨appending.prepared, appending.room, rfl, fun _ _ => rfl,
    Extends.refl, ⟨slot, isSlot, rfl⟩, present, ⟨?_, ?_⟩, ?_⟩
  · rw [same]
    exact appending.blocks
  · rw [seen_self]
    exact indirect
  · rw [blocksFor_of_indirect indirect, same]

/-- The block is not there yet. -/
theorem Appending.next
    (appending : Appending accepts image inum din fbn count)
    {slot : Slot}
    (isSlot : slotOf fbn = some slot)
    (empty : stored (seen image inum din) inum slot = 0) :
    fbn = count := by
  have absent : ¬ fbn < count := by
    intro below
    rcases (appending.blocks fbn appending.inside).mpr below with
      ⟨place, isPlace, present⟩
    rw [isSlot] at isPlace
    cases isPlace
    exact present empty
  have near := appending.near
  omega

theorem ensures_directBlock
    (appending : Appending accepts image inum din fbn count)
    (direct : fbn < inodeNumDirect)
    (none : din.indirect = 0) :
    Ensures accepts (directBlock din ⟨fbn, direct⟩) image
      fun found target =>
        Overrun accepts target found.2 ∨
          Found image inum din fbn count target found := by
  have isSlot : slotOf fbn = some (.direct ⟨fbn, direct⟩) := dif_pos direct
  have indirect : din.indirect ≠ 0 ↔ inodeNumDirect < fbn + 1 :=
    ⟨fun present => absurd none present,
      fun many => absurd direct (Nat.not_lt.mpr (Nat.le_of_lt_succ many))⟩
  have cost := blocksFor_of_indirect indirect
  have stores :
      stored (seen image inum din) inum (.direct ⟨fbn, direct⟩) =
        (din.addrs ⟨fbn, direct⟩).toNat := by
    unfold stored
    rw [seen_self]
  unfold directBlock
  refine ensures_ite ?_ ?_
  · intro zero
    have empty :
        stored (seen image inum din) inum (.direct ⟨fbn, direct⟩) = 0 := by
      rw [stores, zero]
      rfl
    have isNext := appending.next isSlot empty
    have number := toNat_freeblock appending.room
    rw [ensures_bind, ensures_nextBlock, ensures_pure]
    dsimp only
    rw [Function.update_self, number]
    rcases Nat.lt_or_ge image.freeblock fsSize with below | full
    · have isData := appending.prepared.isData below
      have attached :=
        attach_direct appending.prepared below inum din ⟨fbn, direct⟩
      have ready :
          Ready (seen image inum din) inum (.direct ⟨fbn, direct⟩) :=
        trivial
      have has :=
        hasBlock_attach appending.owned appending.allocated isData
          unused_freeblock ready empty isSlot
      have stored_ :=
        stored_attach appending.owned appending.allocated isData
          unused_freeblock ready empty appending.allocated
          (.direct ⟨fbn, direct⟩)
      rw [if_pos ⟨rfl, rfl⟩, attached] at stored_
      rw [attached] at has
      refine Or.inr ⟨prepared_next appending.prepared, below, rfl,
        fun _ _ => rfl, ?_, ⟨_, isSlot, stored_.symm⟩, ?_, ⟨?_, ?_⟩, ?_⟩
      · rw [← attached]
        exact Extends.attach Extends.refl ready empty isData
          unused_freeblock
      · exact appending.prepared.freeblock_ne_zero
      · intro index inside
        rw [has, appending.blocks index inside]
        omega
      · rw [seen_self]
        exact indirect
      · dsimp only
        omega
    · have exact_ : image.freeblock = fsSize :=
        Nat.le_antisymm appending.room full
      refine Or.inl ⟨?_, appending.prepared.size, exact_⟩
      refine appending.enough.resolve_right ?_
      omega
  · intro nonzero
    rw [ensures_pure, ← stores]
    refine Or.inr (appending.found isSlot ?_ indirect)
    rw [stores]
    exact fun zero => nonzero ((toNat_eq_zero_iff _).mp zero)

/-- The indirect block of the inode is a block of data. -/
theorem Appending.table
    (appending : Appending accepts image inum din fbn count)
    (present : din.indirect ≠ 0) :
    IsData wide din.indirect.toNat := by
  have isTable :
      stored (seen image inum din) inum .indirect = din.indirect.toNat := by
    unfold stored
    rw [seen_self]
  have nonzero : stored (seen image inum din) inum .indirect ≠ 0 := by
    rw [isTable]
    exact fun zero => present ((toNat_eq_zero_iff _).mp zero)
  have isData :=
    appending.owned.exact.inside (inum, .indirect) appending.allocated
      nonzero
  rw [← isTable]
  exact isData

/-- `iappend` goes through the indirect block of the inode. -/
theorem ensures_throughIndirect
    (appending : Appending accepts image inum din fbn count)
    (direct : ¬ fbn < inodeNumDirect)
    (present : din.indirect ≠ 0) :
    Ensures accepts (throughIndirect din (fbn - inodeNumDirect)) image
      fun x target =>
        Overrun accepts target x ∨
          Found image inum din fbn count target (din, x) := by
  have second : fbn - inodeNumDirect < inodeNumIndirect := by
    have inside := appending.inside
    simp only [inodeMaxBlocks, inodeNumDirect] at inside direct ⊢
    omega
  have isSlot :
      slotOf fbn = some (.second ⟨fbn - inodeNumDirect, second⟩) := by
    unfold slotOf
    rw [dif_neg direct, dif_pos second]
  have table := appending.table present
  have data :
      (view wide image.blocks).data din.indirect.toNat =
        image.blocks din.indirect.toNat := by
    unfold view
    dsimp only
    rw [if_pos table]
  have stores :
      stored (seen image inum din) inum
          (.second ⟨fbn - inodeNumDirect, second⟩) =
        (addrAt (image.blocks din.indirect.toNat)
          (fbn - inodeNumDirect)).toNat := by
    unfold stored
    dsimp only
    rw [seen_self, if_neg present]
    unfold seen
    dsimp only
    rw [data]
  have indirect : din.indirect ≠ 0 ↔ inodeNumDirect < fbn + 1 :=
    ⟨fun _ => Nat.lt_succ_of_le (Nat.le_of_not_lt direct),
      fun _ => present⟩
  have cost := blocksFor_of_indirect indirect
  have inUse : din.indirect.toNat < image.freeblock := by
    have used :=
      appending.owned.used_indirect appending.allocated
        (by rw [seen_self]; exact present)
    rw [seen_self] at used
    exact of_decide_eq_true used
  unfold throughIndirect
  rw [ensures_bind]
  refine ensures_rsect appending.prepared.size table.2 ?_
  refine ensures_ite ?_ ?_
  · intro zero
    have empty :
        stored (seen image inum din) inum
            (.second ⟨fbn - inodeNumDirect, second⟩) = 0 := by
      rw [stores, zero]
      rfl
    have isNext := appending.next isSlot empty
    have number := toNat_freeblock appending.room
    rw [ensures_bind, ensures_nextBlock, ensures_bind]
    refine ensures_wsect appending.prepared.size table.2 ?_
    rw [ensures_pure, addrAt_setAddr _ second, if_pos rfl, number]
    rcases Nat.lt_or_ge image.freeblock fsSize with below | full
    · have isData := appending.prepared.isData below
      have attached :=
        attach_second appending.prepared below inum table
          ⟨fbn - inodeNumDirect, second⟩
      have ready :
          Ready (seen image inum din) inum
            (.second ⟨fbn - inodeNumDirect, second⟩) := by
        unfold Ready
        dsimp only
        rw [seen_self]
        exact present
      have has :=
        hasBlock_attach appending.owned appending.allocated isData
          unused_freeblock ready empty isSlot
      have stored_ :=
        stored_attach appending.owned appending.allocated isData
          unused_freeblock ready empty appending.allocated
          (.second ⟨fbn - inodeNumDirect, second⟩)
      rw [if_pos ⟨rfl, rfl⟩, attached] at stored_
      rw [attached] at has
      refine Or.inr ⟨?_, below, rfl, ?_, ?_, ⟨_, isSlot, stored_.symm⟩,
        appending.prepared.freeblock_ne_zero, ⟨?_, ?_⟩, ?_⟩
      · exact prepared_write (prepared_next appending.prepared)
          (Nat.lt_succ_of_lt inUse) _
      · intro blockNo before
        exact Function.update_of_ne
          (Nat.ne_of_lt (before.trans_le table.1)) _ _
      · rw [← attached]
        exact Extends.attach Extends.refl ready empty isData
          unused_freeblock
      · intro index inside
        rw [has, appending.blocks index inside]
        omega
      · rw [seen_self]
        exact indirect
      · dsimp only
        omega
    · have exact_ : image.freeblock = fsSize :=
        Nat.le_antisymm appending.room full
      refine Or.inl ⟨?_, appending.prepared.size, exact_⟩
      refine appending.enough.resolve_right ?_
      omega
  · intro nonzero
    rw [ensures_pure, ← stores]
    refine Or.inr (appending.found isSlot ?_ indirect)
    rw [stores]
    exact fun zero => nonzero ((toNat_eq_zero_iff _).mp zero)

/-- `iappend` makes the indirect block of an inode with twelve blocks. -/
theorem Appending.withTable
    (appending : Appending accepts image inum din fbn count)
    (isNext : fbn = count)
    (many : inodeNumDirect ≤ fbn)
    (none : din.indirect = 0)
    (below : image.freeblock < fsSize) :
    Appending accepts { image with freeblock := image.freeblock + 1 } inum
        { din with indirect := UInt32.ofNat image.freeblock } fbn count ∧
      Extends wide inum (seen image inum din)
        (seen { image with freeblock := image.freeblock + 1 } inum
          { din with indirect := UInt32.ofNat image.freeblock }) := by
  have isData := appending.prepared.isData below
  have attached := attach_indirect appending.prepared below inum din
  have empty : stored (seen image inum din) inum .indirect = 0 := by
    unfold stored
    rw [seen_self, none]
    rfl
  have ready : Ready (seen image inum din) inum .indirect := trivial
  have extended :
      Extends wide inum (seen image inum din)
        (attach (seen image inum din) inum .indirect image.freeblock) :=
    Extends.attach Extends.refl ready empty isData unused_freeblock
  have has :=
    hasBlock_attach_indirect appending.owned appending.allocated isData
      unused_freeblock empty
  have owned := extended.owned appending.owned appending.allocated
  have allocated := (extended.allocated_iff inum).mpr appending.allocated
  rw [attached] at has extended owned allocated
  refine ⟨⟨prepared_next appending.prepared, below, owned, allocated, ?_,
    appending.inside, appending.near, ?_⟩, extended⟩
  · intro index inside
    rw [has]
    exact appending.blocks index inside
  · refine appending.enough.imp_right ?_
    intro enough
    have before : tables din = 0 := if_pos none
    have after :
        tables { din with indirect := UInt32.ofNat image.freeblock } = 1 := by
      apply if_neg
      intro zero
      have number := toNat_freeblock appending.room
      dsimp only at zero
      rw [zero] at number
      exact appending.prepared.freeblock_ne_zero number.symm
    rw [after]
    rw [before] at enough
    dsimp only
    omega

/-- `iappend` finds or makes the block. -/
theorem ensures_findBlock
    (appending : Appending accepts image inum din fbn count)
    (indirect : din.indirect ≠ 0 ↔ inodeNumDirect < count) :
    Ensures accepts (findBlock din fbn) image
      fun found target =>
        Overrun accepts target found.2 ∨
          Found image inum din fbn count target found := by
  have near := appending.near
  unfold findBlock
  by_cases direct : fbn < inodeNumDirect
  · rw [dif_pos direct]
    refine ensures_directBlock appending direct ?_
    by_contra present
    have many := indirect.mp present
    omega
  · rw [dif_neg direct, ensures_bind]
    unfold indirectBlock
    refine ensures_ite ?_ ?_
    · intro none
      have few : ¬ inodeNumDirect < count := fun many =>
        indirect.mpr many none
      have isNext : fbn = count := by
        omega
      have many : inodeNumDirect ≤ fbn := Nat.le_of_not_lt direct
      have number := toNat_freeblock appending.room
      rw [ensures_bind, ensures_nextBlock, ensures_pure, ensures_bind]
      rcases Nat.lt_or_ge image.freeblock fsSize with below | full
      · rcases appending.withTable isNext many none below with
          ⟨continues, extended⟩
        refine (ensures_throughIndirect continues direct ?_).mono ?_
        · intro zero
          dsimp only at zero
          rw [zero] at number
          exact appending.prepared.freeblock_ne_zero number.symm
        · intro x target result
          rw [ensures_pure]
          refine result.imp_right ?_
          intro found
          refine ⟨found.prepared, found.room, found.inodes, found.kept,
            extended.trans found.extended, found.block, found.present,
            found.filled, ?_⟩
          have cost := found.cost
          have before : tables din = 0 := if_pos none
          have after :
              tables
                { din with indirect := UInt32.ofNat image.freeblock } =
                1 := by
            apply if_neg
            intro zero
            dsimp only at zero
            rw [zero] at number
            exact appending.prepared.freeblock_ne_zero number.symm
          rw [after] at cost
          rw [before]
          dsimp only at cost
          omega
      · have exact_ : image.freeblock = fsSize :=
          Nat.le_antisymm appending.room full
        have accepted : accepts .io := by
          refine appending.enough.resolve_right ?_
          have before : tables din = 0 := if_pos none
          unfold blocksFor
          rw [before, exact_, if_pos (Nat.lt_succ_of_le many)]
          omega
        unfold throughIndirect
        rw [ensures_bind]
        dsimp only
        rw [number, exact_]
        exact ensures_rsect_end appending.prepared.size accepted
    · intro present
      rw [ensures_pure, ensures_bind]
      refine (ensures_throughIndirect appending direct present).mono ?_
      intro x target result
      rw [ensures_pure]
      exact result

end Find

/-! ## The loop -/

/-- The blocks of data of a file of this size. -/
def blockCount (size : Nat) : Nat :=
  (size + (blockSize - 1)) / blockSize

/-- An inode in memory, between two iterations of `iappend`. -/
structure InMemory
    (image : Image)
    (inum : Nat)
    (din : InodeEntry)
    (off : Nat) : Prop where
  prepared : Prepared image
  room : image.freeblock ≤ fsSize
  owned : Owned wide (seen image inum din)
  allocated : Allocated wide (seen image inum din) inum
  filled : FilledTo (seen image inum din) inum (blockCount off)

/-- The bytes fit in the file and in the image. -/
def Fits (image : Image) (off len : Nat) : Prop :=
  off + len ≤ inodeMaxBytes ∧
    image.freeblock + blocksFor (blockCount (off + len)) ≤
      fsSize + blocksFor (blockCount off)

/-- What the loop of `iappend` leaves. -/
structure Appended
    (image : Image)
    (inum : Nat)
    (din : InodeEntry)
    (off : Nat)
    (p : List UInt8)
    (last : InodeEntry × Nat)
    (target : Image) : Prop where
  offset : last.2 = off + p.length
  small : 0 < p.length → off + p.length ≤ inodeMaxBytes
  memory : InMemory target inum last.1 (off + p.length)
  inodes : target.freeinode = image.freeinode
  kept : ∀ blockNo < nMeta, target.blocks blockNo = image.blocks blockNo
  rewrites :
    Rewrites wide inum off (off + p.length) p (seen image inum din)
      (seen target inum last.1)
  cost :
    target.freeblock + blocksFor (blockCount off) =
      image.freeblock + blocksFor (blockCount (off + p.length))

section Loop

variable
    {accepts : Exit → Prop}
    {image : Image}
    {inum off : Nat}
    {din : InodeEntry}
    {p : List UInt8}

theorem Appended.nothing
    (memory : InMemory image inum din off)
    (empty : p.length = 0) :
    Appended image inum din off p (din, off) image := by
  refine ⟨?_, ?_, ?_, rfl, fun _ _ => rfl, ?_, ?_⟩
  · rw [empty]
    rfl
  · intro positive
    exact absurd empty (Nat.ne_of_gt positive)
  · rw [empty]
    exact memory
  · exact Rewrites.empty memory.owned (by omega)
  · rw [empty]
    rfl

theorem blocksFor_mono
    {left right : Nat}
    (le : left ≤ right) :
    blocksFor left ≤ blocksFor right := by
  unfold blocksFor
  split_ifs <;> omega

/-- The bytes of an iteration are in the block which was found. -/
theorem blockCount_within
    {len : Nat}
    (positive : 0 < len)
    (fits : off % blockSize + len ≤ blockSize) :
    blockCount (off + len) = off / blockSize + 1 := by
  unfold blockCount
  simp only [blockSize] at fits ⊢
  omega

theorem InMemory.appending
    (memory : InMemory image inum din off)
    (enough : (∀ exit, accepts exit) ∨ Fits image off p.length)
    (positive : 0 < p.length)
    (inside : off / blockSize < inodeMaxBlocks) :
    Appending accepts image inum din (off / blockSize) (blockCount off) := by
  refine ⟨memory.prepared, memory.room, memory.owned, memory.allocated,
    memory.filled.blocks, inside, ?_, ?_⟩
  · unfold blockCount
    simp only [blockSize]
    omega
  · refine enough.imp (fun all => all .io) ?_
    rintro ⟨_, fits⟩
    have indirect := memory.filled.indirect
    rw [seen_self] at indirect
    rw [← blocksFor_of_indirect indirect]
    have more :
        blocksFor (off / blockSize + 1) ≤
          blocksFor (blockCount (off + p.length)) := by
      apply blocksFor_mono
      unfold blockCount
      simp only [blockSize]
      omega
    omega

/-- The bytes are copied into the block. -/
theorem Found.copied
    {count : Nat}
    {target : Image}
    {found : InodeEntry × Nat}
    (isFound :
      Found image inum din (off / blockSize) count target found)
    (owned : Owned wide (seen image inum din))
    (allocated : Allocated wide (seen image inum din) inum)
    {len : Nat}
    (positive : 0 < len)
    (fits : off % blockSize + len ≤ blockSize)
    {copied : Image}
    (isCopied :
      copied =
        { target with
          blocks :=
            Function.update target.blocks found.2
              (patch (target.blocks found.2) (off % blockSize) len
                fun index => p.getD index 0) }) :
    found.2 < fsSize ∧ InMemory copied inum found.1 (off + len) ∧
      (∀ blockNo < nMeta, copied.blocks blockNo = image.blocks blockNo) ∧
      Rewrites wide inum off (off + len) p (seen image inum din)
        (seen copied inum found.1) := by
  rcases isFound.block with ⟨slot, isSlot, isBlock⟩
  have present : stored (seen target inum found.1) inum slot ≠ 0 := by
    rw [← isBlock]
    exact isFound.present
  have notIndirect : slot ≠ .indirect := by
    rintro rfl
    exact slotOf_ne_indirect isSlot
  have ownedTarget := isFound.extended.owned owned allocated
  have allocatedTarget :=
    (isFound.extended.allocated_iff inum).mpr allocated
  have isData : IsData wide found.2 := by
    rw [isBlock]
    exact ownedTarget.exact.inside (inum, slot) allocatedTarget present
  have inUse : found.2 < target.freeblock := by
    have keyLive :
        (fun key : Nat × Slot =>
          Allocated wide (seen target inum found.1) key.1)
            (inum, slot) :=
      allocatedTarget
    have used := ownedTarget.exact.used_of_stored keyLive present
    dsimp only at used
    rw [← isBlock] at used
    exact of_decide_eq_true used
  have data :
      (seen target inum found.1).data found.2 = target.blocks found.2 := by
    unfold seen view
    dsimp only
    rw [if_pos isData]
  have sees :
      seen copied inum found.1 =
        withData (seen target inum found.1) found.2
          (patch (target.blocks found.2) (off % blockSize) len
            fun index => p.getD index 0) := by
    rw [isCopied]
    unfold seen withData
    dsimp only
    rw [view_setData geometry_wide _ isData]
  have rewrites :=
    rewrites_of_extends owned allocated isFound.extended isSlot present fits
      p
  rw [← isBlock, data, ← sees] at rewrites
  refine ⟨isData.2, ⟨?_, ?_, rewrites.owned, rewrites.allocated allocated,
    ⟨?_, ?_⟩⟩, ?_, rewrites⟩
  · rw [isCopied]
    exact prepared_write isFound.prepared inUse _
  · rw [isCopied]
    exact isFound.room
  · intro index inside
    rw [blockCount_within positive fits,
      ← isFound.filled.blocks index inside, sees, isBlock]
    unfold HasBlock
    simp only [stored_withData ownedTarget allocatedTarget notIndirect
      allocatedTarget]
  · have indirect := isFound.filled.indirect
    rw [seen_self] at indirect ⊢
    rw [blockCount_within positive fits]
    exact indirect
  · intro blockNo before
    rw [isCopied]
    dsimp only
    rw [Function.update_of_ne (Nat.ne_of_lt (before.trans_le isData.1))]
    exact isFound.kept blockNo before

theorem ensures_assert
    {condition : Bool}
    {post : Unit → Image → Prop}
    (known : accepts .assertion ∨ condition = true)
    (continues : condition = true → post () image) :
    Ensures accepts (Mkfs.assert condition) image post := by
  unfold Mkfs.assert
  by_cases holds : condition = true
  · rw [if_pos holds, ensures_pure]
    exact continues holds
  · rw [if_neg holds, ensures_throw]
    exact known.resolve_right holds

/-- The first iteration and the rest of the loop. -/
theorem Appended.append
    {count len : Nat}
    {target copied final : Image}
    {found last : InodeEntry × Nat}
    (isFound :
      Found image inum din (off / blockSize) count target found)
    (isCount : count + tables din = blocksFor (blockCount off))
    (positive : 0 < len)
    (fits : off % blockSize + len ≤ blockSize)
    (within : len ≤ p.length)
    (inside : off / blockSize < inodeMaxBlocks)
    (kept :
      ∀ blockNo < nMeta, copied.blocks blockNo = image.blocks blockNo)
    (rewrites :
      Rewrites wide inum off (off + len) p (seen image inum din)
        (seen copied inum found.1))
    (freeblock : copied.freeblock = target.freeblock)
    (freeinode : copied.freeinode = target.freeinode)
    (rest :
      Appended copied inum found.1 (off + len) (p.drop len) last final) :
    Appended image inum din off p last final := by
  have length : off + len + (p.drop len).length = off + p.length := by
    rw [List.length_drop]
    omega
  have after := rest.rewrites
  rw [length] at after
  refine ⟨?_, ?_, ?_, ?_, ?_, ?_, ?_⟩
  · rw [rest.offset, length]
  · intro _
    by_cases more : 0 < (p.drop len).length
    · rw [← length]
      exact rest.small more
    · rw [List.length_drop] at more
      have all : p.length = len := by
        omega
      rw [all]
      simp only [inodeMaxBytes, inodeMaxBlocks, inodeNumDirect,
        inodeNumIndirect, blockSize] at inside fits ⊢
      omega
  · rw [← length]
    exact rest.memory
  · rw [rest.inodes, freeinode, isFound.inodes]
  · intro blockNo before
    rw [rest.kept blockNo before, kept blockNo before]
  · exact rewrites.append after (by omega) (Nat.le_add_right _ _)
  · have cost := rest.cost
    have found := isFound.cost
    rw [length, blockCount_within positive fits, freeblock] at cost
    rw [isCount] at found
    omega

/-- The loop of `iappend` appends the bytes, if they fit. -/
theorem ensures_appendLoop
    {fuel : Nat}
    (bounded : p.length ≤ fuel)
    (memory : InMemory image inum din off)
    (enough : (∀ exit, accepts exit) ∨ Fits image off p.length) :
    Ensures accepts (appendLoop fuel din p off) image
      (Appended image inum din off p) := by
  induction fuel generalizing image din p off with
  | zero =>
      rw [appendLoop, ensures_pure]
      exact Appended.nothing memory (Nat.le_zero.mp bounded)
  | succ fuel ih =>
      unfold appendLoop
      refine ensures_ite ?_ ?_
      · intro positive
        rw [ensures_bind]
        refine ensures_assert ?_ ?_
        · refine enough.imp (fun all => all .assertion) ?_
          rintro ⟨small, _⟩
          apply decide_eq_true
          simp only [inodeMaxBytes, inodeMaxBlocks, inodeNumDirect,
            inodeNumIndirect, blockSize] at small ⊢
          omega
        · intro checked
          have inside : off / blockSize < inodeMaxBlocks :=
            of_decide_eq_true checked
          have indirect := memory.filled.indirect
          rw [seen_self] at indirect
          have isCount := (blocksFor_of_indirect indirect).symm
          have appending := memory.appending enough positive inside
          rw [ensures_bind]
          refine (ensures_findBlock appending indirect).mono ?_
          rintro found target (overrun | isFound)
          · rw [ensures_bind, overrun.block]
            exact ensures_rsect_end overrun.size overrun.accepted
          · generalize isLen :
              min p.length ((off / blockSize + 1) * blockSize - off) = len
            have offset : off - off / blockSize * blockSize =
                off % blockSize := by
              simp only [blockSize]
              omega
            have lenPositive : 0 < len := by
              simp only [blockSize] at isLen
              omega
            have fits : off % blockSize + len ≤ blockSize := by
              simp only [blockSize] at isLen ⊢
              omega
            have within : len ≤ p.length := by
              rw [← isLen]
              exact Nat.min_le_left _ _
            rw [offset, ensures_bind]
            have facts :=
              isFound.copied (p := p) memory.owned memory.allocated
                lenPositive fits rfl
            rcases facts with ⟨isInside, continues, kept, rewrites⟩
            refine ensures_rsect isFound.prepared.size isInside ?_
            rw [ensures_bind]
            refine ensures_wsect isFound.prepared.size isInside ?_
            refine (ih ?_ continues ?_).mono ?_
            · rw [List.length_drop]
              omega
            · refine enough.imp_right ?_
              rintro ⟨small, capacity⟩
              have length :
                  off + len + (p.drop len).length = off + p.length := by
                rw [List.length_drop]
                omega
              have cost := isFound.cost
              rw [isCount] at cost
              refine ⟨length ▸ small, ?_⟩
              rw [length, blockCount_within lenPositive fits]
              dsimp only
              omega
            · intro last final rest
              exact Appended.append isFound isCount lenPositive fits within
                inside kept rewrites rfl rfl rest
      · intro empty
        rw [ensures_pure]
        exact Appended.nothing memory (Nat.eq_zero_of_not_pos empty)

end Loop

end FudanOS.User.MkfsAppend
